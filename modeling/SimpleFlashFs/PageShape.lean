import SimpleFlashFs.Commit
import SimpleFlashFs.Supply
import SimpleFlashFs.Reclaim

namespace SimpleFlashFs

open Lib

-- valid entries before deleted ones, and no page twice or in the free pages
structure PageListShape (s : Fs) (h : FileHandle) : Prop where
  deletedLast : DeletedLast h.inode.dataPages
  nodup : h.ids.Nodup
  notFree : ∀ p ∈ h.ids, p ∉ s.freeDataPages

-- with what the operations on the list rely on
structure Shaped (s : Fs) (h : FileHandle) : Prop extends PageListShape s h where
  freeWF : s.freeDataPages.WF
  bounded : ∀ p ∈ h.ids, p ≤ noData
  page : h.page < s.header.maxInodes
  maxInodes : s.header.maxInodes ≤ noData
  range : ∀ i ∈ s.headerInodeRange.numbers, i < s.header.maxInodes

-- a page that is neither listed nor free any more
structure SparePage (s : Fs) (h : FileHandle) (p : ℕ) : Prop where
  notFree : p ∉ s.freeDataPages
  notListed : p ∉ h.ids
  lt : p < noData

section Edits

variable {s t : Fs} {h k : FileHandle} {l : List DataPage} {p idx : ℕ} {m : DataPage}

theorem Shaped.edit (hs : Shaped s h) (hk : k.inode.dataPages = l) (hpage : k.page = h.page) (hd : DeletedLast l)
    (hn : (l.map DataPage.pageId).Nodup) (hl : ∀ q ∈ l.map DataPage.pageId, q ∈ h.ids ∨ SparePage s h q) : Shaped s k where
  deletedLast := by rwa [hk]
  nodup := by rwa [FileHandle.ids, hk]
  notFree q hq := by
    rw [FileHandle.ids, hk] at hq
    exact (hl q hq).elim (hs.notFree q) SparePage.notFree
  freeWF := hs.freeWF
  bounded q hq := by
    rw [FileHandle.ids, hk] at hq
    exact (hl q hq).elim (hs.bounded q) fun sp => sp.lt.le
  page := by rw [hpage]; exact hs.page
  maxInodes := hs.maxInodes
  range := hs.range

theorem Shaped.congr (hs : Shaped s h) (hk : k.inode.dataPages = h.inode.dataPages) (hpage : k.page = h.page) : Shaped s k :=
  hs.edit hk hpage hs.deletedLast hs.nodup fun _ hq => Or.inl hq

theorem Shaped.of_free (hs : Shaped s h) (hh : t.header = s.header) (hr : t.headerInodeRange = s.headerInodeRange)
    (hw : t.freeDataPages.WF) (hf : ∀ p ∈ h.ids, p ∉ t.freeDataPages) : Shaped t h where
  deletedLast := hs.deletedLast
  nodup := hs.nodup
  notFree := hf
  freeWF := hw
  bounded := hs.bounded
  page := by rw [hh]; exact hs.page
  maxInodes := by rw [hh]; exact hs.maxInodes
  range := by rw [hh, hr]; exact hs.range

theorem countValidDataPages_eq {kept dropped : List DataPage} (e : Entries h.inode.dataPages kept dropped) :
    h.inode.countValidDataPages = kept.length := e.valid

theorem countValidDataPages_le : h.inode.countValidDataPages ≤ h.inode.dataPages.length := List.countP_le_length

-- an index that at() takes
theorem Shaped.entry (hs : Shaped s h) (hi : idx < h.inode.countValidDataPages) :
    ∃ m, h.inode.dataPages[idx]? = some m ∧ m.state ≠ .deleted := by
  obtain ⟨kept, dropped, e⟩ := hs.deletedLast
  rw [countValidDataPages_eq e] at hi
  refine ⟨kept[idx], ?_, e.kept _ (List.getElem_mem hi)⟩
  rw [e.eq, List.getElem?_append_left hi, List.getElem?_eq_getElem hi]

theorem lt_countValidDataPages {kept dropped : List DataPage} (e : Entries h.inode.dataPages kept dropped)
    (hm : h.inode.dataPages[idx]? = some m) (hs : m.state ≠ .deleted) : idx < kept.length := by
  by_contra hge
  rw [e.eq, List.getElem?_append_right (by omega)] at hm
  exact hs (e.dropped m (List.mem_of_getElem? hm))

theorem Shaped.append (hs : Shaped s h) (sp : SparePage s h p) :
    Shaped s (h.setPages (h.inode.dataPages.insertIdx h.inode.countValidDataPages ⟨p, .new⟩)) ∧
      h.inode.countValidDataPages <
        (h.setPages (h.inode.dataPages.insertIdx h.inode.countValidDataPages ⟨p, .new⟩)).inode.countValidDataPages := by
  obtain ⟨kept, dropped, e⟩ := hs.deletedLast
  rw [countValidDataPages_eq e]
  have e' := e.append (m := ⟨p, .new⟩) (by simp)
  have hle : kept.length ≤ h.inode.dataPages.length := by
    rw [← countValidDataPages_eq e]
    exact countValidDataPages_le
  have hperm := (List.perm_insertIdx (⟨p, .new⟩ : DataPage) h.inode.dataPages hle).map DataPage.pageId
  refine ⟨hs.edit rfl rfl ⟨_, _, e'⟩ ?_ fun q hq => ?_, ?_⟩
  · exact hperm.nodup_iff.mpr (List.nodup_cons.mpr ⟨sp.notListed, hs.nodup⟩)
  · rcases List.mem_cons.mp (hperm.mem_iff.mp hq) with rfl | hq
    · exact Or.inr sp
    · exact Or.inl hq
  · have hv := countValidDataPages_eq (h := h.setPages (h.inode.dataPages.insertIdx kept.length ⟨p, .new⟩)) e'
    rw [hv, List.length_append, List.length_singleton]
    omega

-- the old entry moves to the end, its place is taken by the new page
theorem Shaped.exchange (hs : Shaped s h) (sp : SparePage s h p) (hm : h.inode.dataPages[idx]? = some m) (hv : m.state ≠ .deleted) :
    Shaped s (h.setPages ((h.inode.dataPages ++ [{ m with state := .deleted }]).set idx ⟨p, .new⟩)) ∧
      (h.setPages ((h.inode.dataPages ++ [{ m with state := .deleted }]).set idx ⟨p, .new⟩)).inode.dataPages[idx]? =
        some ⟨p, .new⟩ := by
  obtain ⟨kept, dropped, e⟩ := hs.deletedLast
  have hlt := lt_countValidDataPages e hm hv
  have e' := (e.delete (m := { m with state := .deleted }) rfl).set (m := ⟨p, .new⟩) hlt (by simp)
  have hm' : (h.inode.dataPages ++ [{ m with state := .deleted }])[idx]? = some m := by
    have hl := (List.getElem?_eq_some_iff.mp hm).1
    rw [List.getElem?_append_left hl]
    exact hm
  obtain ⟨hset, hperm⟩ := perm_set (n := (⟨p, .new⟩ : DataPage)) hm'
  -- the ids of the old list, once more that of the entry, which the new page replaces
  have hids : (((h.inode.dataPages ++ [{ m with state := .deleted }]).eraseIdx idx).map DataPage.pageId).Perm h.ids := by
    have h1 := hperm.map DataPage.pageId
    rw [List.map_append, List.map_cons] at h1
    exact ((List.perm_append_singleton m.pageId h.ids).symm.trans h1).cons_inv.symm
  have hnew := (hset.map DataPage.pageId).trans (hids.cons p)
  refine ⟨hs.edit rfl rfl ⟨_, _, e'⟩ ?_ fun q hq => ?_, ?_⟩
  · exact hnew.nodup_iff.mpr (List.nodup_cons.mpr ⟨sp.notListed, hs.nodup⟩)
  · rcases List.mem_cons.mp (hnew.mem_iff.mp hq) with rfl | hq
    · exact Or.inr sp
    · exact Or.inl hq
  · exact List.getElem?_set_self (List.getElem?_eq_some_iff.mp hm').1

theorem Shaped.stored (hs : Shaped s h) (hm : h.inode.dataPages[idx]? = some m) (hv : m.state ≠ .deleted) :
    Shaped s (h.setPages (h.inode.dataPages.set idx { m with state := .stored })) := by
  obtain ⟨kept, dropped, e⟩ := hs.deletedLast
  have e' := e.set (m := { m with state := .stored }) (lt_countValidDataPages e hm hv) (by simp)
  obtain ⟨hset, hperm⟩ := perm_set (n := { m with state := .stored }) hm
  have hids := (hset.map DataPage.pageId).trans (hperm.map DataPage.pageId).symm
  exact hs.edit rfl rfl ⟨_, _, e'⟩ (hids.nodup_iff.mpr hs.nodup) fun q hq => Or.inl (hids.mem_iff.mp hq)

theorem Shaped.replace (hs : Shaped s h) (sp : SparePage s h p) (hm : h.inode.dataPages[idx]? = some m) (hv : m.state ≠ .deleted) :
    Shaped s (h.setPages (replacePage m.pageId p h.inode.dataPages)) := by
  obtain ⟨kept, dropped, e⟩ := hs.deletedLast
  have hlt := lt_countValidDataPages e hm hv
  have hkept : kept[idx]? = some m := by
    rw [e.eq, List.getElem?_append_left hlt] at hm
    exact hm
  obtain ⟨m', rest, hm', hold, hnew⟩ := perm_replacePage (List.mem_of_getElem? hm) p
  have hnd := (hold.map DataPage.pageId).nodup_iff.mp hs.nodup
  have hrest : ∀ q ∈ rest.map DataPage.pageId, q ∈ h.ids := fun q hq =>
    (hold.map DataPage.pageId).mem_iff.mpr (List.mem_cons_of_mem _ hq)
  refine hs.edit rfl rfl ⟨_, _, e.replace hkept⟩ ?_ fun q hq => ?_
  · apply (hnew.map DataPage.pageId).nodup_iff.mpr
    exact List.nodup_cons.mpr ⟨fun hq => sp.notListed (hrest p hq), (List.nodup_cons.mp hnd).2⟩
  · rcases List.mem_cons.mp ((hnew.map DataPage.pageId).mem_iff.mp hq) with rfl | hq
    · exact Or.inr sp
    · exact Or.inl (hrest q hq)

theorem DeletedLast.of_sublist (hd : DeletedLast h.inode.dataPages) (hl : l.Sublist h.inode.dataPages) : DeletedLast l := by
  obtain ⟨kept, dropped, e⟩ := hd
  rw [e.eq] at hl
  obtain ⟨l1, l2, rfl, h1, h2⟩ := List.sublist_append_iff.mp hl
  exact ⟨l1, l2, rfl, fun m hm => e.kept m (h1.subset hm), fun m hm => e.dropped m (h2.subset hm)⟩

-- what truncate and the flush of a next version leave
theorem Shaped.sublist (hs : Shaped s h) (hk : k.inode.dataPages = l) (hpage : k.page = h.page)
    (hl : l.Sublist h.inode.dataPages) : Shaped s k :=
  hs.edit hk hpage (hs.deletedLast.of_sublist hl) (hs.nodup.sublist (hl.map _)) fun _ hq =>
    Or.inl ((hl.map DataPage.pageId).subset hq)

end Edits

section Allocating

variable {s t : Fs} {h : FileHandle} {idx : ℕ} {R : Fault → Fs → Prop}

theorem Shaped.took (hs : Shaped s h) {r : Option ℕ} (ht : TakesFree s t r) :
    Shaped t h ∧ ∀ p, r = some p → SparePage t h p := by
  have hh : t.header = s.header := by rw [ht.rest]
  have hr : t.headerInodeRange = s.headerInodeRange := by rw [ht.rest]
  refine ⟨hs.of_free hh hr ht.wf fun q hq hf => hs.notFree q hq ((ht.mem_iff q).mp hf).1, ?_⟩
  rintro p rfl
  have hp := ht.taken p rfl
  refine ⟨fun hf => ((ht.mem_iff p).mp hf).2 rfl, fun hl => hs.notFree p hl hp, ?_⟩
  obtain ⟨hd, hne⟩ := PageSet.mem_iff.mp hp
  exact lt_of_le_of_ne (hs.freeWF.bounded p hd) hne

theorem wp_allocateFreeDataPageBase_shaped (hs : Shaped s h) :
    wp allocateFreeDataPageBase (fun r t => Shaped t h ∧ ∀ p, r = some p → SparePage t h p) R s :=
  wp_mono (wp_allocateFreeDataPageBase hs.freeWF R) (fun _ _ ht => hs.took ht) fun _ _ h => h

theorem wp_allocateFreeDataPageFor_shaped (hs : Shaped s h) :
    wp (allocateFreeDataPageFor h) (fun r t => Shaped t h ∧ ∀ p, r = some p → SparePage t h p) R s := by
  rw [allocateFreeDataPageFor, wp_bind, wp_get, wp_ite]
  constructor
  · intro _
    exact ⟨hs, by simp⟩
  · intro _
    exact wp_mono (wp_allocateFreeDataPage hs.freeWF R) (fun _ _ ht => hs.took ht) fun _ _ h => h

theorem wp_allocateNewDataPagesLoop_shaped (fuel : ℕ) (hs : Shaped s h) (hf : idx + 1 ≤ h.inode.countValidDataPages + fuel) :
    wp (allocateNewDataPagesLoop idx fuel h)
      (fun r t => Shaped t r.2 ∧ (r.1 = true → idx < r.2.inode.countValidDataPages)) R s := by
  induction fuel generalizing s h with
  | zero => exact ⟨hs, fun _ => hf⟩
  | succ fuel ih =>
    rw [allocateNewDataPagesLoop, wp_ite]
    constructor
    · intro _
      rw [wp_bind]
      apply wp_mono (wp_allocateFreeDataPageFor_shaped hs)
      · intro r t ht
        obtain ⟨ht, hsp⟩ := ht
        cases r with
        | none => exact ⟨ht, by simp⟩
        | some p =>
          obtain ⟨hshaped, hlt⟩ := ht.append (hsp p rfl)
          exact ih hshaped (by omega)
      · exact fun _ _ h => h
    · intro hlt
      exact ⟨hs, fun _ => by dsimp only; omega⟩

theorem wp_allocateNewDataPages_shaped (idx : ℕ) (hs : Shaped s h) :
    wp (allocateNewDataPages idx h)
      (fun r t => Shaped t r.2 ∧ (r.1 = true → idx < r.2.inode.countValidDataPages)) R s :=
  wp_allocateNewDataPagesLoop_shaped _ hs (by omega)

end Allocating

section Writing

variable {s t : Fs} {h : FileHandle} {idx : ℕ} {m : DataPage}

-- no index out of range
def NotThrown (e : Fault) (_ : Fs) : Prop := e ≠ .thrown

theorem wp_perform_mem (op : PhysOp) : wp (perform op) (fun _ t => t = { s with mem := t.mem }) NotThrown s := by
  simp only [perform, wp_bind, wp_get, wp_set]
  cases (s.mem.perform op).2 with
  | ok => rfl
  | short left => rfl
  | cut left => intro h; cases h

theorem Shaped.performed (hs : Shaped s h) (ht : t = { s with mem := t.mem }) : Shaped t h := by
  rw [ht]
  exact hs.of_free rfl rfl hs.freeWF hs.notFree

theorem SparePage.performed {p : ℕ} (sp : SparePage s h p) (ht : t = { s with mem := t.mem }) : SparePage t h p := by
  rw [ht]
  exact ⟨sp.notFree, sp.notListed, sp.lt⟩

theorem wp_writePage_fresh (page : List UInt8) (hs : Shaped s h) (hm : h.inode.dataPages[idx]? = some m) (hnew : m.state = .new) :
    wp (writePage h page idx) (fun r t => Shaped t r.2 ∧ t.header = s.header) NotThrown s := by
  simp only [writePage, wp_bind, wp_get, hm, if_pos hnew]
  apply wp_mono (wp_perform_mem _)
  · intro done t ht
    have hh : t.header = s.header := by rw [ht]
    rw [wp_ite]
    exact ⟨fun _ => ⟨(hs.performed ht).stored hm (by simp [hnew]), hh⟩, fun _ => ⟨hs.performed ht, hh⟩⟩
  · exact fun _ _ h => h

theorem wp_writePage_shaped (page : List UInt8) (hs : Shaped s h) (hm : h.inode.dataPages[idx]? = some m)
    (hv : m.state ≠ .deleted) : wp (writePage h page idx) (fun r t => Shaped t r.2) NotThrown s := by
  by_cases hnew : m.state = .new
  · exact wp_mono (wp_writePage_fresh page hs hm hnew) (fun _ _ h => h.1) fun _ _ h => h
  · simp only [writePage, wp_bind, wp_get, hm, if_neg hnew]
    apply wp_mono (wp_allocateFreeDataPageBase_shaped hs)
    · intro r t ht
      obtain ⟨ht, hsp⟩ := ht
      cases r with
      | none => exact ht
      | some p =>
        simp only [wp_bind]
        apply wp_mono (wp_perform_mem _)
        · intro done u hu
          cases done with
          | false => exact ht.performed hu
          | true => exact (ht.performed hu).replace ((hsp p rfl).performed hu) hm hv
        · exact fun _ _ h => h
    · exact fun _ _ h => h

theorem wp_allocateNewDataPageAt_shaped (hs : Shaped s h) (hm : h.inode.dataPages[idx]? = some m) (hv : m.state ≠ .deleted) :
    wp (allocateNewDataPageAt idx h)
      (fun r t => Shaped t r.2 ∧ (r.1 = true → ∃ m, r.2.inode.dataPages[idx]? = some m ∧ m.state ≠ .deleted)) NotThrown s := by
  rw [allocateNewDataPageAt, wp_bind]
  apply wp_mono (wp_allocateFreeDataPageFor_shaped hs)
  · intro r t ht
    obtain ⟨ht, hsp⟩ := ht
    cases r with
    | none => exact ⟨ht, by simp⟩
    | some p =>
      simp only [hm, wp_pure]
      obtain ⟨hshaped, hentry⟩ := ht.exchange (hsp p rfl) hm hv
      exact ⟨hshaped, fun _ => ⟨_, hentry, by simp⟩⟩
  · exact fun _ _ h => h

variable [Config]

omit [Config] in
theorem wp_rewritePage_shaped (page : List UInt8) (hs : Shaped s h) (hm : h.inode.dataPages[idx]? = some m)
    (hv : m.state ≠ .deleted) : wp (rewritePage h page idx) (fun r t => Shaped t r.2) NotThrown s := by
  simp only [rewritePage, hm, whenNeeded, wp_bind, wp_ite]
  constructor
  · intro _
    apply wp_mono (wp_allocateNewDataPageAt_shaped hs hm hv)
    · intro r t ht
      obtain ⟨ht, hentry⟩ := ht
      constructor
      · intro hok
        obtain ⟨m', hm', hv'⟩ := hentry hok
        exact wp_writePage_shaped page ht hm' hv'
      · intro _
        exact ht
    · exact fun _ _ h => h
  · intro _
    exact ⟨fun _ => wp_writePage_shaped page hs hm hv, fun hno => absurd rfl hno⟩

omit [Config] in
theorem wp_whenNeeded_shaped {needed : Bool} (idx : ℕ) (hs : Shaped s h) :
    wp (whenNeeded needed h (allocateNewDataPages idx h))
      (fun r t => Shaped t r.2 ∧ (r.1 = true → needed = true → idx < r.2.inode.countValidDataPages) ∧
        (needed = false → r.2 = h)) NotThrown s := by
  cases needed with
  | false => exact ⟨hs, fun _ => nofun, fun _ => rfl⟩
  | true =>
    exact wp_mono (wp_allocateNewDataPages_shaped idx hs) (fun _ _ ht => ⟨ht.1, fun hok _ => ht.2 hok, nofun⟩) fun _ _ h => h

omit [Config] in
theorem Shaped.advance (hs : Shaped s h) (len : ℕ) : Shaped s (h.advance len) := hs.congr rfl rfl

theorem wp_writeUnaligned_shaped (data : List UInt8) (idx : ℕ) (hs : Shaped s h) :
    wp (writeUnaligned h data idx) (fun r t => Shaped t r.2) NotThrown s := by
  simp only [writeUnaligned, wp_bind, wp_get]
  apply wp_mono (wp_whenNeeded_shaped _ hs)
  · intro r t ht
    obtain ⟨ht, -, -⟩ := ht
    rw [wp_ite]
    constructor
    · intro _
      exact ht
    · intro _
      rw [wp_bind]
      apply wp_mono (wp_whenNeeded_shaped _ ht)
      · intro r' u hu
        obtain ⟨hu, hgrown, hsame⟩ := hu
        rw [wp_ite]
        constructor
        · intro _
          exact hu
        · intro hok
          -- the entry was new before, or the pages up to it are allocated now
          have hentry : ∃ m, r'.2.inode.dataPages[idx]? = some m ∧ m.state ≠ .deleted := by
            by_cases hnew : r.2.inode.dataPages[idx]?.map (·.state) = some .new
            · rw [hsame (by simp [hnew])]
              obtain ⟨m, hm, hnew⟩ := Option.map_eq_some_iff.mp hnew
              exact ⟨m, hm, by simp [hnew]⟩
            · exact hu.entry (hgrown (by simpa using hok) (by simpa using hnew))
          obtain ⟨m, hm, hv⟩ := hentry
          simp only [hm, wp_bind, wp_get, wp_ite]
          constructor
          · intro _
            exact hu
          · intro _
            apply wp_mono (wp_rewritePage_shaped _ hu hm hv)
            · intro r'' v hw
              exact ⟨fun _ => hw.advance _, fun _ => hw⟩
            · exact fun _ _ h => h
      · exact fun _ _ h => h
  · exact fun _ _ h => h

theorem wp_writeLoop_shaped (fuel : ℕ) (data : List UInt8) (written : ℕ) (hs : Shaped s h) :
    wp (writeLoop fuel h data written) (fun r t => Shaped t r.2) NotThrown s := by
  induction fuel generalizing s h written with
  | zero =>
    rw [writeLoop, wp_ite]
    refine ⟨fun _ => ?_, fun _ => hs⟩
    rw [wp_throw]
    simp [NotThrown]
  | succ fuel ih =>
    rw [writeLoop, wp_ite]
    constructor
    · intro _
      simp only [wp_bind, wp_get]
      apply wp_mono (wp_allocateNewDataPages_shaped _ hs)
      · intro r t ht
        obtain ⟨ht, hgrown⟩ := ht
        rw [wp_ite]
        constructor
        · intro _
          exact ht
        · intro hok
          obtain ⟨m, hm, hv⟩ := ht.entry (hgrown (by simpa using hok))
          simp only [hm, wp_ite]
          constructor
          · intro _
            simp only [wp_bind, wp_get, wp_ite]
            constructor
            · intro _
              exact ht
            · intro _
              apply wp_mono (wp_rewritePage_shaped _ ht hm hv)
              · intro r' u hu
                exact ⟨fun _ => ih _ (hu.advance _), fun _ => hu⟩
              · exact fun _ _ h => h
          · intro _
            rw [wp_bind]
            apply wp_mono (wp_writePage_shaped _ ht hm hv)
            · intro r' u hu
              rw [wp_ite]
              exact ⟨fun _ => ih _ (hu.advance _), fun _ => hu⟩
            · exact fun _ _ h => h
      · exact fun _ _ h => h
    · intro _
      exact hs

theorem wp_writePages_shaped (data : List UInt8) (idx already : ℕ) (hs : Shaped s h) :
    wp (writePages h data idx already) (fun r t => Shaped t r.2) NotThrown s := by
  have hfirst : wp (writeFirst h data idx) (fun r t => Shaped t r.2) NotThrown s := by
    simp only [writeFirst, wp_bind, wp_get, wp_ite]
    exact ⟨fun _ => wp_writeUnaligned_shaped data idx hs, fun _ => hs⟩
  rw [writePages, wp_bind]
  apply wp_mono hfirst
  · intro r t ht
    obtain ⟨r, k⟩ := r
    cases r with
    | none => exact ht
    | some written =>
      simp only [wp_bind]
      apply wp_mono (wp_writeLoop_shaped _ data written ht)
      · intro r u hu
        obtain ⟨r, k⟩ := r
        cases r with
        | none => exact hu
        | some written => exact hu.congr rfl rfl
      · exact fun _ _ h => h
  · exact fun _ _ h => h

end Writing

-- the vector inside of the inode refuses the length that the inline branch of write gives it
def ResizesTooLong (hd : Header) (h : FileHandle) (len : ℕ) : Prop :=
  let space := getInodeDataSpaceSize hd h
  space > h.pos + len ∧ h.inode.fileLen < space ∧ h.inode.inodeData.length < space ∧ space > maxVectorSize

instance (hd : Header) (h : FileHandle) (len : ℕ) : Decidable (ResizesTooLong hd h len) := by
  unfold ResizesTooLong
  infer_instance

-- the handle with which write calls itself
def FileHandle.emptied (h : FileHandle) : FileHandle :=
  { h with pos := 0, modified := true, inode := { h.inode with inodeData := [] } }

-- the only exceptions of write
def WriteThrows (hd : Header) (h : FileHandle) (len : ℕ) : Prop :=
  ResizesTooLong hd h len ∨
    h.inode.inodeData.length ≠ 0 ∧ ResizesTooLong hd h.emptied (h.pos + min (hd.pageSize - h.pos) len)

section Calling

variable {s t : Fs} {h : FileHandle}

theorem wp_growInodeData_any (space : ℕ) :
    wp (growInodeData h space) (fun _ t => t = s)
      (fun e _ => e = .thrown → h.inode.inodeData.length < space ∧ space > maxVectorSize) s := by
  rw [growInodeData, wp_ite]
  constructor
  · intro hlt
    apply wp_liftFault
    · exact fun _ _ => rfl
    · intro e he hthrown
      rw [resizeBytes] at he
      split at he
      · next hmax => exact ⟨hlt, hmax⟩
      · cases he
  · exact fun _ => rfl

theorem wp_writeInline_shaped (data : List UInt8) (hs : Shaped s h)
    (hspace : getInodeDataSpaceSize s.header h > h.pos + data.length ∧ h.inode.fileLen < getInodeDataSpaceSize s.header h) :
    wp (writeInline h data (getInodeDataSpaceSize s.header h)) (fun r t => Shaped t r.2)
      (fun e _ => e = .thrown → ResizesTooLong s.header h data.length) s := by
  rw [writeInline, wp_bind]
  apply wp_mono (wp_growInodeData_any _)
  · rintro inodeData t rfl
    exact hs.congr rfl rfl
  · intro e t he hthrown
    exact ⟨hspace.1, hspace.2, he hthrown⟩

theorem NotThrown.mono {P : Prop} {e : Fault} {t : Fs} (he : NotThrown e t) : e = .thrown → P := fun hthrown => absurd hthrown he

variable [Config]

theorem wp_writeWith_pages (again : FileHandle → List UInt8 → FsM (ℕ × FileHandle)) (data : List UInt8) (hs : Shaped s h)
    (hempty : h.inode.inodeData = []) :
    wp (writeWith again h data) (fun r t => Shaped t r.2) (fun e _ => e = .thrown → ResizesTooLong s.header h data.length) s := by
  rw [writeWith, wp_bind, wp_get]
  dsimp only
  rw [wp_ite, wp_ite]
  refine ⟨fun hspace => wp_writeInline_shaped data hs hspace, fun _ => ⟨fun hne => ?_, fun _ => ?_⟩⟩
  · rw [hempty] at hne
    exact absurd List.length_nil hne
  · exact wp_mono (wp_writePages_shaped data _ _ hs) (fun _ _ h => h) fun _ _ he => he.mono

theorem wp_migrateInline_shaped (again : FileHandle → List UInt8 → FsM (ℕ × FileHandle)) (data : List UInt8) (idx : ℕ)
    (hs : Shaped s h) :
    wp (migrateInline (writeWith again) h data idx) (fun r t => Shaped t r.2)
      (fun e _ => e = .thrown → ResizesTooLong s.header h.emptied (h.pos + min (s.header.pageSize - h.pos) data.length)) s := by
  rw [migrateInline, wp_bind, wp_get]
  dsimp only
  rw [wp_ite]
  constructor
  · exact fun _ => by simp
  · intro hfits
    have hlen : (h.inode.inodeData.take h.pos ++ data.take (min (s.header.pageSize - h.pos) data.length)).length =
        h.pos + min (s.header.pageSize - h.pos) data.length := by
      rw [List.length_append, List.length_take, List.length_take]
      omega
    have hwrite := wp_writeWith_pages again (h := h.emptied)
      (h.inode.inodeData.take h.pos ++ data.take (min (s.header.pageSize - h.pos) data.length)) (hs.congr rfl rfl) rfl
    rw [hlen] at hwrite
    rw [wp_bind]
    apply wp_mono hwrite
    · intro r t ht
      rw [wp_ite, wp_ite]
      refine ⟨fun _ => ht, fun _ => ⟨fun _ => ht, fun _ => ?_⟩⟩
      exact wp_mono (wp_writePages_shaped _ _ _ ht) (fun _ _ h => h) fun _ _ he => he.mono
    · exact fun _ _ h => h

theorem wp_writeFs_shaped (data : List UInt8) (hs : Shaped s h) :
    wp (writeFs h data) (fun r t => Shaped t r.2) (fun e _ => e = .thrown → WriteThrows s.header h data.length) s := by
  simp only [writeFs]
  rw [writeWith, wp_bind, wp_get]
  dsimp only
  rw [wp_ite, wp_ite]
  refine ⟨fun hspace => ?_, fun _ => ⟨fun hne => ?_, fun _ => ?_⟩⟩
  · exact wp_mono (wp_writeInline_shaped data hs hspace) (fun _ _ h => h) fun _ _ he hthrown => Or.inl (he hthrown)
  · exact wp_mono (wp_migrateInline_shaped _ data _ hs) (fun _ _ h => h) fun _ _ he hthrown => Or.inr ⟨hne, he hthrown⟩
  · exact wp_mono (wp_writePages_shaped data _ _ hs) (fun _ _ h => h) fun _ _ he => he.mono

-- where write starts: an append seeks to the end
def FileHandle.atWrite (h : FileHandle) : FileHandle := if h.append then { h with pos := h.inode.fileLen } else h

theorem wp_write_shaped (data : List UInt8) (hs : Shaped s h) :
    wp (write h data) (fun r t => Shaped t r.2) (fun e _ => e = .thrown → WriteThrows s.header h.atWrite data.length) s := by
  have hstart : wp (whenNeeded h.append h (seek h h.inode.fileLen)) (fun r t => t = s ∧ r.2 = h.atWrite) NotThrown s := by
    rw [whenNeeded, FileHandle.atWrite]
    split
    · rw [seek, if_pos (le_refl _)]
      exact ⟨rfl, rfl⟩
    · exact ⟨rfl, rfl⟩
  rw [write, wp_bind]
  apply wp_mono hstart
  · rintro r t ⟨rfl, hr⟩
    rw [hr, wp_ite]
    refine ⟨fun _ => wp_writeFs_shaped data ?_, fun _ => by simp⟩
    rw [FileHandle.atWrite]
    split
    · exact hs.congr rfl rfl
    · exact hs
  · exact fun _ _ he => he.mono

omit [Config] in
theorem wp_enlargeFile_shaped (amount : ℕ) (hs : Shaped s h) :
    wp (enlargeFile h amount) (fun r t => Shaped t r.2) (fun _ _ => True) s := by
  have hstorage : wp (enlargeStorage h (h.inode.fileLen + amount)) (fun r t => Shaped t r.2) (fun _ _ => True) s := by
    simp only [enlargeStorage, wp_bind, wp_get, wp_ite]
    constructor
    · intro _
      apply wp_mono (wp_growInodeData_any _)
      · rintro inodeData t rfl
        exact hs.congr rfl rfl
      · exact fun _ _ _ => trivial
    · intro _
      exact wp_mono (wp_allocateNewDataPages_shaped (R := fun _ _ => True) _ hs) (fun _ _ h => h.1) fun _ _ h => h
  simp only [enlargeFile, wp_bind, wp_get, wp_ite]
  refine ⟨fun _ => hs, fun _ => ⟨fun _ => hs, fun _ => ?_⟩⟩
  apply wp_mono hstorage
  · intro r t ht
    exact ⟨fun _ => ht, fun _ => ht.congr rfl rfl⟩
  · exact fun _ _ h => h

omit [Config] in
theorem wp_seek_shaped (pos : ℕ) (hs : Shaped s h) : wp (seek h pos) (fun r t => Shaped t r.2) (fun _ _ => True) s := by
  rw [seek, wp_ite, wp_ite]
  refine ⟨fun _ => hs.congr rfl rfl, fun _ => ⟨fun _ => trivial, fun _ => ?_⟩⟩
  rw [wp_bind]
  apply wp_mono (wp_enlargeFile_shaped _ hs)
  · intro r t ht
    rw [wp_ite]
    exact ⟨fun _ => ht.congr rfl rfl, fun _ => ht⟩
  · exact fun _ _ h => h

omit [Config] in
theorem wp_truncate_shaped (newSize : ℕ) (hs : Shaped s h) :
    wp (truncate h newSize) (fun r t => Shaped t r.2) (fun _ _ => True) s := by
  simp only [truncate, wp_bind, wp_get, wp_ite]
  refine ⟨fun _ => hs, fun _ => ⟨fun _ => hs, fun _ => ⟨fun _ => wp_enlargeFile_shaped _ hs, fun _ => ?_⟩⟩⟩
  rw [wp_pure]
  -- at most the end of the list is cut off
  split
  · split
    · exact hs.congr rfl rfl
    · exact hs.congr rfl rfl
  · split
    · exact hs.sublist rfl rfl (List.take_sublist _ _)
    · exact hs.congr rfl rfl

end Calling

-- a listed number may be that of a tombstone: a decoded one can be any of 32 bits
section Erasing

variable {t : PageSet} {v : ℕ} {old next : FileHandle}

theorem sortIfUnsorted_idem (t : PageSet) : t.sortIfUnsorted.sortIfUnsorted = t.sortIfUnsorted := by
  rw [PageSet.sortIfUnsorted, PageSet.sortIfUnsorted_unsorted]
  rfl

theorem erase_sortIfUnsorted (t : PageSet) (v : ℕ) : t.sortIfUnsorted.erase v = t.erase v := by
  rw [PageSet.erase, PageSet.erase, sortIfUnsorted_idem]

theorem insert_sortIfUnsorted (t : PageSet) (v : ℕ) : t.sortIfUnsorted.insert v = t.insert v := by
  rw [PageSet.insert, PageSet.insert, sortIfUnsorted_idem]

theorem foldl_unorderedInsert_eq (l : List DataPage) (t : PageSet) :
    l.foldl (fun s p => s.unorderedInsert p.pageId) t =
      { t with data := t.data ++ l.map DataPage.pageId, unsorted := t.unsorted || !l.isEmpty } := by
  induction l generalizing t with
  | nil => simp
  | cons m l ih =>
    rw [List.foldl_cons, ih]
    simp [PageSet.unorderedInsert]

-- the first operation that sorts drops the tombstones
theorem listed_sortIfUnsorted (l : List DataPage) (hb : ∀ q ∈ l.map DataPage.pageId, q ≤ noData)
    (hn : (l.map DataPage.pageId).Nodup) :
    (l.foldl (fun s p => s.unorderedInsert p.pageId) ({} : PageSet)).sortIfUnsorted.WF ∧
      ∀ q, q ∈ (l.foldl (fun s p => s.unorderedInsert p.pageId) ({} : PageSet)).sortIfUnsorted ↔
        q ∈ l.map DataPage.pageId ∧ q ≠ noData := by
  rw [foldl_unorderedInsert_eq, List.nil_append]
  cases l with
  | nil => exact ⟨PageSet.wf_empty, fun q => by simp [PageSet.sortIfUnsorted]⟩
  | cons m l =>
    have hw : ({ data := (m :: l).map DataPage.pageId, unsorted := true, unshrinked := true } : PageSet).WF :=
      ⟨hn.filter _, by simp, by simp, hb⟩
    have hsort := PageSet.sort_wf hw
    have hmem : ∀ q, q ∈ PageSet.sort _ ↔ q ∈ (m :: l).map DataPage.pageId ∧ q ≠ noData :=
      fun q => (PageSet.mem_sort hw).trans PageSet.mem_iff
    exact ⟨hsort, hmem⟩

theorem eraseLoop_noData (l : List ℕ) (hl : ∀ v ∈ l, v ≤ noData) : (PageSet.eraseLoop noData l).data = l := by
  induction l with
  | nil => rfl
  | cons x l ih =>
    have hx := hl x List.mem_cons_self
    rw [PageSet.eraseLoop]
    by_cases hxn : x = noData
    · rw [if_pos hxn, hxn]
    · rw [if_neg hxn, if_neg hxn, if_neg (by omega)]
      exact congrArg (x :: ·) (ih fun v hv => hl v (List.mem_cons_of_mem x hv))

theorem erase_any (hw : t.WF) (hv : v ≤ noData) : (t.erase v).1.WF ∧ ∀ q, q ∈ (t.erase v).1 ↔ q ∈ t ∧ q ≠ v := by
  rcases lt_or_eq_of_le hv with hlt | rfl
  · exact ⟨PageSet.erase_wf hw hlt, fun q => PageSet.mem_erase hw hlt⟩
  · have hs := PageSet.sortIfUnsorted_wf hw
    have hdata : (t.erase noData).1.data = t.sortIfUnsorted.data := eraseLoop_noData _ hs.bounded
    have hlive : (t.erase noData).1.live = t.sortIfUnsorted.live := by rw [PageSet.live, hdata, PageSet.live]
    constructor
    · refine ⟨by rw [hlive]; exact hs.nodup, fun hu => by rw [hlive]; exact hs.sorted hu, fun hu => ?_, ?_⟩
      · rw [hdata]
        rw [PageSet.erase] at hu
        simp only [Bool.or_eq_false_iff] at hu
        exact hs.shrinked hu.1
      · rw [hdata]
        exact hs.bounded
    · intro q
      rw [PageSet.mem_iff, hdata, ← PageSet.mem_iff, PageSet.mem_sortIfUnsorted hw, PageSet.mem_iff, and_assoc, and_self]

theorem foldl_erase_any (l : List DataPage) (hw : t.WF) (hl : ∀ q ∈ l.map DataPage.pageId, q ≤ noData) :
    (l.foldl (fun s p => (s.erase p.pageId).1) t).WF ∧
      ∀ q, q ∈ l.foldl (fun s p => (s.erase p.pageId).1) t ↔ q ∈ t ∧ q ∉ l.map DataPage.pageId := by
  induction l generalizing t with
  | nil => simpa using hw
  | cons m l ih =>
    obtain ⟨hw', hm⟩ := erase_any hw (hl m.pageId (by simp))
    obtain ⟨h1, h2⟩ := ih hw' fun q hq => hl q (List.mem_cons_of_mem _ hq)
    refine ⟨h1, fun q => ?_⟩
    rw [List.foldl_cons, h2, hm, List.map_cons, List.mem_cons, not_or, and_assoc]

theorem foldl_erase_sortIfUnsorted (l : List DataPage) (t : PageSet) :
    (l.foldl (fun s p => (s.erase p.pageId).1) t.sortIfUnsorted).sortIfUnsorted =
      (l.foldl (fun s p => (s.erase p.pageId).1) t).sortIfUnsorted := by
  cases l with
  | nil => exact sortIfUnsorted_idem t
  | cons m l => rw [List.foldl_cons, List.foldl_cons, erase_sortIfUnsorted]

theorem mem_pagesToErase_iff (ho : ∀ q ∈ old.ids, q ≤ noData) (hn : old.ids.Nodup) (hnext : ∀ q ∈ next.ids, q ≤ noData)
    (hp : old.page < noData) (q : ℕ) :
    q ∈ pagesToErase old next ↔ q = old.page ∨ (q ∈ old.ids ∧ q ≠ noData) ∧ q ∉ next.ids := by
  obtain ⟨w1, m1⟩ := listed_sortIfUnsorted old.inode.dataPages ho hn
  obtain ⟨w2, m2⟩ := foldl_erase_any next.inode.dataPages w1 hnext
  have w3 := PageSet.insert_wf w2 hp
  rw [pagesToErase, ← insert_sortIfUnsorted, ← foldl_erase_sortIfUnsorted, insert_sortIfUnsorted, PageSet.getData,
    PageSet.mem_sortIfDirty_data w3, PageSet.mem_insert w2 hp, m2, m1]
  exact or_comm

end Erasing

section Flushing

variable {s t : Fs} {h k : FileHandle} {l : List ℕ}

-- pages that may be given back while h is open
structure Returned (s : Fs) (h : FileHandle) (l : List ℕ) : Prop where
  notListed : ∀ q ∈ l, q ∉ h.ids ∨ q ≤ s.header.maxInodes
  lt : ∀ q ∈ l, q < noData

theorem wp_eraseDataPage_shaped {p : ℕ} (hs : Shaped s h) (hp : p ∉ h.ids ∨ p ≤ s.header.maxInodes) (hlt : p < noData) :
    wp (eraseDataPage p) (fun _ t => Shaped t h ∧ t.header = s.header) (fun _ _ => True) s := by
  simp only [eraseDataPage, wp_bind, wp_get]
  apply wp_mono (wp_perform_mem _)
  · intro _ t ht
    rw [ht, wp_ite]
    constructor
    · intro hgt
      refine ⟨hs.of_free rfl rfl (PageSet.insert_wf hs.freeWF hlt) fun q hq hf => ?_, rfl⟩
      rcases (PageSet.mem_insert hs.freeWF hlt).mp hf with hf | rfl
      · exact hs.notFree q hq hf
      · exact hp.elim (fun hn => hn hq) fun hle => absurd hgt (by omega)
    · intro _
      exact ⟨hs.of_free rfl rfl hs.freeWF hs.notFree, rfl⟩
  · exact fun _ _ _ => trivial

theorem wp_eraseDataPages_shaped (hs : Shaped s h) (hl : Returned s h l) :
    wp (each eraseDataPage l) (fun _ t => Shaped t h) (fun _ _ => True) s := by
  have hstep : ∀ p rest t, Shaped t h ∧ Returned t h (p :: rest) →
      wp (eraseDataPage p) (fun _ u => Shaped u h ∧ Returned u h rest) (fun _ _ => True) t := by
    intro p rest t ht
    obtain ⟨ht, hr⟩ := ht
    apply wp_mono (wp_eraseDataPage_shaped ht (hr.notListed p List.mem_cons_self) (hr.lt p List.mem_cons_self))
    · intro _ u hu
      refine ⟨hu.1, fun q hq => ?_, fun q hq => hr.lt q (List.mem_cons_of_mem p hq)⟩
      rw [hu.2]
      exact hr.notListed q (List.mem_cons_of_mem p hq)
    · exact fun _ _ h => h
  exact wp_mono (wp_each (fun l t => Shaped t h ∧ Returned t h l) l s ⟨hs, hl⟩ hstep) (fun _ _ ht => ht.1) fun _ _ h => h

theorem wp_eraseInodeAndUnusedPages_shaped {o : FileHandle} (hs : Shaped s h) (ho : ∀ q ∈ o.ids, q ≤ noData)
    (hn : o.ids.Nodup) (hp : o.page < s.header.maxInodes) :
    wp (eraseInodeAndUnusedPages o h) (fun _ t => Shaped t h) (fun _ _ => True) s := by
  have hpage : o.page < noData := lt_of_lt_of_le hp hs.maxInodes
  have hreturned : Returned s h (pagesToErase o h) := by
    constructor
    · intro q hq
      rcases (mem_pagesToErase_iff ho hn hs.bounded hpage q).mp hq with rfl | ⟨-, hq⟩
      · exact Or.inr hp.le
      · exact Or.inl hq
    · intro q hq
      rcases (mem_pagesToErase_iff ho hn hs.bounded hpage q).mp hq with rfl | ⟨⟨hq, hne⟩, -⟩
      · exact hpage
      · exact lt_of_le_of_ne (ho q hq) hne
  have hbase : wp (eraseInodeAndUnusedPagesBase o h) (fun _ t => Shaped t h) (fun _ _ => True) s := by
    rw [eraseInodeAndUnusedPagesBase, wp_bind]
    exact wp_mono (wp_eraseDataPages_shaped hs hreturned) (fun _ _ h => h) fun _ _ h => h
  rw [eraseInodeAndUnusedPages, wp_bind, wp_get]
  cases s.variant with
  | noDel => exact hs
  | dynamic => exact hbase
  | fram => exact hbase

theorem wp_writeZeroPagesFrom_shaped (left idx : ℕ) (hs : Shaped s h) :
    wp (writeZeroPagesFrom left idx h) (fun r t => Shaped t r.2 ∧ t.header = s.header) (fun _ _ => True) s := by
  induction left generalizing s h idx with
  | zero => exact ⟨hs, rfl⟩
  | succ left ih =>
    rw [writeZeroPagesFrom, wp_bind, wp_get]
    cases hm : h.inode.dataPages[idx]? with
    | none => exact ⟨hs, rfl⟩
    | some m =>
      dsimp only
      rw [wp_ite]
      constructor
      · intro hnew
        rw [wp_bind]
        apply wp_mono (wp_writePage_fresh _ hs hm hnew)
        · intro r t ht
          obtain ⟨ht, hh⟩ := ht
          rw [wp_ite]
          refine ⟨fun _ => ?_, fun _ => ⟨ht, hh⟩⟩
          rw [← hh]
          exact ih (idx + 1) ht
        · exact fun _ _ _ => trivial
      · intro _
        exact ih (idx + 1) hs

theorem wp_writeZeroPages_shaped (hs : Shaped s h) :
    wp (writeZeroPages h) (fun r t => Shaped t r.2 ∧ t.header = s.header) (fun _ _ => True) s :=
  wp_writeZeroPagesFrom_shaped _ 0 hs

variable [Config]

omit [Config] in
theorem wp_claimInodePage_tried (reader : Fs → ℕ → ReadPageReturn) (is : List ℕ) :
    wp (claimInodePage reader is)
      (fun r t => t = { s with allocatedUnwrittenPages := t.allocatedUnwrittenPages } ∧ ∀ i, r = some i → i ∈ is)
      (fun _ _ => True) s := by
  induction is generalizing s with
  | nil => exact ⟨rfl, nofun⟩
  | cons i rest ih =>
    have hrest : ∀ u : Fs, wp (claimInodePage reader rest)
        (fun r t => t = { u with allocatedUnwrittenPages := t.allocatedUnwrittenPages } ∧ ∀ j, r = some j → j ∈ i :: rest)
        (fun _ _ => True) u := fun u =>
      wp_mono ih (fun r t ht => ⟨ht.1, fun j hj => List.mem_cons_of_mem i (ht.2 j hj)⟩) fun _ _ h => h
    simp only [claimInodePage, wp_bind, wp_get, wp_ite, countAllocated, wp_set, wp_pure, insertAllocated, wp_modify]
    refine ⟨fun _ => ⟨fun _ => ?_, fun _ => ?_⟩, fun _ => hrest s⟩
    · refine ⟨trivial, fun j hj => ?_⟩
      obtain rfl := Option.some_inj.mp hj
      exact List.mem_cons_self
    · exact wp_mono (hrest _) (fun r t ht => ⟨by rw [ht.1], ht.2⟩) fun _ _ h => h

theorem wp_allocateFreeInodePageNumber_shaped (hs : Shaped s h) :
    wp allocateFreeInodePageNumber
      (fun r t => Shaped t h ∧ t.header = s.header ∧ ∀ i, r = some i → i < s.header.maxInodes) (fun _ _ => True) s := by
  have htry : ∀ reader, wp (startHeaderInodeRange >>= claimInodePage reader)
      (fun r t => Shaped t h ∧ t.header = s.header ∧ ∀ i, r = some i → i < s.header.maxInodes) (fun _ _ => True) s := by
    intro reader
    rw [wp_bind]
    apply wp_mono (wp_startHeaderInodeRange hs.range (R := fun _ _ => True) fun _ => trivial)
    · intro is t ht
      apply wp_mono (wp_claimInodePage_tried reader is)
      · intro r u hu
        obtain ⟨hu, hr⟩ := hu
        have hh : u.header = s.header := by rw [hu, ht.rest]
        have hfree : u.freeDataPages = s.freeDataPages := by rw [hu, ht.rest]
        have hrange : ∀ i ∈ u.headerInodeRange.numbers, i < u.header.maxInodes := by
          rw [hh, hu]
          exact ht.range
        refine ⟨⟨⟨hs.deletedLast, hs.nodup, ?_⟩, ?_, hs.bounded, ?_, ?_, hrange⟩, hh, fun i hi => ht.is i (hr i hi)⟩
        · rw [hfree]
          exact hs.notFree
        · rw [hfree]
          exact hs.freeWF
        · rw [hh]
          exact hs.page
        · rw [hh]
          exact hs.maxInodes
      · exact fun _ _ h => h
    · exact fun _ _ h => h
  rw [allocateFreeInodePageNumber, wp_bind, wp_get, wp_ite]
  exact ⟨fun _ => htry _, fun _ => htry _⟩

theorem wp_flushNew_shaped (hs : Shaped s h) : wp (flushNew h) (fun r t => Shaped t r.2) (fun _ _ => True) s := by
  have hs' : ∀ number, Shaped { s with maxInodeNumber := number } (h.numbered number) := by
    intro number
    have hcounted : Shaped { s with maxInodeNumber := number } h := hs.of_free rfl rfl hs.freeWF hs.notFree
    exact hcounted.congr rfl rfl
  rw [flushNew, wp_bind, wp_get]
  dsimp only
  rw [wp_bind, wp_set, wp_bind]
  apply wp_mono (wp_writeZeroPages_shaped (hs' _))
  · intro r t ht
    obtain ⟨ht, -⟩ := ht
    rw [wp_bind]
    apply wp_liftFault
    · intro page _
      rw [wp_bind, writeMetaPage, wp_bind, wp_get]
      apply wp_mono (wp_perform_mem _)
      · intro done u hu
        rw [wp_ite]
        exact ⟨fun _ => (ht.performed hu).congr rfl rfl, fun _ => ht.performed hu⟩
      · exact fun _ _ _ => trivial
    · exact fun _ _ => trivial
  · exact fun _ _ h => h

theorem wp_flushNextVersion_shaped (hs : Shaped s h) :
    wp (flushNextVersion h) (fun r t => Shaped t r.2) (fun _ _ => True) s := by
  rw [flushNextVersion]
  dsimp only
  rw [wp_bind]
  apply wp_mono (wp_allocateFreeInodePageNumber_shaped hs)
  · intro r t ht
    obtain ⟨ht, hh, hpage⟩ := ht
    cases r with
    | none => exact ht
    | some p =>
      have hnext : Shaped t (h.nextVersion p) := by
        have hmoved : Shaped t { h with page := p } :=
          { toPageListShape := ⟨ht.deletedLast, ht.nodup, ht.notFree⟩
            freeWF := ht.freeWF
            bounded := ht.bounded
            page := by rw [hh]; exact hpage p rfl
            maxInodes := ht.maxInodes
            range := ht.range }
        exact hmoved.sublist rfl rfl List.filter_sublist
      dsimp only
      rw [wp_bind, wp_get, wp_bind]
      apply wp_liftFault
      · intro page _
        rw [wp_bind]
        apply wp_mono (wp_writeZeroPages_shaped hnext)
        · intro r u hu
          obtain ⟨hu, hhu⟩ := hu
          rw [wp_bind, writeMetaPage, wp_bind, wp_get]
          apply wp_mono (wp_perform_mem _)
          · intro done v hv
            have hv' := hu.performed hv
            rw [wp_ite]
            refine ⟨fun _ => ?_, fun _ => hv'⟩
            rw [wp_bind]
            have hold : h.page < v.header.maxInodes := by
              rw [hv, hhu, hh]
              exact hs.page
            apply wp_mono (wp_eraseInodeAndUnusedPages_shaped (o := { h with connected := false })
              (h := { r.2 with modified := false }) (hv'.congr rfl rfl) hs.bounded hs.nodup hold)
            · exact fun _ _ hw => hw
            · exact fun _ _ h => h
          · exact fun _ _ _ => trivial
        · exact fun _ _ h => h
      · exact fun _ _ => trivial
  · exact fun _ _ h => h

theorem wp_flush_shaped (hs : Shaped s h) : wp (flush h) (fun r t => Shaped t r.2) (fun _ _ => True) s := by
  rw [flush, wp_ite, wp_ite, wp_ite]
  exact ⟨fun _ => trivial, fun _ => ⟨fun _ => hs, fun _ => ⟨fun _ => wp_flushNew_shaped hs, fun _ => wp_flushNextVersion_shaped hs⟩⟩⟩

end Flushing

section Runs

-- the calls that edit the list of the pages
inductive PageCall
  | write (data : List UInt8)
  | seek (pos : ℕ)
  | truncate (newSize : ℕ)
  | enlargeFile (amount : ℕ)
  | flush
deriving DecidableEq, Repr

variable [Config] {s t : Fs} {h k : FileHandle}

def PageCall.run (h : FileHandle) : PageCall → FsM FileHandle
  | .write data => Prod.snd <$> SimpleFlashFs.write h data
  | .seek pos => Prod.snd <$> SimpleFlashFs.seek h pos
  | .truncate newSize => Prod.snd <$> SimpleFlashFs.truncate h newSize
  | .enlargeFile amount => Prod.snd <$> SimpleFlashFs.enlargeFile h amount
  | .flush => Prod.snd <$> SimpleFlashFs.flush h

def runPageCalls (h : FileHandle) : List PageCall → FsM FileHandle
  | [] => pure h
  | call :: calls => do
    let h ← call.run h
    runPageCalls h calls

-- a filesystem that is mounted: its free pages are a page set, its inode pages are those of the header
structure MountedPages (s : Fs) : Prop where
  freeWF : s.freeDataPages.WF
  maxInodes : s.header.maxInodes < 2 ^ 32
  range : ∀ i ∈ s.headerInodeRange.numbers, i < s.header.maxInodes

-- the only live handle: of a new file, or one decoded from an inode page
inductive OpenedPages (s : Fs) (h : FileHandle) : Prop
  | fresh (hpage : h.page < s.header.maxInodes) (hpages : h.inode.dataPages = [])
  | decoded (hpage : h.page < s.header.maxInodes) (page : List UInt8) (corrections : Bool) (k : FileHandle)
      (hk : decodeInode s.header page corrections = .ok k) (hpages : h.inode.dataPages = k.inode.dataPages)
      (hn : h.ids.Nodup) (hfree : ∀ p ∈ h.ids, p ∉ s.freeDataPages)

omit [Config] in
theorem readPages_bounded {hd : Header} {corr : Bool} {page : List UInt8} (left pos lenRead : ℕ) {d d' : DecodedPages}
    (hd' : readPages hd corr page left pos lenRead d = .ok d') (hb : ∀ m ∈ d.dataPages, m.pageId ≤ noData) :
    ∀ m ∈ d'.dataPages, m.pageId ≤ noData := by
  induction left generalizing pos lenRead d with
  | zero =>
    obtain rfl := Except.ok.inj hd'
    exact hb
  | succ left ih =>
    rw [readPages] at hd'
    obtain ⟨id, hid, hd'⟩ := bind_eq_ok.mp hd'
    have hlt := readField_lt hid
    split at hd'
    · exact ih _ _ hd' hb
    · split at hd'
      · obtain rfl := Except.ok.inj hd'
        exact hb
      · refine ih _ _ hd' fun m hm => ?_
        rcases List.mem_append.mp hm with hm | hm
        · exact hb m hm
        · rw [List.mem_singleton.mp hm]
          dsimp only [noData]
          omega

omit [Config] in
theorem decodeInode_bounded {hd : Header} {corr : Bool} {page : List UInt8} (hdec : decodeInode hd page corr = .ok h) :
    ∀ m ∈ h.inode.dataPages, m.pageId ≤ noData := by
  unfold decodeInode at hdec
  obtain ⟨inodeNumber, -, hdec⟩ := bind_eq_ok.mp hdec
  obtain ⟨inodeVersionNumber, -, hdec⟩ := bind_eq_ok.mp hdec
  obtain ⟨fileNameLen, -, hdec⟩ := bind_eq_ok.mp hdec
  obtain ⟨fileName, -, hdec⟩ := bind_eq_ok.mp hdec
  obtain ⟨attributes, -, hdec⟩ := bind_eq_ok.mp hdec
  obtain ⟨fileLen, -, hdec⟩ := bind_eq_ok.mp hdec
  obtain ⟨pages, -, hdec⟩ := bind_eq_ok.mp hdec
  dsimp only at hdec
  split at hdec
  · obtain ⟨d, hpages, hdec⟩ := bind_eq_ok.mp hdec
    rw [← Except.ok.inj hdec]
    exact readPages_bounded _ _ _ hpages nofun
  · split at hdec
    · split at hdec
      · obtain ⟨data, -, hdec⟩ := bind_eq_ok.mp hdec
        obtain ⟨bytes, -, hdec⟩ := bind_eq_ok.mp hdec
        rw [← Except.ok.inj hdec]
        exact nofun
      · rw [← Except.ok.inj hdec]
        exact nofun
    · rw [← Except.ok.inj hdec]
      exact nofun

omit [Config] in
theorem OpenedPages.shaped (hm : MountedPages s) (ho : OpenedPages s h) : Shaped s h := by
  have hmax : s.header.maxInodes ≤ noData := Nat.le_sub_one_of_lt hm.maxInodes
  cases ho with
  | fresh hpage hpages =>
    have hids : h.ids = [] := by rw [FileHandle.ids, hpages, List.map_nil]
    refine ⟨⟨⟨[], [], ?_⟩, ?_, ?_⟩, hm.freeWF, ?_, hpage, hmax, hm.range⟩
    · rw [hpages]
      exact ⟨rfl, by simp, by simp⟩
    · rw [hids]
      exact List.nodup_nil
    · rw [hids]
      simp
    · rw [hids]
      simp
  | decoded hpage page corrections k hk hpages hn hfree =>
    refine ⟨⟨⟨h.inode.dataPages, [], ?_⟩, hn, hfree⟩, hm.freeWF, fun q hq => ?_, hpage, hmax, hm.range⟩
    · refine ⟨(List.append_nil _).symm, fun m hmem => ?_, by simp⟩
      rw [hpages] at hmem
      rw [(decodeInode_fresh hk).states m hmem]
      simp
    · obtain ⟨m, hmem, rfl⟩ := List.mem_map.mp hq
      rw [hpages] at hmem
      exact decodeInode_bounded hk m hmem

theorem runPageCalls_shaped (calls : List PageCall) (hs : Shaped s h) :
    wp (runPageCalls h calls) (fun k t => Shaped t k) (fun _ _ => True) s := by
  induction calls generalizing s h with
  | nil => exact hs
  | cons call calls ih =>
    have hcall : wp (call.run h) (fun k t => Shaped t k) (fun _ _ => True) s := by
      cases call with
      | write data =>
        rw [PageCall.run, wp_map]
        exact wp_mono (wp_write_shaped data hs) (fun _ _ h => h) fun _ _ _ => trivial
      | seek pos =>
        rw [PageCall.run, wp_map]
        exact wp_seek_shaped pos hs
      | truncate newSize =>
        rw [PageCall.run, wp_map]
        exact wp_truncate_shaped newSize hs
      | enlargeFile amount =>
        rw [PageCall.run, wp_map]
        exact wp_enlargeFile_shaped amount hs
      | flush =>
        rw [PageCall.run, wp_map]
        exact wp_flush_shaped hs
    rw [runPageCalls, wp_bind]
    exact wp_mono hcall (fun _ _ hk => ih hk) fun _ _ h => h

-- at() throws where its index is out of range: write throws only for the length of the inline data
theorem runPageCalls_shape (calls : List PageCall) (hm : MountedPages s) (ho : OpenedPages s h)
    (hr : runPageCalls h calls s = .ok k t) :
    PageListShape t k ∧ k.inode.countValidDataPages ≤ k.inode.dataPages.length ∧
      ∀ (data : List UInt8) (u : Fs), write k data t = .error .thrown u → WriteThrows t.header k.atWrite data.length := by
  have hk := wp_ok (runPageCalls_shaped calls (ho.shaped hm)) hr
  exact ⟨hk.toPageListShape, countValidDataPages_le, fun data u hu => wp_error (wp_write_shaped data hk) hu rfl⟩

end Runs

-- a stored page exchanged, a whole page replaced, a cut, a flush and a growth
def pageEdits : List PageCall :=
  [.write [1, 2, 3], .seek 64, .write (List.replicate 64 7), .seek 100, .write [4], .truncate 90, .flush, .enlargeFile 60, .write [5]]

theorem runPageCalls_shape_paged : ∃ k t, @runPageCalls dynamicConfig pagedHandle pageEdits pagedFs = .ok k t ∧
    PageListShape t k ∧ k.inode.countValidDataPages ≤ k.inode.dataPages.length ∧
      ∀ (data : List UInt8) (u : Fs), @write dynamicConfig k data t = .error .thrown u →
        WriteThrows t.header k.atWrite data.length := by
  have hrun : passes (@runPageCalls dynamicConfig pagedHandle pageEdits) (fun _ _ => true) pagedFs = true := by
    decide +kernel
  have hdec : (decodeInode pagedFs.header (pageAt pagedFs 0) true).toOption.any
      (fun k => decide (k.inode.dataPages = pagedHandle.inode.dataPages)) = true := by
    decide +kernel
  have hready := @Sound.ready dynamicConfig _ _ pagedFs_sound
  have howns := @LiveHandle.toOwns dynamicConfig _ _ (@Sound.handles dynamicConfig _ _ pagedFs_sound pagedHandle List.mem_cons_self)
  have hmax : pagedFs.header.maxInodes = 4 := by
    decide +kernel
  have hm : MountedPages pagedFs := ⟨hready.freeWF, by rw [hmax]; decide, hready.range⟩
  have ho : OpenedPages pagedFs pagedHandle := by
    have hpage : pagedHandle.page < pagedFs.header.maxInodes := by
      rw [hmax]
      decide
    obtain ⟨k, hk, hpages⟩ := ok_of_any hdec
    exact .decoded hpage _ true k hk (of_decide_eq_true hpages).symm howns.nodup howns.notFree
  obtain ⟨k, t, hr, -⟩ := returns_of_passes hrun
  exact ⟨k, t, hr, @runPageCalls_shape dynamicConfig _ _ _ _ pageEdits hm ho hr⟩

end SimpleFlashFs
