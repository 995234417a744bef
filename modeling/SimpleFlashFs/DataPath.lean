import SimpleFlashFs.Effect

namespace SimpleFlashFs

open Lib

section Pages

variable {s t : Fs} {h h' : FileHandle} {p : ℕ}

theorem TakesFree.within {r : Option ℕ} {m : ℕ → Prop} (ht : TakesFree s t r) : Within s t m :=
  .of_mem (by rw [ht.rest]) (by rw [ht.rest]) (by rw [ht.rest])

theorem TakesFree.mem {r : Option ℕ} (ht : TakesFree s t r) : t.mem = s.mem := by rw [ht.rest]

theorem TakesFree.effect_none (ho : Owns s h) (ht : TakesFree s t none) : DataEffect s h t h where
  within := ht.within
  rest := by rw [ht.rest]
  freeWF := ht.wf
  free p hp := ((ht.mem_iff p).mp hp).1
  ids _ hp := Or.inl hp
  newIds _ hp := Or.inr hp
  nodup := ho.nodup
  notFree p hp hf := ho.notFree p hp ((ht.mem_iff p).mp hf).1
  same := SameFile.refl h
  once hu hw := by
    refine ⟨⟨fun p hp => ?_, fun p hp => ?_⟩, by rwa [ht.mem]⟩
    · exact ((ht.within (m := fun _ => False)).fresh p id).mpr (hu.1 p ((ht.mem_iff p).mp hp).1)
    · exact ((ht.within (m := fun _ => False)).fresh p id).mpr (hu.2 p hp)

theorem TakesFree.effect_some {k : FileHandle} (ho : Owns s h) (ht : TakesFree s t (some p))
    (hids : k.ids.Perm (p :: h.ids)) (hnew : ∀ q ∈ k.newIds, q = p ∨ q ∈ h.newIds)
    (hs : SameFile h k) : DataEffect s h t k where
  within := ht.within
  rest := by rw [ht.rest]
  freeWF := ht.wf
  free q hq := ((ht.mem_iff q).mp hq).1
  ids q hq := by
    rcases List.mem_cons.mp (hids.mem_iff.mp hq) with rfl | hq
    · exact Or.inr (ht.taken q rfl)
    · exact Or.inl hq
  newIds q hq := by
    rcases hnew q hq with rfl | hq
    · exact Or.inl (ht.taken q rfl)
    · exact Or.inr hq
  nodup := hids.nodup_iff.mpr (List.nodup_cons.mpr ⟨fun hp => ho.notFree p hp (ht.taken p rfl), ho.nodup⟩)
  notFree q hq hf := by
    obtain ⟨hf, hne⟩ := (ht.mem_iff q).mp hf
    rcases List.mem_cons.mp (hids.mem_iff.mp hq) with rfl | hq
    · exact hne rfl
    · exact ho.notFree q hq hf
  same := hs
  once hu hw := by
    have hfresh : ∀ q, Fresh s q → Fresh t q :=
      fun q => ((ht.within (m := fun _ => False)).fresh q id).mpr
    refine ⟨⟨fun q hq => hfresh q (hu.1 q ((ht.mem_iff q).mp hq).1), fun q hq => ?_⟩, by rwa [ht.mem]⟩
    rcases hnew q hq with rfl | hq
    · exact hfresh q (hu.1 q (ht.taken q rfl))
    · exact hfresh q (hu.2 q hq)

theorem Programmed.effect {op : PhysOp} (hr : Ready s) (ho : Owns s h) (ht : Programmed s t p op)
    (hp : p ∈ h.newIds) (hids : ∀ q ∈ h'.ids, q ∈ h.ids) (hnodup : h'.ids.Nodup)
    (hnew : ∀ q ∈ h'.newIds, q ∈ h.newIds ∧ q ≠ p) (hs : SameFile h h') : DataEffect s h t h' where
  within := ht.within (Or.inr hp)
  rest := by rw [ht.rest]
  freeWF := by rw [ht.rest]; exact hr.freeWF
  free q hq := by rw [ht.rest] at hq; exact hq
  ids q hq := Or.inl (hids q hq)
  newIds q hq := Or.inr (hnew q hq).1
  nodup := hnodup
  notFree q hq := by rw [ht.rest]; exact ho.notFree q (hids q hq)
  same := hs
  once hu hw := by
    refine ⟨⟨fun q hq => ?_, fun q hq => ?_⟩, ht.once (fun _ _ _ => hu.2 p hp) hw⟩
    · rw [ht.rest] at hq
      have hne : q ≠ p := fun e => ho.notFree p (FileHandle.mem_ids_of_newIds hp) (e ▸ hq)
      exact (ht.fresh q hne).mpr (hu.1 q hq)
    · obtain ⟨h1, h2⟩ := hnew q hq
      exact (ht.fresh q h2).mpr (hu.2 q h1)

theorem Torn.lost {op : PhysOp} (ht : Torn s t p op) (hp : p ∈ h.newIds) : Lost s h t where
  within := ht.within (Or.inr hp)
  once hu hw := ht.once (fun _ _ _ => hu.2 p hp) hw

theorem Safe.program {k : FileHandle} {β : Type} {f : Bool → FsM β} {out : β → FileHandle} {data : List UInt8}
    (hp : p ∈ h.newIds) (hlen : data.length = s.header.pageSize)
    (hids : ∀ q ∈ k.ids, q ∈ h.ids) (hnodup : k.ids.Nodup)
    (hnew : ∀ q ∈ k.newIds, q ∈ h.newIds ∧ q ≠ p) (hs : SameFile h k)
    (hf : ∀ t, Programmed s t p (.write (writeAddress s.header p) data) → Safe t k (f true) out) :
    Safe s h (perform (.write (writeAddress s.header p) data) >>= f) out := by
  intro hr ho
  have hi : InRange s p := (ho.region p (FileHandle.mem_ids_of_newIds hp)).2
  rw [wp_bind]
  refine wp_perform (x := .write _ data) hr.layout.toGeometry hr.noShort hi
    (hr.layout.writeAddress_eq hi) hlen (fun t ht => ?_) (fun t ht _ => ht.lost hp)
  have he := ht.effect hr ho hp hids hnodup hnew hs
  exact wp_mono (hf t ht (he.ready hr) (he.owns hr ho)) (fun _ _ hu => he.trans hu)
    (fun e u hu hl => he.lost (hu hl))

end Pages

theorem perm_set {l : List DataPage} {i : ℕ} {m n : DataPage} (hm : l[i]? = some m) :
    (l.set i n).Perm (n :: l.eraseIdx i) ∧ l.Perm (m :: l.eraseIdx i) := by
  induction l generalizing i with
  | nil => cases hm
  | cons x xs ih =>
    cases i with
    | zero =>
      obtain rfl := Option.some_inj.mp hm
      exact ⟨List.Perm.refl _, List.Perm.refl _⟩
    | succ i =>
      obtain ⟨h1, h2⟩ := ih (by simpa using hm)
      exact ⟨(h1.cons x).trans (List.Perm.swap _ _ _), (h2.cons x).trans (List.Perm.swap _ _ _)⟩

theorem perm_replacePage {l : List DataPage} {m : DataPage} (hm : m ∈ l) (newPage : ℕ) :
    ∃ m' rest, m'.pageId = m.pageId ∧ l.Perm (m' :: rest) ∧
      (replacePage m.pageId newPage l).Perm (⟨newPage, .stored⟩ :: rest) := by
  induction l with
  | nil => cases hm
  | cons x xs ih =>
    rw [replacePage]
    by_cases hx : x.pageId = m.pageId
    · rw [if_pos hx]
      exact ⟨x, xs, hx, List.Perm.refl _, List.Perm.refl _⟩
    · rw [if_neg hx]
      have hxs : m ∈ xs := (List.mem_cons.mp hm).resolve_left fun e => hx (e ▸ rfl)
      obtain ⟨m', rest, h1, h2, h3⟩ := ih hxs
      exact ⟨m', x :: rest, h1, (h2.cons x).trans (List.Perm.swap _ _ _),
        (h3.cons x).trans (List.Perm.swap _ _ _)⟩

namespace FileHandle

theorem ids_perm {h : FileHandle} {l : List DataPage} (hl : h.inode.dataPages.Perm l) :
    h.ids.Perm (l.map (·.pageId)) := hl.map _

theorem mem_newIds_iff {h : FileHandle} {l : List DataPage} (hl : h.inode.dataPages.Perm l) {p : ℕ} :
    p ∈ h.newIds ↔ ∃ m ∈ l, m.state = .new ∧ m.pageId = p := by
  simp only [newIds, List.mem_map, List.mem_filter, hl.mem_iff, decide_eq_true_eq, and_assoc]

theorem sameFile_setPages (h : FileHandle) (l : List DataPage) : SameFile h (h.setPages l) :=
  ⟨rfl, rfl, rfl, rfl, rfl, rfl, rfl, rfl⟩

end FileHandle

section Write

variable {s : Fs} {h : FileHandle}

-- an entry leaves the list of pages to program once its page is programmed
theorem newIds_stored {h k : FileHandle} {m n : DataPage} {rest : List DataPage} (hnodup : h.ids.Nodup)
    (hl : h.inode.dataPages.Perm (m :: rest)) (hl' : k.inode.dataPages.Perm (n :: rest))
    (hn : n.state ≠ .new) : ∀ q ∈ k.newIds, q ∈ h.newIds ∧ q ≠ m.pageId := by
  intro q hq
  obtain ⟨x, hx, hs, rfl⟩ := (FileHandle.mem_newIds_iff hl').mp hq
  have hx : x ∈ rest := (List.mem_cons.mp hx).resolve_left fun e => hn (e ▸ hs)
  refine ⟨(FileHandle.mem_newIds_iff hl).mpr ⟨x, List.mem_cons_of_mem _ hx, hs, rfl⟩, ?_⟩
  have hnd := (FileHandle.ids_perm hl).nodup_iff.mp hnodup
  rw [List.map_cons, List.nodup_cons] at hnd
  exact fun e => hnd.1 (e ▸ List.mem_map_of_mem hx)

theorem safe_writePage {d : List UInt8} (hlen : d.length = s.header.pageSize) (idx : ℕ) :
    Safe s h (writePage h d idx) (·.2) := by
  intro hr ho
  refine Safe.wp (Safe.get ?_) hr ho
  cases hm : h.inode.dataPages[idx]? with
  | none => exact Safe.throw (by decide)
  | some m =>
    obtain ⟨hset, hperm⟩ := perm_set (n := { m with state := .stored }) hm
    simp only
    split
    · next hnew =>
      have hp : m.pageId ∈ h.newIds := FileHandle.mem_newIds (List.mem_of_getElem? hm) hnew
      have hids : ∀ q ∈ (h.setPages (h.inode.dataPages.set idx { m with state := .stored })).ids, q ∈ h.ids :=
        fun q hq => (hperm.map (·.pageId)).mem_iff.mpr ((hset.map (·.pageId)).mem_iff.mp hq)
      refine Safe.program hp hlen hids ?_ (newIds_stored ho.nodup hperm hset (by simp))
        (FileHandle.sameFile_setPages _ _) (fun t ht => Safe.pure rfl (SameFile.refl _))
      exact (hset.map DataPage.pageId).nodup_iff.mpr ((hperm.map DataPage.pageId).nodup_iff.mp ho.nodup)
    · intro hr ho
      rw [wp_bind]
      refine wp_mono (wp_allocateFreeDataPageBase hr.freeWF _) (fun r t ht => ?_) (fun _ _ h => h)
      cases r with
      | none => exact ht.effect_none ho
      | some p =>
        have hfree := ht.taken p rfl
        obtain ⟨m', rest, hm', hl, hl'⟩ := perm_replacePage (List.mem_of_getElem? hm) p
        -- the handle with the d that is about to be programmed
        have he := ht.effect_some (k := h.setPages (⟨p, .new⟩ :: h.inode.dataPages)) ho
          (List.Perm.refl _) (fun q hq => ?_) (FileHandle.sameFile_setPages _ _)
        · have hpage : t.header = s.header := by rw [ht.rest]
          rw [← hpage]
          have hsafe : Safe t (h.setPages (⟨p, .new⟩ :: h.inode.dataPages))
              (perform (.write (writeAddress t.header p) d) >>= fun done =>
                if done then pure (true, h.setPages (replacePage m.pageId p h.inode.dataPages))
                else pure (false, h)) (·.2) := by
            refine Safe.program (k := h.setPages (replacePage m.pageId p h.inode.dataPages)) ?_
              (by rw [hpage]; exact hlen) ?_ ?_ ?_ (FileHandle.sameFile_setPages _ _)
              (fun u hu => Safe.pure rfl (SameFile.refl _))
            · exact FileHandle.mem_newIds (m := ⟨p, .new⟩) (List.mem_cons_self ..) rfl
            · intro q hq
              rcases List.mem_cons.mp ((FileHandle.ids_perm hl').mem_iff.mp hq) with rfl | hq
              · exact List.mem_cons_self ..
              · exact List.mem_cons_of_mem _
                  ((FileHandle.ids_perm hl).mem_iff.mpr (List.mem_cons_of_mem _ hq))
            · have hnd := (FileHandle.ids_perm hl).nodup_iff.mp ho.nodup
              refine (hl'.map DataPage.pageId).nodup_iff.mpr (List.nodup_cons.mpr ⟨fun hq => ?_, ?_⟩)
              · exact ho.notFree p ((FileHandle.ids_perm hl).mem_iff.mpr (List.mem_cons_of_mem _ hq)) hfree
              · exact (List.nodup_cons.mp hnd).2
            · have hl2 : (h.setPages (⟨p, .new⟩ :: h.inode.dataPages)).inode.dataPages.Perm
                  (⟨p, .new⟩ :: m' :: rest) := hl.cons _
              intro q hq
              obtain ⟨x, hx, hs, rfl⟩ := (FileHandle.mem_newIds_iff hl').mp hq
              have hx : x ∈ rest := (List.mem_cons.mp hx).resolve_left fun e => by rw [e] at hs; cases hs
              refine ⟨(FileHandle.mem_newIds_iff hl2).mpr ⟨x, by simp [hx], hs, rfl⟩, fun e => ?_⟩
              refine ho.notFree p ((FileHandle.ids_perm hl).mem_iff.mpr (List.mem_cons_of_mem _ ?_)) hfree
              exact e ▸ List.mem_map_of_mem hx
          exact wp_mono (hsafe (he.ready hr) (he.owns hr ho)) (fun _ _ hu => he.trans hu)
            (fun _ _ hu hl => he.lost (hu hl))
        · obtain ⟨x, hx, hs, rfl⟩ := (FileHandle.mem_newIds_iff (List.Perm.refl _)).mp hq
          rcases List.mem_cons.mp hx with rfl | hx
          · exact Or.inl rfl
          · exact Or.inr (FileHandle.mem_newIds hx hs)

theorem wp_allocateFreeDataPageFor (hf : s.freeDataPages.WF) (h : FileHandle) (R : Fault → Fs → Prop) :
    wp (allocateFreeDataPageFor h) (fun r t => TakesFree s t r ∨ r = none ∧ t = s) R s := by
  rw [allocateFreeDataPageFor, wp_bind, wp_get]
  generalize getMaxInodeDataPages s.header h = maxPages
  rw [wp_ite]
  exact ⟨fun _ => Or.inr ⟨rfl, rfl⟩,
    fun _ => wp_mono (wp_allocateFreeDataPage hf R) (fun _ _ ht => Or.inl ht) (fun _ _ h => h)⟩

theorem Safe.allocate {α : Type} {f : Option ℕ → FsM α} {out : α → FileHandle}
    (hnone : ∀ t, Safe t h (f none) out)
    (hsome : ∀ p t, Owns s h → TakesFree s t (some p) →
      ∃ h', DataEffect s h t h' ∧ Safe t h' (f (some p)) out) :
    Safe s h (allocateFreeDataPageFor h >>= f) out := by
  intro hr ho
  rw [wp_bind]
  refine wp_mono (wp_allocateFreeDataPageFor hr.freeWF h _) (fun r t ht => ?_) (fun _ _ h => h)
  rcases ht with ht | ⟨rfl, rfl⟩
  swap
  · exact hnone t hr ho
  cases r with
  | none =>
    have he := ht.effect_none ho
    exact wp_mono (hnone t (he.ready hr) (he.owns hr ho)) (fun _ _ hu => he.trans hu)
      (fun _ _ hu hl => he.lost (hu hl))
  | some p =>
    obtain ⟨h', he, hs⟩ := hsome p t ho ht
    exact wp_mono (hs (he.ready hr) (he.owns hr ho)) (fun _ _ hu => he.trans hu)
      (fun _ _ hu hl => he.lost (hu hl))

theorem mem_newIds_cons {h h' : FileHandle} {l : List DataPage} {p : ℕ}
    (hl : h'.inode.dataPages.Perm (⟨p, .new⟩ :: l))
    (hsub : ∀ m ∈ l, m.state = .new → m ∈ h.inode.dataPages) : ∀ q ∈ h'.newIds, q = p ∨ q ∈ h.newIds := by
  intro q hq
  obtain ⟨x, hx, hs, rfl⟩ := (FileHandle.mem_newIds_iff hl).mp hq
  rcases List.mem_cons.mp hx with rfl | hx
  · exact Or.inl rfl
  · exact Or.inr (FileHandle.mem_newIds (hsub x hx hs) hs)

theorem safe_allocateNewDataPagesLoop (pageIdx fuel : ℕ) :
    Safe s h (allocateNewDataPagesLoop pageIdx fuel h) (·.2) := by
  induction fuel generalizing s h with
  | zero => exact Safe.pure rfl (SameFile.refl _)
  | succ fuel ih =>
    rw [allocateNewDataPagesLoop]
    split
    · refine Safe.allocate (fun t => Safe.pure rfl (SameFile.refl _)) (fun p t ho ht => ⟨_, ?_, ih⟩)
      have hl : (h.inode.dataPages.insertIdx h.inode.countValidDataPages ⟨p, .new⟩).Perm
          (⟨p, .new⟩ :: h.inode.dataPages) := List.perm_insertIdx _ _ List.countP_le_length
      exact ht.effect_some ho (hl.map _) (mem_newIds_cons hl fun _ hm _ => hm)
        (FileHandle.sameFile_setPages _ _)
    · exact Safe.pure rfl (SameFile.refl _)

theorem safe_allocateNewDataPages (pageIdx : ℕ) :
    Safe s h (allocateNewDataPages pageIdx h) (·.2) := safe_allocateNewDataPagesLoop _ _

theorem safe_allocateNewDataPageAt (pageIdx : ℕ) :
    Safe s h (allocateNewDataPageAt pageIdx h) (·.2) := by
  rw [allocateNewDataPageAt]
  refine Safe.allocate (fun t => Safe.pure rfl (SameFile.refl _)) (fun p t ho ht => ?_)
  cases hm : h.inode.dataPages[pageIdx]? with
  | none =>
    -- at() throws before the handle changes
    refine ⟨h.setPages (⟨p, .new⟩ :: h.inode.dataPages), ?_, Safe.throw (by decide)⟩
    exact ht.effect_some ho (List.Perm.refl _) (mem_newIds_cons (List.Perm.refl _) fun _ hm _ => hm)
      (FileHandle.sameFile_setPages _ _)
  | some old =>
    refine ⟨_, ?_, Safe.pure rfl (SameFile.refl _)⟩
    have hidx : (h.inode.dataPages ++ [{ old with state := .deleted }])[pageIdx]? = some old := by
      rw [List.getElem?_append_left (List.getElem?_eq_some_iff.mp hm).1, hm]
    obtain ⟨hset, hperm⟩ := perm_set (n := ⟨p, .new⟩) hidx
    obtain ⟨-, hold⟩ := perm_set (n := old) hm
    have hrest : ((h.inode.dataPages ++ [{ old with state := .deleted }]).eraseIdx pageIdx) =
        h.inode.dataPages.eraseIdx pageIdx ++ [{ old with state := .deleted }] :=
      List.eraseIdx_append_of_lt_length (List.getElem?_eq_some_iff.mp hm).1 _
    rw [hrest] at hset
    refine ht.effect_some ho ?_ (mem_newIds_cons hset ?_) (FileHandle.sameFile_setPages _ _)
    · refine (hset.map DataPage.pageId).trans (List.Perm.cons p ?_)
      rw [List.map_append]
      exact List.perm_append_comm.trans (hold.map DataPage.pageId).symm
    · intro m hm hs
      rcases List.mem_append.mp hm with hm | hm
      · exact (List.eraseIdx_sublist _ _).mem hm
      · rw [List.mem_singleton.mp hm] at hs
        cases hs

theorem Safe.whenNeeded {needed : Bool} {call : FsM (Bool × FileHandle)} (hc : Safe s h call (·.2)) :
    Safe s h (whenNeeded needed h call) (·.2) := by
  cases needed
  · exact Safe.pure rfl (SameFile.refl _)
  · exact hc

theorem safe_rewritePage [Config] {page : List UInt8} (hlen : page.length = s.header.pageSize) (idx : ℕ) :
    Safe s h (rewritePage h page idx) (·.2) := by
  rw [rewritePage]
  split
  · exact Safe.throw (by decide)
  · refine Safe.bind (Safe.whenNeeded (safe_allocateNewDataPageAt idx)) (fun r t ht => ?_)
    split
    · exact safe_writePage (by rw [ht.within.header]; exact hlen) idx
    · exact Safe.pure rfl (SameFile.refl _)

theorem sameFile_advance (h : FileHandle) (len : ℕ) : SameFile h (h.advance len) :=
  ⟨rfl, rfl, rfl, rfl, rfl, rfl, rfl, rfl⟩

theorem Owns.readPage_length [Config] (hr : Ready s) (ho : Owns s h) {m : DataPage} {idx : ℕ}
    (hm : h.inode.dataPages[idx]? = some m) :
    (readPage s m.pageId).page.length = s.header.pageSize ∧ (readPage s m.pageId).error = none := by
  have hi := (ho.region m.pageId (List.mem_map_of_mem (List.mem_of_getElem? hm))).2
  rw [readPage_eq hr.layout.toGeometry hi, if_neg (by simp)]
  exact ⟨hr.layout.pageAt_length hi, rfl⟩

theorem Safe.ready {α : Type} {m : FsM α} {out : α → FileHandle} (hm : Ready s → Owns s h → Safe s h m out) :
    Safe s h m out := fun hr ho => hm hr ho hr ho

theorem safe_writeUnaligned [Config] (data : List UInt8) (pageIdx : ℕ) :
    Safe s h (writeUnaligned h data pageIdx) (·.2) := by
  refine Safe.get ?_
  refine Safe.bind (Safe.whenNeeded (safe_allocateNewDataPages _)) (fun r t ht => ?_)
  split
  · exact Safe.pure rfl (SameFile.refl _)
  · refine Safe.bind (Safe.whenNeeded (safe_allocateNewDataPages _)) (fun r2 u hu => ?_)
    split
    · exact Safe.pure rfl (SameFile.refl _)
    · dsimp only
      cases hm : r2.2.inode.dataPages[pageIdx]? with
      | none => exact Safe.throw (by decide)
      | some m =>
        refine Safe.get (Safe.ready fun hr ho => ?_)
        split
        · exact Safe.pure rfl (SameFile.refl _)
        · have hps : u.header.pageSize = s.header.pageSize := by rw [hu.within.header, ht.within.header]
          have hpos : h.pos % s.header.pageSize < s.header.pageSize :=
            Nat.mod_lt _ (by rw [← hps]; exact hr.layout.pageSize_pos)
          refine Safe.bind (safe_rewritePage ?_ _) (fun r3 v hv => ?_)
          · have hlen : ∀ (c : Prop) [Decidable c], (if c then (readPage u m.pageId).page
                else List.replicate u.header.pageSize 0).length = u.header.pageSize := by
              intro c _
              split
              · exact (ho.readPage_length hr hm).1
              · exact List.length_replicate
            rw [overwrite_length, hlen]
            rw [hlen, List.length_take]
            omega
          · split
            · exact Safe.pure rfl (sameFile_advance _ _)
            · exact Safe.pure rfl (SameFile.refl _)

theorem safe_writeLoop [Config] (fuel : ℕ) (data : List UInt8) (done : ℕ) :
    Safe s h (writeLoop fuel h data done) (·.2) := by
  induction fuel generalizing s h done with
  | zero =>
    rw [writeLoop]
    split
    · exact Safe.throw (by decide)
    · exact Safe.pure rfl (SameFile.refl _)
  | succ fuel ih =>
    rw [writeLoop]
    split
    · refine Safe.get (Safe.bind (safe_allocateNewDataPages _) fun r t ht => ?_)
      split
      · exact Safe.pure rfl (SameFile.refl _)
      · dsimp only
        cases hm : r.2.inode.dataPages[h.pos / s.header.pageSize]? with
        | none => exact Safe.throw (by decide)
        | some m =>
          have hps : t.header.pageSize = s.header.pageSize := by rw [ht.within.header]
          dsimp only
          split
          · refine Safe.get (Safe.ready fun hr ho => ?_)
            split
            · exact Safe.pure rfl (SameFile.refl _)
            · refine Safe.bind (safe_rewritePage ?_ _) (fun r3 v hv => ?_)
              · have hlen : (if m.state = .stored then (readPage t m.pageId).page
                    else List.replicate s.header.pageSize 0).length = t.header.pageSize := by
                  split
                  · exact (ho.readPage_length hr hm).1
                  · rw [List.length_replicate, hps]
                rw [overwrite_length, hlen]
                rw [hlen, slice_length]
                omega
              · split
                · exact Safe.change (k := r3.2.advance _) rfl (sameFile_advance _ _) (ih _)
                · exact Safe.pure rfl (SameFile.refl _)
          · refine Safe.bind (safe_writePage ?_ _) (fun r3 v hv => ?_)
            · rw [slice_length, hps]
              omega
            · split
              · exact Safe.change (k := r3.2.advance _) rfl (sameFile_advance _ _) (ih _)
              · exact Safe.pure rfl (SameFile.refl _)
    · exact Safe.pure rfl (SameFile.refl _)

theorem safe_writePages [Config] (data : List UInt8) (pageIdx already : ℕ) :
    Safe s h (writePages h data pageIdx already) (·.2) := by
  have hfirst : Safe s h (writeFirst h data pageIdx) (·.2) := by
    refine Safe.get ?_
    split
    · exact safe_writeUnaligned _ _
    · exact Safe.pure rfl (SameFile.refl _)
  refine Safe.bind hfirst fun r t ht => ?_
  obtain ⟨r, h'⟩ := r
  cases r with
  | none => exact Safe.pure rfl (SameFile.refl _)
  | some n =>
    refine Safe.bind (safe_writeLoop _ _ _) fun r2 u hu => ?_
    obtain ⟨r2, h2⟩ := r2
    cases r2 with
    | none => exact Safe.pure rfl (SameFile.refl _)
    | some n2 => exact Safe.pure rfl ⟨rfl, rfl, rfl, rfl, rfl, rfl, rfl, rfl⟩

theorem resizeBytes_ne_powerLoss (data : List UInt8) (size : ℕ) :
    resizeBytes data size ≠ .error .powerLoss := by
  unfold resizeBytes
  split <;> simp

theorem Safe.growInodeData {α : Type} {f : List UInt8 → FsM α} {out : α → FileHandle} {space : ℕ}
    (hf : ∀ data, Safe s h (f data) out) : Safe s h (growInodeData h space >>= f) out := by
  rw [SimpleFlashFs.growInodeData]
  split
  · exact Safe.liftFault (resizeBytes_ne_powerLoss _ _) fun data _ => hf data
  · exact hf _

theorem safe_writeInline (data : List UInt8) (space : ℕ) : Safe s h (writeInline h data space) (·.2) :=
  Safe.growInodeData fun _ => Safe.pure rfl ⟨rfl, rfl, rfl, rfl, rfl, rfl, rfl, rfl⟩

theorem safe_migrateInline [Config] {again : FileHandle → List UInt8 → FsM (ℕ × FileHandle)}
    (hagain : ∀ (t : Fs) h' data, Safe t h' (again h' data) (·.2)) (data : List UInt8) (pageIdx : ℕ) :
    Safe s h (migrateInline again h data pageIdx) (·.2) := by
  refine Safe.get ?_
  dsimp only
  split
  · exact Safe.throw (by decide)
  · refine Safe.bind (o := (·.2)) ?_ fun r t ht => ?_
    · refine Safe.change ?_ ?_ (hagain _ _ _)
      · rfl
      · exact ⟨rfl, rfl, rfl, rfl, rfl, rfl, rfl, rfl⟩
    · split
      · exact Safe.pure rfl (SameFile.refl _)
      · split
        · exact Safe.pure rfl (SameFile.refl _)
        · exact safe_writePages _ _ _

theorem safe_writeWith [Config] {again : FileHandle → List UInt8 → FsM (ℕ × FileHandle)}
    (hagain : ∀ (t : Fs) h' data, Safe t h' (again h' data) (·.2)) (data : List UInt8) :
    Safe s h (writeWith again h data) (·.2) := by
  refine Safe.get ?_
  generalize getInodeDataSpaceSize s.header h = space
  dsimp only
  split
  · exact safe_writeInline _ _
  · split
    · exact safe_migrateInline hagain _ _
    · exact safe_writePages _ _ _

theorem safe_writeFs [Config] (data : List UInt8) : Safe s h (writeFs h data) (·.2) :=
  safe_writeWith (fun _ _ _ => safe_writeWith (fun _ _ _ => Safe.throw (by decide)) _) _

theorem safe_enlargeFile (amount : ℕ) : Safe s h (enlargeFile h amount) (·.2) := by
  have hstorage : ∀ target, Safe s h (enlargeStorage h target) (·.2) := by
    intro target
    refine Safe.get ?_
    generalize getInodeDataSpaceSize s.header h = space
    dsimp only
    split
    · exact Safe.growInodeData fun _ => Safe.pure rfl ⟨rfl, rfl, rfl, rfl, rfl, rfl, rfl, rfl⟩
    · exact safe_allocateNewDataPages _
  refine Safe.get ?_
  generalize getMaxFileSize s.header = maxSize
  dsimp only
  split
  · exact Safe.pure rfl (SameFile.refl _)
  · split
    · exact Safe.pure rfl (SameFile.refl _)
    · refine Safe.bind (hstorage _) fun r t ht => ?_
      split
      · exact Safe.pure rfl (SameFile.refl _)
      · exact Safe.pure rfl ⟨rfl, rfl, rfl, rfl, rfl, rfl, rfl, rfl⟩

theorem safe_seek (pos : ℕ) : Safe s h (seek h pos) (·.2) := by
  rw [seek]
  split
  · exact Safe.pure rfl ⟨rfl, rfl, rfl, rfl, rfl, rfl, rfl, rfl⟩
  · split
    · exact Safe.throw (by decide)
    · refine Safe.bind (safe_enlargeFile _) fun r t ht => ?_
      split
      · exact Safe.pure rfl ⟨rfl, rfl, rfl, rfl, rfl, rfl, rfl, rfl⟩
      · exact Safe.pure rfl (SameFile.refl _)

theorem safe_write [Config] (data : List UInt8) : Safe s h (write h data) (·.2) := by
  refine Safe.bind (Safe.whenNeeded (safe_seek _)) fun r t ht => ?_
  split
  · exact safe_writeFs _
  · exact Safe.throw (by decide)

-- pages may leave the handle when it shrinks
theorem safe_shrink {α : Type} {a : α} {out : α → FileHandle}
    (hsub : (out a).inode.dataPages.Sublist h.inode.dataPages) (hs : SameFile h (out a)) :
    Safe s h (pure a) out := by
  intro hr ho
  have hids : (out a).ids.Sublist h.ids := hsub.map _
  have hnew : (out a).newIds.Sublist h.newIds := (hsub.filter _).map _
  exact {
    within := Within.refl _ _
    rest := rfl
    freeWF := hr.freeWF
    free := fun _ hp => hp
    ids := fun _ hp => Or.inl (hids.mem hp)
    newIds := fun _ hp => Or.inr (hnew.mem hp)
    nodup := ho.nodup.sublist hids
    notFree := fun p hp => ho.notFree p (hids.mem hp)
    same := hs
    once := fun hu hw => ⟨⟨hu.1, fun p hp => hu.2 p (hnew.mem hp)⟩, hw⟩ }

theorem safe_truncate (newSize : ℕ) : Safe s h (truncate h newSize) (·.2) := by
  refine Safe.get ?_
  split
  · exact Safe.pure rfl (SameFile.refl _)
  · split
    · exact Safe.pure rfl (SameFile.refl _)
    · split
      · exact safe_enlargeFile _
      · refine safe_shrink ?_ ?_
        · dsimp only
          split
          · split <;> exact List.Sublist.refl _
          · split
            · exact List.take_sublist _ _
            · exact List.Sublist.refl _
        · dsimp only
          constructor <;> first | rfl | (dsimp only; split <;> split <;> rfl)

theorem safe_writeZeroPagesFrom (left idx : ℕ) : Safe s h (writeZeroPagesFrom left idx h) (·.2) := by
  induction left generalizing s h idx with
  | zero => exact Safe.pure rfl (SameFile.refl _)
  | succ left ih =>
    refine Safe.get ?_
    cases h.inode.dataPages[idx]? with
    | none => exact Safe.pure rfl (SameFile.refl _)
    | some m =>
      dsimp only
      split
      · refine Safe.bind (safe_writePage List.length_replicate _) fun r t ht => ?_
        split
        · exact ih _
        · exact Safe.pure rfl (SameFile.refl _)
      · exact ih _

theorem safe_writeZeroPages : Safe s h (writeZeroPages h) (·.2) := safe_writeZeroPagesFrom _ _

end Write

end SimpleFlashFs
