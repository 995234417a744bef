import SimpleFlashFs.DataPath

namespace SimpleFlashFs

open Lib

def DataPage.settled (m : DataPage) : DataPage := if m.state = .new then { m with state := .stored } else m

-- the handle once its new pages are programmed
def FileHandle.settled (h : FileHandle) : FileHandle := h.setPages (h.inode.dataPages.map DataPage.settled)

@[simp] theorem DataPage.settled_pageId (m : DataPage) : m.settled.pageId = m.pageId := by
  unfold DataPage.settled
  split <;> rfl

theorem DataPage.settled_state (m : DataPage) : m.settled.state ≠ .new := by
  unfold DataPage.settled
  split
  · simp
  · assumption

@[simp] theorem FileHandle.settled_ids (h : FileHandle) : h.settled.ids = h.ids := by
  simp [FileHandle.settled, FileHandle.ids, FileHandle.setPages, Function.comp_def]

@[simp] theorem FileHandle.settled_newIds (h : FileHandle) : h.settled.newIds = [] := by
  have hf : h.settled.inode.dataPages.filter (·.state = .new) = [] := by
    rw [List.filter_eq_nil_iff]
    intro m hm
    obtain ⟨m, -, rfl⟩ := List.mem_map.mp hm
    simpa using m.settled_state
  rw [FileHandle.newIds, hf]
  rfl

-- programming the new pages of a handle with zeros
structure ZeroPages (s : Fs) (h : FileHandle) (t : Fs) : Prop where
  rest : t = { s with mem := t.mem }
  zeros : ∀ p ∈ h.newIds, pageAt t p = List.replicate s.header.pageSize 0
  others : ∀ i, InRange s i → i ∉ h.newIds → pageAt t i = pageAt s i
  fresh : ∀ i, i ∉ h.newIds → (Fresh t i ↔ Fresh s i)

section Zero

variable {s : Fs} {h : FileHandle}

theorem wp_writePage_new {d : List UInt8} {idx : ℕ} {m : DataPage} (hr : Ready s) (ho : Owns s h)
    (hlen : d.length = s.header.pageSize) (hm : h.inode.dataPages[idx]? = some m)
    (hs : m.state = .new) :
    wp (writePage h d idx)
      (fun r t => r = (true, h.setPages (h.inode.dataPages.set idx { m with state := .stored })) ∧
        Programmed s t m.pageId (.write (writeAddress s.header m.pageId) d))
      (fun e t => e = .powerLoss → Torn s t m.pageId (.write (writeAddress s.header m.pageId) d)) s := by
  have hi := (ho.region m.pageId (List.mem_map_of_mem (List.mem_of_getElem? hm))).2
  simp only [writePage, wp_bind, wp_get, hm, hs, if_true]
  exact wp_perform (x := .write _ d) hr.layout.toGeometry hr.noShort hi (hr.layout.writeAddress_eq hi)
    hlen (fun t ht => ⟨rfl, ht⟩) (fun t ht _ => ht)

theorem settled_eq_self {h : FileHandle} (hs : ∀ m ∈ h.inode.dataPages, m.state ≠ .new) : h.settled = h := by
  have hmap : h.inode.dataPages.map DataPage.settled = h.inode.dataPages := by
    conv_rhs => rw [← List.map_id h.inode.dataPages]
    refine List.map_congr_left fun m hm => ?_
    rw [DataPage.settled, if_neg (hs m hm), id]
  rw [FileHandle.settled, hmap]
  rfl

theorem settled_set {h : FileHandle} {idx : ℕ} {m : DataPage} (hm : h.inode.dataPages[idx]? = some m)
    (hs : m.state = .new) :
    (h.setPages (h.inode.dataPages.set idx { m with state := .stored })).settled = h.settled := by
  obtain ⟨hi, rfl⟩ := List.getElem?_eq_some_iff.mp hm
  have hmap : (h.inode.dataPages.set idx { h.inode.dataPages[idx] with state := .stored }).map
      DataPage.settled = h.inode.dataPages.map DataPage.settled := by
    have hi' : idx < (h.inode.dataPages.map DataPage.settled).length := by simpa using hi
    have hd : DataPage.settled { h.inode.dataPages[idx] with state := .stored } =
        (h.inode.dataPages.map DataPage.settled)[idx] := by
      rw [List.getElem_map, DataPage.settled, DataPage.settled, if_pos hs]
      rfl
    rw [List.map_set, hd, List.set_getElem_self]
  simp only [FileHandle.settled, FileHandle.setPages, hmap]

theorem ZeroPages.step {t u : Fs} {idx : ℕ} {m : DataPage} {op : PhysOp} (ho : Owns s h)
    (hm : h.inode.dataPages[idx]? = some m) (hs : m.state = .new) (hp : Programmed s t m.pageId op)
    (hop : op.content = List.replicate s.header.pageSize 0)
    (hz : ZeroPages t (h.setPages (h.inode.dataPages.set idx { m with state := .stored })) u) :
    ZeroPages s h u := by
  obtain ⟨hset, hperm⟩ := perm_set (n := { m with state := .stored }) hm
  have hsub := newIds_stored (k := h.setPages (h.inode.dataPages.set idx { m with state := .stored }))
    ho.nodup hperm hset (by simp)
  have hsup : ∀ q ∈ h.newIds, q = m.pageId ∨
      q ∈ (h.setPages (h.inode.dataPages.set idx { m with state := .stored })).newIds := by
    intro q hq
    obtain ⟨x, hx, hxs, rfl⟩ := (FileHandle.mem_newIds_iff hperm).mp hq
    rcases List.mem_cons.mp hx with rfl | hx
    · exact Or.inl rfl
    · exact Or.inr ((FileHandle.mem_newIds_iff hset).mpr ⟨x, List.mem_cons_of_mem _ hx, hxs, rfl⟩)
  have hin : ∀ {i}, InRange s i → InRange t i := fun hi => by rw [InRange, hp.header]; exact hi
  constructor
  · rw [hz.rest, hp.rest]
  · intro q hq
    rcases hsup q hq with rfl | hq'
    · by_cases hmem : m.pageId ∈ (h.setPages (h.inode.dataPages.set idx { m with state := .stored })).newIds
      · exact absurd rfl (hsub _ hmem).2
      · have hi := (ho.region m.pageId (FileHandle.mem_ids_of_newIds hq)).2
        rw [hz.others _ (hin hi) hmem, hp.page, hop]
    · rw [hz.zeros q hq', hp.header]
  · intro i hi hn
    rw [hz.others i (hin hi) fun hm' => hn (hsub i hm').1, hp.others i ?_ hi]
    exact fun e => hn (e ▸ FileHandle.mem_newIds (List.mem_of_getElem? hm) hs)
  · intro i hn
    rw [hz.fresh i fun hm' => hn (hsub i hm').1, hp.fresh i]
    exact fun e => hn (e ▸ FileHandle.mem_newIds (List.mem_of_getElem? hm) hs)

theorem ZeroPages.refl (hs : ∀ m ∈ h.inode.dataPages, m.state ≠ .new) : ZeroPages s h s := by
  have hn : h.newIds = [] := by
    rw [FileHandle.newIds, List.filter_eq_nil_iff.mpr fun m hm => by simpa using hs m hm]
    rfl
  exact ⟨rfl, by simp [hn], fun _ _ _ => rfl, fun _ _ => Iff.rfl⟩

theorem wp_writeZeroPagesFrom (left idx : ℕ) (hr : Ready s) (ho : Owns s h)
    (hidx : idx + left = h.inode.dataPages.length)
    (hdone : ∀ (j : ℕ) (m : DataPage), j < idx → h.inode.dataPages[j]? = some m → m.state ≠ .new) :
    wp (writeZeroPagesFrom left idx h) (fun r t => r = (true, h.settled) ∧ ZeroPages s h t)
      (fun _ _ => True) s := by
  induction left generalizing s h idx with
  | zero =>
    have hall : ∀ m ∈ h.inode.dataPages, m.state ≠ .new := by
      intro m hm
      obtain ⟨j, hj, rfl⟩ := List.getElem_of_mem hm
      exact hdone j _ (by omega) (List.getElem?_eq_getElem hj)
    exact ⟨by rw [settled_eq_self hall], ZeroPages.refl hall⟩
  | succ left ih =>
    have hlt : idx < h.inode.dataPages.length := by omega
    have hm := List.getElem?_eq_getElem hlt
    simp only [writeZeroPagesFrom, wp_bind, wp_get, hm]
    rw [wp_ite]
    constructor
    · intro hs
      have hsafe := (safe_writePage (s := s) (h := h) (d := List.replicate s.header.pageSize 0)
        List.length_replicate idx).wp hr ho
      have hnew := wp_writePage_new (d := List.replicate s.header.pageSize 0) hr ho
        List.length_replicate hm hs
      rw [wp_bind]
      refine wp_mono (wp_and hsafe hnew) (fun r t ht => ?_) (fun _ _ _ => trivial)
      obtain ⟨he, rfl, hp⟩ := ht
      simp only [if_true]
      refine wp_mono (ih (idx + 1) (he.ready hr) (he.owns hr ho) ?_ ?_) (fun r u hu => ?_) (fun _ _ h => h)
      · simp only [FileHandle.setPages, List.length_set]
        omega
      · intro j m' hj hm'
        simp only [FileHandle.setPages, List.getElem?_set] at hm'
        split at hm'
        · obtain rfl := Option.some_inj.mp hm'
          simp
        · exact hdone j m' (by omega) hm'
      · obtain ⟨rfl, hz⟩ := hu
        rw [settled_set hm hs]
        exact ⟨rfl, ZeroPages.step ho hm hs hp rfl hz⟩
    · intro hs
      refine ih (idx + 1) hr ho (by omega) fun j m' hj hm' => ?_
      by_cases he : j = idx
      · rw [he, hm] at hm'
        obtain rfl := Option.some_inj.mp hm'
        exact hs
      · exact hdone j m' (by omega) hm'

theorem wp_writeZeroPages (hr : Ready s) (ho : Owns s h) :
    wp (writeZeroPages h)
      (fun r t => r = (true, h.settled) ∧ ZeroPages s h t ∧ DataEffect s h t h.settled)
      (fun e t => e = .powerLoss → Lost s h t) s := by
  refine wp_mono (wp_and (safe_writeZeroPages.wp hr ho)
    (wp_writeZeroPagesFrom _ 0 hr ho (by omega) (by omega))) (fun r t ht => ?_) (fun _ _ h => h.1)
  obtain ⟨he, rfl, hz⟩ := ht
  exact ⟨rfl, hz, he⟩

end Zero

section Erase

variable {s : Fs}

-- the pages of l erased, and given back
structure Erased (s t : Fs) (l : List ℕ) : Prop where
  within : Within s t (· ∈ l)
  rest : t = { s with
    mem := t.mem
    freeDataPages := t.freeDataPages
    allocatedUnwrittenPages := t.allocatedUnwrittenPages }
  erased : ∀ p ∈ l, pageAt t p = List.replicate s.header.pageSize 0xFF
  freeWF : t.freeDataPages.WF
  allocatedWF : t.allocatedUnwrittenPages.WF
  free : ∀ q, q ∈ t.freeDataPages ↔ q ∈ s.freeDataPages ∨ q ∈ l ∧ q > s.header.maxInodes
  allocated : ∀ q, q ∈ t.allocatedUnwrittenPages ↔
    q ∈ s.allocatedUnwrittenPages ∧ ¬ (q ∈ l ∧ q ≤ s.header.maxInodes)
  once : writeOnce s.mem.trace → writeOnce t.mem.trace

theorem Erased.refl (hr : Ready s) : Erased s s [] where
  within := Within.refl _ _
  rest := rfl
  erased := by simp
  freeWF := hr.freeWF
  allocatedWF := hr.allocatedWF
  free := by simp
  allocated := by simp
  once h := h

theorem Erased.ready {t : Fs} {l : List ℕ} (e : Erased s t l) (hr : Ready s)
    (hl : ∀ p ∈ l, InRange s p) : Ready t where
  layout := e.within.layout hr.layout
  noShort := e.within.noShort hr.noShort
  freeWF := e.freeWF
  allocatedWF := e.allocatedWF
  range := by rw [e.rest]; exact hr.range
  free p hp := by
    rw [e.within.dataRegion]
    rcases (e.free p).mp hp with hp | ⟨hp, hgt⟩
    · exact hr.free p hp
    · exact ⟨by omega, hl p hp⟩

theorem Erased.cons {t u : Fs} {p : ℕ} {l : List ℕ} (a : Erased s t [p]) (b : Erased t u l)
    (hn : p ∉ l) (hi : InRange s p) : Erased s u (p :: l) where
  within := (a.within.mono fun _ h => by simp [List.mem_singleton.mp h]).trans
    (b.within.mono fun _ h => List.mem_cons_of_mem _ h)
  rest := by rw [b.rest, a.rest]
  erased q hq := by
    rcases List.mem_cons.mp hq with rfl | hq
    · rw [b.within.pages q (a.within.inRange.mpr hi) hn, a.erased q (by simp)]
    · rw [b.erased q hq, a.within.header]
  freeWF := b.freeWF
  allocatedWF := b.allocatedWF
  free q := by
    rw [b.free, a.free, a.within.header, List.mem_singleton, List.mem_cons]
    tauto
  allocated q := by
    rw [b.allocated, a.allocated, a.within.header, List.mem_singleton, List.mem_cons]
    tauto
  once hw := b.once (a.once hw)

theorem wp_eraseDataPage {p : ℕ} (hr : Ready s) (hi : InRange s p) :
    wp (eraseDataPage p) (fun _ t => Erased s t [p])
      (fun e t => e = .powerLoss →
        Torn s t p (.erase (writeAddress s.header p) s.header.pageSize)) s := by
  have hnd := hr.layout.lt_noData hi
  simp only [eraseDataPage, wp_bind, wp_get]
  refine wp_perform (x := .erase _ _) hr.layout.toGeometry hr.noShort hi (hr.layout.writeAddress_eq hi)
    (by simp [PhysOp.content]) (fun t ht => ?_) (fun t ht _ => ht)
  have hh : t.header = s.header := ht.header
  have hpage : pageAt t p = List.replicate s.header.pageSize 0xFF := ht.page
  have hfree : t.freeDataPages = s.freeDataPages := by rw [ht.rest]
  have halloc : t.allocatedUnwrittenPages = s.allocatedUnwrittenPages := by rw [ht.rest]
  have hw := Touched.within ht.toTouched (m := (· ∈ [p])) (List.mem_singleton_self p)
  have honce := ht.once (fun _ _ h => by cases h)
  have hmem : ∀ {f a}, Within s { t with freeDataPages := f, allocatedUnwrittenPages := a } (· ∈ [p]) :=
    fun {f a} => hw.trans (.of_mem rfl rfl rfl)
  rw [wp_ite]
  constructor
  · intro hgt
    rw [wp_modify]
    refine ⟨hmem, ?_, ?_, ?_, ?_, fun q => ?_, fun q => ?_, honce⟩
    · rw [ht.rest]
    · intro q hq
      rw [List.mem_singleton.mp hq]
      exact hpage
    · rw [hfree]
      exact PageSet.insert_wf hr.freeWF hnd
    · rw [halloc]
      exact hr.allocatedWF
    · simp only [hfree, PageSet.mem_insert hr.freeWF hnd, List.mem_singleton]
      exact or_congr Iff.rfl ⟨fun h => ⟨h, h ▸ hgt⟩, And.left⟩
    · simp only [halloc, List.mem_singleton]
      exact ⟨fun h => ⟨h, fun h' => absurd h'.2 (by rw [h'.1]; omega)⟩, And.left⟩
  · intro hle
    rw [freeUnwrittenPages, wp_modify]
    refine ⟨hmem, ?_, ?_, ?_, ?_, fun q => ?_, fun q => ?_, honce⟩
    · rw [ht.rest]
    · intro q hq
      rw [List.mem_singleton.mp hq]
      exact hpage
    · rw [hfree]
      exact hr.freeWF
    · rw [halloc]
      exact PageSet.erase_wf hr.allocatedWF hnd
    · simp only [hfree, List.mem_singleton]
      exact ⟨Or.inl, fun h => h.elim id fun h => absurd h.2 (by rw [h.1]; exact hle)⟩
    · simp only [halloc, PageSet.mem_erase hr.allocatedWF hnd, List.mem_singleton]
      exact and_congr_right fun _ => not_congr ⟨fun h => ⟨h, by omega⟩, And.left⟩

-- the power was lost while a page of l was erased
def ErasedTorn (s t : Fs) (l : List ℕ) : Prop :=
  ∃ done p rest u, l = done ++ p :: rest ∧ Erased s u done ∧
    Torn u t p (.erase (writeAddress u.header p) u.header.pageSize)

theorem wp_eraseDataPages (l : List ℕ) (hr : Ready s) (hl : ∀ p ∈ l, InRange s p) (hn : l.Nodup) :
    wp (each eraseDataPage l) (fun _ t => Erased s t l) (fun e t => e = .powerLoss → ErasedTorn s t l) s := by
  induction l generalizing s with
  | nil => exact Erased.refl hr
  | cons p l ih =>
    have hi := hl p (by simp)
    obtain ⟨hp, hn⟩ := List.nodup_cons.mp hn
    rw [each, wp_bind]
    refine wp_mono (wp_eraseDataPage hr hi) (fun _ t ht => ?_) (fun e t ht he => ?_)
    · have hl' : ∀ q ∈ l, InRange t q := fun q hq => ht.within.inRange.mpr (hl q (by simp [hq]))
      refine wp_mono (ih (ht.ready hr (by simpa using hi)) hl' hn) (fun _ u hu => ht.cons hu hp hi)
        (fun e u hu he => ?_)
      obtain ⟨done, q, rest, v, rfl, hv, hq⟩ := hu he
      exact ⟨p :: done, q, rest, v, rfl, ht.cons hv (fun h => hp (by simp [h])) hi, hq⟩
    · exact ⟨[], p, l, s, rfl, Erased.refl hr, ht he⟩

end Erase

section PagesToErase

theorem foldl_unorderedInsert {l : List DataPage} {t : PageSet} (ht : t.WF)
    (hl : ∀ m ∈ l, m.pageId < noData) (hn : (l.map DataPage.pageId).Nodup)
    (hd : ∀ m ∈ l, m.pageId ∉ t) :
    (l.foldl (fun s p => s.unorderedInsert p.pageId) t).WF ∧
      ∀ q, q ∈ l.foldl (fun s p => s.unorderedInsert p.pageId) t ↔ q ∈ t ∨ q ∈ l.map DataPage.pageId := by
  induction l generalizing t with
  | nil => simpa using ht
  | cons m l ih =>
    have hm := hl m (by simp)
    rw [List.map_cons, List.nodup_cons] at hn
    have hmem : ∀ q, q ∈ t.unorderedInsert m.pageId ↔ q ∈ t ∨ q = m.pageId :=
      fun q => PageSet.mem_unorderedInsert hm
    obtain ⟨h1, h2⟩ := ih (t := t.unorderedInsert m.pageId)
      (PageSet.unorderedInsert_wf ht hm (hd m (by simp)))
      (fun x hx => hl x (by simp [hx])) hn.2 (fun x hx hxt => by
        rcases (hmem _).mp hxt with hxt | hxt
        · exact hd x (by simp [hx]) hxt
        · exact hn.1 (hxt ▸ List.mem_map_of_mem hx))
    refine ⟨h1, fun q => ?_⟩
    rw [List.foldl_cons, h2, hmem, List.map_cons, List.mem_cons, or_assoc]

theorem foldl_erase {l : List DataPage} {t : PageSet} (ht : t.WF) (hl : ∀ m ∈ l, m.pageId < noData) :
    (l.foldl (fun s p => (s.erase p.pageId).1) t).WF ∧
      ∀ q, q ∈ l.foldl (fun s p => (s.erase p.pageId).1) t ↔ q ∈ t ∧ q ∉ l.map DataPage.pageId := by
  induction l generalizing t with
  | nil => simpa using ht
  | cons m l ih =>
    have hm := hl m (by simp)
    obtain ⟨h1, h2⟩ := ih (t := (t.erase m.pageId).1) (PageSet.erase_wf ht hm)
      (fun x hx => hl x (by simp [hx]))
    refine ⟨h1, fun q => ?_⟩
    rw [List.foldl_cons, h2, PageSet.mem_erase ht hm, List.map_cons, List.mem_cons, not_or, and_assoc]

structure ErasePlan (old next : FileHandle) (l : List ℕ) : Prop where
  sorted : l.Pairwise (· < ·)
  mem_iff : ∀ q, q ∈ l ↔ q = old.page ∨ q ∈ old.ids ∧ q ∉ next.ids

theorem pagesToErase_plan {old next : FileHandle} (ho : ∀ p ∈ old.ids, p < noData) (hn : old.ids.Nodup)
    (hnext : ∀ p ∈ next.ids, p < noData) (hp : old.page < noData) :
    ErasePlan old next (pagesToErase old next) := by
  obtain ⟨w1, m1⟩ := foldl_unorderedInsert (l := old.inode.dataPages) PageSet.wf_empty
    (fun m hm => ho m.pageId (List.mem_map_of_mem hm)) hn (fun _ _ => PageSet.not_mem_empty _)
  obtain ⟨w2, m2⟩ := foldl_erase (l := next.inode.dataPages) w1
    (fun m hm => hnext m.pageId (List.mem_map_of_mem hm))
  have w3 := PageSet.insert_wf w2 hp
  refine ⟨PageSet.sortIfDirty_sorted w3, fun q => ?_⟩
  rw [pagesToErase, PageSet.getData, PageSet.mem_sortIfDirty_data w3, PageSet.mem_insert w2 hp, m2, m1]
  simp only [PageSet.not_mem_empty, false_or, FileHandle.ids]
  exact or_comm

theorem ErasePlan.nodup {old next : FileHandle} {l : List ℕ} (h : ErasePlan old next l) : l.Nodup :=
  h.sorted.imp fun h => h.ne

end PagesToErase

section Encode

theorem inode2page_settled (hd : Header) (h : FileHandle) :
    inode2page hd h.settled.inode = inode2page hd h.inode := by
  have hpages : ∀ (l : List DataPage) (page : List UInt8),
      emitPages hd (l.map DataPage.settled) page = emitPages hd l page := by
    intro l
    induction l with
    | nil => exact fun _ => rfl
    | cons m l ih =>
      intro page
      simp only [List.map_cons, emitPages, DataPage.settled_pageId, ih]
  simp only [inode2page, FileHandle.settled, FileHandle.setPages, hpages, List.length_map, copyName,
    copyInodeData]
  rfl

theorem inode2page_ne_powerLoss (hd : Header) (inode : Inode) :
    inode2page hd inode ≠ .error .powerLoss := by
  have hbind : ∀ {α β : Type} {x : Except Fault α} {f : α → Except Fault β}, x ≠ .error .powerLoss →
      (∀ a, f a ≠ .error .powerLoss) → (x >>= f) ≠ .error .powerLoss := by
    intro α β x f hx hf
    cases x with
    | ok a => exact hf a
    | error e => exact fun h => hx (by rw [Except.error.inj h])
  have hemit : ∀ page field, emit hd page field ≠ .error .powerLoss := by
    intro page field
    unfold emit
    split <;> simp
  have hcopy : ∀ page data, copyBytes hd page data ≠ .error .powerLoss := by
    intro page data
    unfold copyBytes
    split <;> simp
  have hpages : ∀ l page, emitPages hd l page ≠ .error .powerLoss := by
    intro l
    induction l with
    | nil => intro page; simp [emitPages]
    | cons p l ih => exact fun page => hbind (hemit _ _) ih
  have hname : ∀ page, copyName hd page inode ≠ .error .powerLoss := by
    intro page
    unfold copyName
    split
    · simp
    · exact hcopy _ _
  have hdata : ∀ page, copyInodeData hd page inode ≠ .error .powerLoss := by
    intro page
    unfold copyInodeData
    split
    · exact hcopy _ _
    · simp
  refine hbind (hemit _ _) fun _ => hbind (hemit _ _) fun _ => hbind (hemit _ _) fun _ =>
    hbind (hname _) fun _ => hbind (hemit _ _) fun _ => hbind (hemit _ _) fun _ =>
    hbind (hemit _ _) fun _ => hbind (hpages _ _) fun _ => hbind (hdata _) fun _ => by simp

theorem wp_liftFault {α : Type} {x : Except Fault α} {Q : α → Fs → Prop} {R : Fault → Fs → Prop} {s : Fs}
    (hQ : ∀ a, x = .ok a → Q a s) (hR : ∀ e, x = .error e → R e s) : wp (liftFault x) Q R s := by
  cases x with
  | ok a => exact hQ a rfl
  | error e => exact hR e rfl

end Encode

section Commit

variable [Config]

def inodeImage (hd : Header) (img : List UInt8) : List UInt8 := addPageChecksum hd.endianness img

-- page i holds the record of inode
def Stores (s : Fs) (i : ℕ) (inode : Inode) : Prop :=
  ∃ img, Encodes s.header inode img ∧ pageAt s i = inodeImage s.header img

-- the data pages of h, then its record at h.page
def Committed (s : Fs) (h : FileHandle) (t : Fs) : Prop :=
  ∃ u img, Encodes s.header h.inode img ∧ ZeroPages s h u ∧ DataEffect s h u h.settled ∧
    Programmed u t h.page (.write (writeAddress u.header h.page) (inodeImage u.header img))

def CommitTorn (s : Fs) (h : FileHandle) (t : Fs) : Prop :=
  Lost s h t ∨ ∃ u img, Encodes s.header h.inode img ∧ ZeroPages s h u ∧ DataEffect s h u h.settled ∧
    Torn u t h.page (.write (writeAddress u.header h.page) (inodeImage u.header img))

def FileHandle.clean (h : FileHandle) : FileHandle := { h.settled with modified := false }

inductive Flushed (s : Fs) (h : FileHandle) : Fs → Bool × FileHandle → Prop
  | unmodified (hm : h.modified = false) : Flushed s h s (true, h)
  | first (hm : h.modified = true) (hn : h.inode.inodeNumber = 0) (t : Fs)
      (hc : Committed { s with maxInodeNumber := (s.maxInodeNumber + 1) % 2 ^ 64 }
        (h.numbered ((s.maxInodeNumber + 1) % 2 ^ 64)) t) :
      Flushed s h t (true, (h.numbered ((s.maxInodeNumber + 1) % 2 ^ 64)).clean)
  | full (hm : h.modified = true) (hn : h.inode.inodeNumber ≠ 0) (t : Fs) (ht : TakesInode s t none) :
      Flushed s h t (false, h)
  | next (hm : h.modified = true) (hn : h.inode.inodeNumber ≠ 0) (p : ℕ) (u v t : Fs)
      (hu : TakesInode s u (some p)) (hc : Committed u (h.nextVersion p) v)
      (he : if s.variant = .noDel then t = v else
        ∃ l, ErasePlan h (h.nextVersion p) l ∧ Erased v t l) :
      Flushed s h t (true, (h.nextVersion p).clean)

inductive FlushLost (s : Fs) (h : FileHandle) : Fs → Prop
  | first (hm : h.modified = true) (hn : h.inode.inodeNumber = 0) (t : Fs)
      (hc : CommitTorn { s with maxInodeNumber := (s.maxInodeNumber + 1) % 2 ^ 64 }
        (h.numbered ((s.maxInodeNumber + 1) % 2 ^ 64)) t) : FlushLost s h t
  | next (hm : h.modified = true) (hn : h.inode.inodeNumber ≠ 0) (p : ℕ) (u t : Fs)
      (hu : TakesInode s u (some p)) (hc : CommitTorn u (h.nextVersion p) t) : FlushLost s h t
  | erasing (hm : h.modified = true) (hn : h.inode.inodeNumber ≠ 0) (hv : s.variant ≠ .noDel) (p : ℕ)
      (u v t : Fs) (l : List ℕ) (hu : TakesInode s u (some p)) (hc : Committed u (h.nextVersion p) v)
      (hl : ErasePlan h (h.nextVersion p) l) (he : ErasedTorn v t l) : FlushLost s h t

variable {s : Fs} {h : FileHandle}

theorem wp_writeMetaPage {img : List UInt8} {inode : Inode} {i : ℕ} (hr : Ready s)
    (hp : i < s.header.maxInodes) (hi : Encodes s.header inode img) :
    wp (writeMetaPage (inodeImage s.header img) i)
      (fun r t => r = true ∧
        Programmed s t i (.write (writeAddress s.header i) (inodeImage s.header img)))
      (fun e t => e = .powerLoss →
        Torn s t i (.write (writeAddress s.header i) (inodeImage s.header img))) s := by
  have hir := hr.layout.lt_inRange hp
  simp only [writeMetaPage, wp_bind, wp_get]
  exact wp_perform (x := .write _ _) hr.layout.toGeometry hr.noShort hir (hr.layout.writeAddress_eq hir)
    hi.addPageChecksum_length (fun t ht => ⟨rfl, ht⟩) (fun t ht _ => ht)

theorem wp_flushNew (hr : Ready s) (ho : Owns s h) (hp : h.page < s.header.maxInodes)
    (hm : h.modified = true) (hn : h.inode.inodeNumber = 0) :
    wp (flushNew h) (fun r t => Flushed s h t r) (fun e t => e = .powerLoss → FlushLost s h t) s := by
  simp only [flushNew, wp_bind, wp_get, wp_set]
  generalize hnum : (s.maxInodeNumber + 1) % 2 ^ 64 = number
  have hr' : Ready { s with maxInodeNumber := number } :=
    ⟨hr.layout.of_eq rfl rfl, hr.noShort, hr.freeWF, hr.allocatedWF, hr.range, hr.free⟩
  have ho' : Owns { s with maxInodeNumber := number } (h.numbered number) := ⟨ho.nodup, ho.region, ho.notFree⟩
  refine wp_mono (wp_writeZeroPages hr' ho') (fun r u hu => ?_) (fun e t ht he => ?_)
  · obtain ⟨rfl, hz, he⟩ := hu
    have hh : u.header = s.header := he.within.header
    rw [inode2page_settled]
    refine wp_liftFault (fun img himg => ?_) (fun e himg hl => ?_)
    · have hi := inode2page_eq_ok himg
      have hmeta := wp_writeMetaPage (s := u) (i := h.page) (he.ready hr') (by rw [hh]; exact hp)
        (by rw [hh]; exact hi)
      rw [inodeImage, hh] at hmeta
      refine wp_mono hmeta (fun r t ht => ?_) (fun e t ht hl => ?_)
      · obtain ⟨rfl, ht⟩ := ht
        subst hnum
        refine Flushed.first hm hn t ⟨u, img, hi, hz, he, ?_⟩
        rw [inodeImage, hh]
        exact ht
      · subst hnum
        refine FlushLost.first hm hn t (Or.inr ⟨u, img, hi, hz, he, ?_⟩)
        rw [inodeImage, hh]
        exact ht hl
    · exact absurd (by rw [himg, hl]) (inode2page_ne_powerLoss s.header (h.numbered number).inode)
  · subst hnum
    exact FlushLost.first hm hn t (Or.inl (ht he))

theorem TakesInode.ready {t : Fs} {r : Option ℕ} (ht : TakesInode s t r) (hr : Ready s) : Ready t := by
  have hh : t.header = s.header := by rw [ht.rest]
  refine ⟨hr.layout.of_eq hh (by rw [ht.rest]), ?_, ?_, ht.wf, ?_, ?_⟩
  · rw [ht.rest]
    exact hr.noShort
  · rw [ht.rest]
    exact hr.freeWF
  · rw [hh]
    exact ht.range
  · intro p hp
    rw [DataRegion, InRange, hh]
    rw [ht.rest] at hp
    exact hr.free p hp

omit [Config] in
theorem nextVersion_ids (h : FileHandle) (p : ℕ) : (h.nextVersion p).ids.Sublist h.ids :=
  List.filter_sublist.map _

theorem TakesInode.owns {t : Fs} {p : ℕ} {r : Option ℕ} (ht : TakesInode s t r) (ho : Owns s h) :
    Owns t (h.nextVersion p) where
  nodup := ho.nodup.sublist (nextVersion_ids h p)
  region q hq := by
    have hh : t.header = s.header := by rw [ht.rest]
    rw [DataRegion, InRange, hh]
    exact ho.region q ((nextVersion_ids h p).mem hq)
  notFree q hq := by
    rw [ht.rest]
    exact ho.notFree q ((nextVersion_ids h p).mem hq)

omit [Config] in
theorem Programmed.ready {t : Fs} {i : ℕ} {op : PhysOp} (ht : Programmed s t i op) (hr : Ready s) :
    Ready t := by
  have hh : t.header = s.header := ht.header
  refine ⟨hr.layout.of_eq hh ht.length, ht.noShort hr.noShort, ?_, ?_, ?_, ?_⟩
  · rw [ht.rest]
    exact hr.freeWF
  · rw [ht.rest]
    exact hr.allocatedWF
  · rw [ht.rest]
    exact hr.range
  · intro p hp
    rw [DataRegion, InRange, hh]
    rw [ht.rest] at hp
    exact hr.free p hp

-- the result of eraseInodeAndUnusedPages, which a filesystem without deletion overrides with nothing
def Cleared (s : Fs) (old next r : FileHandle) (t : Fs) : Prop :=
  if s.variant = .noDel then r = old ∧ t = s
  else r = { old with modified := false } ∧ ∃ l, ErasePlan old next l ∧ Erased s t l

omit [Config] in
theorem wp_eraseInodeAndUnusedPages {a b : FileHandle} (hr : Ready s) (hn : a.ids.Nodup)
    (ho : ∀ p ∈ a.ids, InRange s p) (hnext : ∀ p ∈ b.ids, InRange s p)
    (hp : a.page < s.header.maxInodes) :
    wp (eraseInodeAndUnusedPages a b) (fun r t => Cleared s a b r t)
      (fun e t => e = .powerLoss → s.variant ≠ .noDel ∧ ∃ l, ErasePlan a b l ∧ ErasedTorn s t l) s := by
  have hplan := pagesToErase_plan (fun p h => hr.layout.lt_noData (ho p h)) hn
    (fun p h => hr.layout.lt_noData (hnext p h)) (hr.inode_lt_noData hp)
  have hrange : ∀ p ∈ pagesToErase a b, InRange s p := by
    intro p h
    rcases (hplan.mem_iff p).mp h with rfl | h
    · exact hr.layout.lt_inRange hp
    · exact ho p h.1
  have hbase : s.variant ≠ .noDel → wp (eraseInodeAndUnusedPagesBase a b)
      (fun r t => Cleared s a b r t)
      (fun e t => e = .powerLoss → s.variant ≠ .noDel ∧ ∃ l, ErasePlan a b l ∧ ErasedTorn s t l) s := by
    intro hv
    simp only [eraseInodeAndUnusedPagesBase, wp_bind, wp_pure, Cleared, if_neg hv]
    exact wp_mono (wp_eraseDataPages _ hr hrange hplan.nodup) (fun _ t ht => ⟨trivial, _, hplan, ht⟩)
      (fun e t ht he => ⟨hv, _, hplan, ht he⟩)
  simp only [eraseInodeAndUnusedPages, wp_bind, wp_get]
  cases hv : s.variant with
  | noDel =>
    simp only [wp_pure, Cleared, hv, if_true]
    exact ⟨trivial, trivial⟩
  | dynamic => rw [hv] at hbase; exact hbase (by simp)
  | fram => rw [hv] at hbase; exact hbase (by simp)

theorem wp_flushNextVersion (hr : Ready s) (ho : Owns s h) (hp : h.page < s.header.maxInodes)
    (hm : h.modified = true) (hn : h.inode.inodeNumber ≠ 0) :
    wp (flushNextVersion h) (fun r t => Flushed s h t r) (fun e t => e = .powerLoss → FlushLost s h t) s := by
  simp only [flushNextVersion, wp_bind]
  refine wp_mono (wp_allocateFreeInodePageNumber hr.claimReady (fun _ he => by cases he)) (fun r u hu => ?_)
    (fun _ _ h => h)
  cases r with
  | none => exact Flushed.full hm hn u hu
  | some p =>
    have hru := hu.ready hr
    have hou := hu.owns (p := p) ho
    have hh : u.header = s.header := by rw [hu.rest]
    have hv : u.variant = s.variant := by rw [hu.rest]
    have hpm : p < u.header.maxInodes := by rw [hh]; exact (hu.claimable p rfl).1
    simp only [wp_bind, wp_get]
    refine wp_liftFault (fun img himg => ?_) (fun e himg hl => ?_)
    swap
    · exact absurd (by rw [himg, hl]) (inode2page_ne_powerLoss u.header (h.nextVersion p).inode)
    have hi := inode2page_eq_ok himg
    refine wp_mono (wp_writeZeroPages hru hou) (fun r v hz => ?_) (fun e t ht he => ?_)
    swap
    · exact FlushLost.next hm hn p u t hu (Or.inl (ht he))
    obtain ⟨rfl, hz, he⟩ := hz
    have hvu : v.header = u.header := he.within.header
    have hmeta := wp_writeMetaPage (s := v) (i := p) (he.ready hru) (by rw [hvu]; exact hpm)
      (by rw [hvu]; exact hi)
    rw [inodeImage, hvu] at hmeta
    refine wp_mono hmeta (fun r w hw => ?_) (fun e w hw hl => ?_)
    swap
    · refine FlushLost.next hm hn p u w hu (Or.inr ⟨v, img, hi, hz, he, ?_⟩)
      rw [inodeImage, hvu]
      exact hw hl
    obtain ⟨rfl, hw⟩ := hw
    have hc : Committed u (h.nextVersion p) w := ⟨v, img, hi, hz, he, by
      rw [inodeImage, hvu]
      exact hw⟩
    have hws : w.header = s.header := by rw [hw.header, hvu, hh]
    have hwv : w.variant = s.variant := by rw [hw.rest, ← hv]; exact he.within.variant
    have hin : ∀ q ∈ h.ids, InRange w q := by
      intro q hq
      rw [InRange, hws]
      exact (ho.region q hq).2
    have hids : (h.nextVersion p).clean.ids = (h.nextVersion p).ids := FileHandle.settled_ids _
    have herase := wp_eraseInodeAndUnusedPages (s := w) (a := { h with connected := false })
      (b := (h.nextVersion p).clean) (hw.ready (he.ready hru)) ho.nodup hin
      (fun q hq => hin q ((nextVersion_ids h p).mem (hids ▸ hq))) (by rw [hws]; exact hp)
    have hplan : ∀ l, ErasePlan { h with connected := false } (h.nextVersion p).clean l →
        ErasePlan h (h.nextVersion p) l := fun l hl => ⟨hl.sorted, fun q => by rw [hl.mem_iff, hids]; rfl⟩
    simp only [if_true, wp_bind, wp_pure]
    refine wp_mono herase (fun r t ht => ?_) (fun e t ht hl => ?_)
    · refine Flushed.next hm hn p u w t hu hc ?_
      rw [← hwv]
      unfold Cleared at ht
      split at ht
      · next hnd => rw [if_pos hnd]; exact ht.2
      · next hnd =>
        rw [if_neg hnd]
        obtain ⟨-, l, hl, hlt⟩ := ht
        exact ⟨l, hplan l hl, hlt⟩
    · obtain ⟨hnd, l, hl', hlt⟩ := ht hl
      exact FlushLost.erasing hm hn (by rw [← hwv]; exact hnd) p u w t l hu hc (hplan l hl') hlt

theorem wp_flush (hr : Ready s) (ho : Owns s h) (hp : h.page < s.header.maxInodes) :
    wp (flush h) (fun r t => Flushed s h t r) (fun e t => e = .powerLoss → FlushLost s h t) s := by
  rw [flush]
  split
  · exact fun he => nomatch he
  · split
    · next hm => exact Flushed.unmodified (by simpa using hm)
    · next hm =>
      have hm : h.modified = true := by simpa using hm
      split
      · next hn => exact wp_flushNew hr ho hp hm hn
      · next hn => exact wp_flushNextVersion hr ho hp hm hn

-- reservations of l dropped
structure Released (s t : Fs) (l : List ℕ) : Prop where
  rest : t = { s with allocatedUnwrittenPages := t.allocatedUnwrittenPages }
  wf : t.allocatedUnwrittenPages.WF
  mem_iff : ∀ q, q ∈ t.allocatedUnwrittenPages ↔ q ∈ s.allocatedUnwrittenPages ∧ q ∉ l

omit [Config] in
theorem wp_freeUnwrittenPages {R : Fault → Fs → Prop} (l : List ℕ) (hs : s.allocatedUnwrittenPages.WF)
    (hl : ∀ p ∈ l, p < noData) : wp (each freeUnwrittenPages l) (fun _ t => Released s t l) R s := by
  induction l generalizing s with
  | nil => exact ⟨rfl, hs, by simp⟩
  | cons p l ih =>
    have hp := hl p (by simp)
    simp only [each, freeUnwrittenPages, wp_bind, wp_modify]
    refine wp_mono (ih (PageSet.erase_wf hs hp) fun q hq => hl q (by simp [hq])) (fun _ t ht => ?_)
      (fun _ _ h => h)
    refine ⟨ht.rest, ht.wf, fun q => ?_⟩
    rw [ht.mem_iff, PageSet.mem_erase hs hp, List.mem_cons, not_or, and_assoc]

omit [Config] in
theorem Released.ready {t : Fs} {l : List ℕ} (ht : Released s t l) (hr : Ready s) : Ready t := by
  rw [ht.rest]
  exact ⟨hr.layout.of_eq rfl rfl, hr.noShort, hr.freeWF, ht.wf, hr.range, hr.free⟩

theorem Committed.ready {t : Fs} (hc : Committed s h t) (hr : Ready s) : Ready t := by
  obtain ⟨u, img, -, -, he, ht⟩ := hc
  exact ht.ready (he.ready hr)

theorem Committed.header {t : Fs} (hc : Committed s h t) : t.header = s.header := by
  obtain ⟨u, img, -, -, he, ht⟩ := hc
  rw [ht.header, he.within.header]

omit [Config] in
theorem ready_maxInodeNumber (hr : Ready s) (n : ℕ) : Ready { s with maxInodeNumber := n } :=
  ⟨hr.layout.of_eq rfl rfl, hr.noShort, hr.freeWF, hr.allocatedWF, hr.range, hr.free⟩

theorem Flushed.header {t : Fs} {r : Bool × FileHandle} (hf : Flushed s h t r) : t.header = s.header := by
  cases hf with
  | unmodified => rfl
  | first hm hn t hc => exact hc.header
  | full hm hn t ht => rw [ht.rest]
  | next hm hn p u v t hu hc he =>
    have hv : v.header = s.header := by rw [hc.header, hu.rest]
    split at he
    · rw [he, hv]
    · obtain ⟨l, -, hl⟩ := he
      rw [hl.within.header, hv]

theorem Flushed.ready {t : Fs} {r : Bool × FileHandle} (hf : Flushed s h t r) (hr : Ready s) (ho : Owns s h)
    (hp : h.page < s.header.maxInodes) : Ready t := by
  cases hf with
  | unmodified => exact hr
  | first hm hn t hc => exact hc.ready (ready_maxInodeNumber hr _)
  | full hm hn t ht => exact ht.ready hr
  | next hm hn p u v t hu hc he =>
    have hv : v.header = s.header := by rw [hc.header, hu.rest]
    have hrv := hc.ready (hu.ready hr)
    split at he
    · rw [he]
      exact hrv
    · obtain ⟨l, hl, hlt⟩ := he
      refine hlt.ready hrv fun q hq => ?_
      rw [InRange, hv]
      rcases (hl.mem_iff q).mp hq with rfl | hq
      · exact hr.layout.lt_inRange hp
      · exact (ho.region q hq.1).2

-- every flush leaves a handle with fewer pages at an inode page
theorem Flushed.handle {t : Fs} {r : Bool × FileHandle} (hf : Flushed s h t r)
    (hp : h.page < s.header.maxInodes) :
    r.2.page < s.header.maxInodes ∧ r.2.ids.Sublist h.ids ∧ r.2.inode.fileName = h.inode.fileName ∧
      r.2.inode.fileNameLen = h.inode.fileNameLen := by
  cases hf with
  | unmodified => exact ⟨hp, List.Sublist.refl _, rfl, rfl⟩
  | first hm hn t hc =>
    refine ⟨hp, ?_, rfl, rfl⟩
    rw [show ((h.numbered ((s.maxInodeNumber + 1) % 2 ^ 64)).clean).ids =
      (h.numbered ((s.maxInodeNumber + 1) % 2 ^ 64)).settled.ids from rfl, FileHandle.settled_ids]
    exact List.Sublist.refl _
  | full hm hn t ht => exact ⟨hp, List.Sublist.refl _, rfl, rfl⟩
  | next hm hn p u v t hu hc he =>
    refine ⟨(hu.claimable p rfl).1, ?_, rfl, rfl⟩
    rw [show ((h.nextVersion p).clean).ids = (h.nextVersion p).settled.ids from rfl, FileHandle.settled_ids]
    exact nextVersion_ids h p

def Closed (s : Fs) (h : FileHandle) (t : Fs) : Prop :=
  if h.connected then ∃ u r, Flushed s h u r ∧ Released u t (r.2.page :: r.2.ids) else t = s

omit [Config] in
theorem each_freeUnwrittenPages (l : List DataPage) :
    each (fun p : DataPage => freeUnwrittenPages p.pageId) l = each freeUnwrittenPages (l.map DataPage.pageId) := by
  induction l with
  | nil => rfl
  | cons m l ih => rw [List.map_cons, each, each, ih]

-- without changes there is nothing to flush
theorem wp_closeHandle_unmodified {R : Fault → Fs → Prop} (hw : s.allocatedUnwrittenPages.WF)
    (hm : h.modified = false) (hc : h.connected = true) (hids : ∀ p ∈ h.page :: h.ids, p < noData) :
    wp (closeHandle h) (fun _ t => Released s t (h.page :: h.ids)) R s := by
  rw [closeHandle, if_pos hc, wp_bind, flush, if_neg (by simp [hc]), if_pos (by simp [hm]), wp_pure,
    each_freeUnwrittenPages]
  exact wp_freeUnwrittenPages (h.page :: h.ids) hw hids

theorem wp_closeHandle (hr : Ready s) (ho : Owns s h) (hp : h.page < s.header.maxInodes) :
    wp (closeHandle h) (fun _ t => Closed s h t)
      (fun e t => e = .powerLoss → FlushLost s h t) s := by
  unfold Closed
  rw [closeHandle]
  split
  · rw [wp_bind]
    refine wp_mono (wp_flush hr ho hp) (fun r u hu => ?_) (fun _ _ h => h)
    have hru := hu.ready hr ho hp
    obtain ⟨hpage, hids, -, -⟩ := hu.handle hp
    have hnd : ∀ q ∈ r.2.page :: r.2.ids, q < noData := by
      intro q hq
      rcases List.mem_cons.mp hq with rfl | hq
      · exact hr.inode_lt_noData hpage
      · exact hr.layout.lt_noData (ho.region q (hids.mem hq)).2
    rw [each_freeUnwrittenPages]
    exact wp_mono (wp_freeUnwrittenPages (r.2.page :: r.2.ids) hru.allocatedWF hnd)
      (fun _ t ht => ⟨u, r, hu, ht⟩)
      (fun _ _ h => h)
  · rfl

end Commit

end SimpleFlashFs
