import SimpleFlashFs.Confined
import SimpleFlashFs.Scan
import SimpleFlashFs.InodeClaim

namespace SimpleFlashFs

open Lib

namespace PageSet

-- a set that may hold an element twice
structure Loose (s : PageSet) : Prop where
  shrinked : s.unshrinked = false → noData ∉ s.data
  bounded : ∀ v ∈ s.data, v ≤ noData

variable {s : PageSet} {v w : ℕ}

theorem Loose.sort_data (h : s.Loose) : s.sort.data = (s.data.insertionSort (· ≤ ·)).filter (· ≠ noData) := by
  apply reverse_dropWhile_eq
  · exact List.pairwise_insertionSort (· ≤ ·) s.data
  · intro v hv
    exact h.bounded v ((List.perm_insertionSort (· ≤ ·) s.data).mem_iff.mp hv)

theorem Loose.mem_sort (h : s.Loose) : v ∈ s.sort.data ↔ v ∈ s.data ∧ v ≠ noData := by
  rw [h.sort_data, List.mem_filter, (List.perm_insertionSort (· ≤ ·) s.data).mem_iff, decide_eq_true_eq]

theorem Loose.sort (h : s.Loose) : s.sort.Loose where
  shrinked _ hm := (h.mem_sort.mp hm).2 rfl
  bounded v hv := h.bounded v (h.mem_sort.mp hv).1

theorem Loose.sortIfUnsorted (h : s.Loose) : s.sortIfUnsorted.Loose := by
  unfold PageSet.sortIfUnsorted
  split
  · exact h.sort
  · exact h

theorem Loose.of_mem_sortIfUnsorted (h : s.Loose) (hv : v ∈ s.sortIfUnsorted.data) : v ∈ s.data := by
  unfold PageSet.sortIfUnsorted at hv
  split at hv
  · exact (h.mem_sort.mp hv).1
  · exact hv

theorem eraseLoop_shrinked (l : List ℕ) (h : (eraseLoop v l).unshrinked = false) : (eraseLoop v l).data = l := by
  induction l with
  | nil => rfl
  | cons x l ih =>
    rw [eraseLoop] at h ⊢
    split at h
    · cases h
    · next hne =>
      rw [if_neg hne]
      split at h
      · cases h
      · next hne' =>
        rw [if_neg hne']
        split at h
        · next hgt => rw [if_pos hgt]
        · next hgt =>
          rw [if_neg hgt]
          dsimp only at h ⊢
          rw [ih h]

theorem mem_eraseLoop (l : List ℕ) (h : w ∈ (eraseLoop v l).data) : w = noData ∨ w ∈ l := by
  induction l with
  | nil => cases h
  | cons x l ih =>
    rw [eraseLoop] at h
    split at h
    · exact (List.mem_cons.mp h).imp id (List.mem_cons_of_mem x)
    · split at h
      · rcases List.mem_cons.mp h with rfl | h
        · exact Or.inr List.mem_cons_self
        · exact (ih h).imp id (List.mem_cons_of_mem x)
      · split at h
        · exact Or.inr h
        · rcases List.mem_cons.mp h with rfl | h
          · exact Or.inr List.mem_cons_self
          · exact (ih h).imp id (List.mem_cons_of_mem x)

theorem Loose.erase (h : s.Loose) (v : ℕ) : (s.erase v).1.Loose := by
  have ht := h.sortIfUnsorted
  constructor
  · intro hs
    rw [PageSet.erase] at hs ⊢
    simp only [Bool.or_eq_false_iff] at hs
    dsimp only
    rw [eraseLoop_shrinked _ hs.2]
    exact ht.shrinked hs.1
  · intro w hw
    rcases mem_eraseLoop _ hw with rfl | hw
    · exact le_rfl
    · exact ht.bounded w hw

theorem Loose.of_mem_erase (h : s.Loose) (hw : w ∈ (s.erase v).1.data) : w = noData ∨ w ∈ s.data :=
  (mem_eraseLoop _ hw).imp id h.of_mem_sortIfUnsorted

theorem self_mem_insertLoop (v : ℕ) (seen rest : List ℕ) : v ∈ insertLoop v seen rest := by
  induction rest generalizing seen with
  | nil => simp [insertLoop]
  | cons x rest ih =>
    unfold insertLoop
    split
    · next he => simp [he]
    · split
      · exact ih _
      · split
        · cases seen with
          | nil => exact List.mem_cons_self
          | cons prev before =>
            dsimp only
            split <;> simp
        · exact ih _

theorem Loose.insert (h : s.Loose) (hv : v < noData) : (s.insert v).Loose := by
  have ht := h.sortIfUnsorted
  constructor
  · intro hs hm
    rcases insertLoop_subset _ _ _ hm with he | hm | hm
    · omega
    · cases hm
    · exact ht.shrinked hs hm
  · intro w hw
    rcases insertLoop_subset _ _ _ hw with rfl | hw | hw
    · exact hv.le
    · cases hw
    · exact ht.bounded w hw

theorem Loose.of_mem_insert (h : s.Loose) (hw : w ∈ (s.insert v).data) : w = v ∨ w ∈ s.data := by
  rcases insertLoop_subset _ _ _ hw with hw | hw | hw
  · exact Or.inl hw
  · cases hw
  · exact Or.inr (h.of_mem_sortIfUnsorted hw)

theorem Loose.mem_getData (h : s.Loose) : v ∈ s.getData.2 ↔ v ∈ s.data ∧ v ≠ noData := by
  rw [PageSet.getData, PageSet.sortIfDirty]
  split
  · exact h.mem_sort
  · next hd =>
    have hs : s.unshrinked = false := by
      simp only [Bool.or_eq_true, not_or, Bool.not_eq_true] at hd
      exact hd.2
    exact ⟨fun hm => ⟨hm, fun e => h.shrinked hs (e ▸ hm)⟩, And.left⟩

end PageSet

theorem loose_foldl_unorderedInsert {l : List DataPage} {t : PageSet} (ht : t.Loose) (hl : ∀ m ∈ l, m.pageId < noData) :
    (l.foldl (fun s p => s.unorderedInsert p.pageId) t).Loose ∧
      ∀ q ∈ (l.foldl (fun s p => s.unorderedInsert p.pageId) t).data, q ∈ t.data ∨ q ∈ l.map DataPage.pageId := by
  induction l generalizing t with
  | nil => exact ⟨ht, fun q hq => Or.inl hq⟩
  | cons m l ih =>
    have hm := hl m List.mem_cons_self
    have hmem : ∀ q ∈ (t.unorderedInsert m.pageId).data, q ∈ t.data ∨ q = m.pageId := by
      intro q hq
      rw [PageSet.unorderedInsert, List.mem_append, List.mem_singleton] at hq
      exact hq
    have hloose : (t.unorderedInsert m.pageId).Loose := by
      constructor
      · intro hs hq
        rcases hmem _ hq with hq | hq
        · exact ht.shrinked hs hq
        · omega
      · intro q hq
        rcases hmem q hq with hq | rfl
        · exact ht.bounded q hq
        · exact hm.le
    obtain ⟨h1, h2⟩ := ih hloose fun x hx => hl x (List.mem_cons_of_mem m hx)
    refine ⟨h1, fun q hq => ?_⟩
    rw [List.map_cons, List.mem_cons]
    rcases h2 q hq with hq | hq
    · exact (hmem q hq).imp id Or.inl
    · exact Or.inr (Or.inr hq)

theorem loose_foldl_erase (l : List DataPage) {t : PageSet} (ht : t.Loose) :
    (l.foldl (fun s p => (s.erase p.pageId).1) t).Loose ∧
      ∀ q ∈ (l.foldl (fun s p => (s.erase p.pageId).1) t).data, q = noData ∨ q ∈ t.data := by
  induction l generalizing t with
  | nil => exact ⟨ht, fun q hq => Or.inr hq⟩
  | cons m l ih =>
    obtain ⟨h1, h2⟩ := ih (ht.erase m.pageId)
    refine ⟨h1, fun q hq => ?_⟩
    rcases h2 q hq with hq | hq
    · exact Or.inl hq
    · exact ht.of_mem_erase hq

-- also where the old version lists a page twice
theorem mem_pagesToErase {old : FileHandle} (next : FileHandle) (ho : ∀ p ∈ old.ids, p < noData) (hp : old.page < noData) :
    old.page ∈ pagesToErase old next ∧ ∀ q ∈ pagesToErase old next, q = old.page ∨ q ∈ old.ids := by
  have hempty : ({} : PageSet).Loose := ⟨by simp, by simp⟩
  obtain ⟨l1, m1⟩ := loose_foldl_unorderedInsert hempty fun m hm => ho m.pageId (List.mem_map_of_mem hm)
  obtain ⟨l2, m2⟩ := loose_foldl_erase next.inode.dataPages l1
  have l3 := l2.insert hp
  rw [pagesToErase]
  constructor
  · apply l3.mem_getData.mpr
    exact ⟨PageSet.self_mem_insertLoop _ _ _, by omega⟩
  · intro q hq
    obtain ⟨hq, hne⟩ := l3.mem_getData.mp hq
    rcases l2.of_mem_insert hq with rfl | hq
    · exact Or.inl rfl
    · rcases m2 q hq with rfl | hq
      · exact absurd rfl hne
      · rcases m1 q hq with hq | hq
        · cases hq
        · exact Or.inr hq

section Erasing

variable {s t u : Fs} {h k : FileHandle} {l : List ℕ}

-- pages of l erased and given back, however often l names them
structure Wiped (s t : Fs) (l : List ℕ) : Prop where
  rest : t = { s with
    mem := t.mem
    freeDataPages := t.freeDataPages
    allocatedUnwrittenPages := t.allocatedUnwrittenPages }
  plan : s.mem.plan = [] → t.mem.plan = []
  ready : Ready t
  others : ∀ i, InRange s i → i ∉ l → pageAt t i = pageAt s i
  wiped : ∀ p ∈ l, pageAt t p = List.replicate s.header.pageSize 0xFF
  allocated : ∀ q, q ∈ t.allocatedUnwrittenPages ↔
    q ∈ s.allocatedUnwrittenPages ∧ ¬ (q ∈ l ∧ q ≤ s.header.maxInodes)

theorem Erased.wiped {p : ℕ} (e : Erased s t [p]) (hr : Ready s) (hi : InRange s p) : Wiped s t [p] where
  rest := e.rest
  plan := e.within.reliable
  ready := e.ready hr fun q hq => by rwa [List.mem_singleton.mp hq]
  others i hr' hn := e.within.pages i hr' hn
  wiped := e.erased
  allocated := e.allocated

theorem Wiped.header (e : Wiped s t l) : t.header = s.header := by rw [e.rest]

theorem Wiped.cons {p : ℕ} (a : Wiped s t [p]) (b : Wiped t u l) (hi : InRange s p) : Wiped s u (p :: l) where
  rest := by rw [b.rest, a.rest]
  plan hp := b.plan (a.plan hp)
  ready := b.ready
  others i hr hn := by
    rw [List.mem_cons, not_or] at hn
    have hrt : InRange t i := by rwa [InRange, a.header]
    rw [b.others i hrt hn.2, a.others i hr (by simpa using hn.1)]
  wiped q hq := by
    by_cases hql : q ∈ l
    · rw [b.wiped q hql, a.header]
    · have hqp : q = p := (List.mem_cons.mp hq).resolve_right hql
      have hrt : InRange t q := by
        rw [InRange, a.header, hqp]
        exact hi
      rw [b.others q hrt hql, a.wiped q (by rw [hqp]; exact List.mem_cons_self)]
  allocated q := by
    rw [b.allocated, a.allocated, a.header, List.mem_singleton, List.mem_cons]
    tauto

theorem wp_eraseDataPages_wiped (l : List ℕ) (hr : Ready s) (hl : ∀ p ∈ l, InRange s p) :
    wp (each eraseDataPage l) (fun _ t => Wiped s t l) (fun _ _ => True) s := by
  induction l generalizing s with
  | nil => exact ⟨rfl, id, hr, fun _ _ _ => rfl, fun p hp => absurd hp List.not_mem_nil, fun q => by simp⟩
  | cons p l ih =>
    have hi := hl p List.mem_cons_self
    rw [each, wp_bind]
    apply wp_mono (wp_eraseDataPage hr hi)
    · intro _ t ht
      have hw := ht.wiped hr hi
      have hl' : ∀ q ∈ l, InRange t q := by
        intro q hq
        rw [InRange, hw.header]
        exact hl q (List.mem_cons_of_mem p hq)
      apply wp_mono (ih hw.ready hl')
      · exact fun _ u hu => hw.cons hu hi
      · exact fun _ _ h => h
    · exact fun _ _ _ => trivial

theorem wp_eraseInodeAndUnusedPages_wiped (hr : Ready s) (hv : s.variant ≠ .noDel) (hi : InRegion s h)
    (hp : h.page < s.header.maxInodes) :
    wp (eraseInodeAndUnusedPages h k)
      (fun _ t => ∃ l, Wiped s t l ∧ h.page ∈ l ∧ ∀ q ∈ l, q = h.page ∨ DataRegion s q) (fun _ _ => True) s := by
  obtain ⟨hpage, hmem⟩ := mem_pagesToErase k (fun p hp => hr.layout.lt_noData (hi p hp).2) (hr.inode_lt_noData hp)
  have hregion : ∀ q ∈ pagesToErase h k, q = h.page ∨ DataRegion s q := fun q hq => (hmem q hq).imp id (hi q)
  have hrange : ∀ q ∈ pagesToErase h k, InRange s q := by
    intro q hq
    rcases hregion q hq with rfl | hq
    · exact hr.layout.lt_inRange hp
    · exact hq.2
  have hbase : wp (eraseInodeAndUnusedPagesBase h k)
      (fun _ t => ∃ l, Wiped s t l ∧ h.page ∈ l ∧ ∀ q ∈ l, q = h.page ∨ DataRegion s q) (fun _ _ => True) s := by
    rw [eraseInodeAndUnusedPagesBase, wp_bind]
    apply wp_mono (wp_eraseDataPages_wiped _ hr hrange)
    · exact fun _ t ht => ⟨_, ht, hpage, hregion⟩
    · exact fun _ _ h => h
  rw [eraseInodeAndUnusedPages, wp_bind, wp_get]
  cases hvar : s.variant with
  | noDel => exact absurd hvar hv
  | dynamic => exact hbase
  | fram => exact hbase

end Erasing

section Starting

variable [Config] {s t : Fs} {reader : Fs → ℕ → ReadPageReturn} {r : Option ℕ}

-- the range of the inode pages can be started, and holds each of them once
structure WholeRange (s : Fs) : Prop where
  start : s.headerInodeRange.CanStart
  numbers : s.headerInodeRange.numbers.Perm (List.range s.header.maxInodes)

-- an allocation of an inode page that only fails where at most one is left
structure Takes (s t : Fs) (r : Option ℕ) : Prop extends TakesInode s t r where
  whole : WholeRange t
  full : r = none → ∀ i j, Claimable s i → Claimable s j → i = j

omit [Config] in
theorem WholeRange.congr (h : WholeRange s) (hh : t.header = s.header) (hr : t.headerInodeRange = s.headerInodeRange) :
    WholeRange t where
  start := by
    rw [hr]
    exact h.start
  numbers := by
    rw [hr, hh]
    exact h.numbers

omit [Config] in
theorem wp_startHeaderInodeRange_whole (hw : WholeRange s) (R : Fault → Fs → Prop) :
    wp startHeaderInodeRange (fun _ t => t.headerInodeRange.CanStart ∧
      t.headerInodeRange.numbers.Perm s.headerInodeRange.numbers) R s := by
  have hc := hw.start
  simp only [startHeaderInodeRange, wp_bind, wp_get, wp_modify]
  cases hr : s.headerInodeRange with
  | default max current => exact ⟨trivial, List.Perm.refl _⟩
  | shuffled numbers current =>
    rw [hr] at hc
    simp only [InodeRange.reset, wp_bind, wp_pure]
    apply wp_mono (wp_shuffle_by numbers.length numbers s _)
    · rintro l t ⟨hl, -⟩
      have hperm := shuffledBy_perm s.rng numbers.length numbers rfl
      rw [← hl] at hperm
      have hne : l ≠ [] := by
        rintro rfl
        exact hc hperm.symm.eq_nil
      cases l with
      | nil => exact absurd rfl hne
      | cons i rest => exact ⟨hne, hperm⟩
    · exact fun _ _ h => h

omit [Config] in
theorem wp_claimInodePage_range (is : List ℕ) (R : Fault → Fs → Prop) :
    wp (claimInodePage reader is) (fun _ t => t.headerInodeRange = s.headerInodeRange) R s := by
  induction is generalizing s with
  | nil => exact rfl
  | cons i rest ih =>
    simp only [claimInodePage, wp_bind, wp_get]
    rw [wp_ite]
    constructor
    · intro _
      simp only [countAllocated, wp_bind, wp_get, wp_set, wp_pure, insertAllocated]
      rw [wp_ite]
      exact ⟨fun _ => rfl, fun _ => ih⟩
    · exact fun _ => ih

theorem Claimable.candidate {i : ℕ} (hrd : Reads reader) (L : Layout s) (hc : Claimable s i) : Candidate reader s i := by
  refine ⟨hc.1, ?_, hc.2.2⟩
  rw [hrd s i L hc.1, readPage_of_not_valid L.toGeometry hc.1 hc.2.1]

-- only the last number of the order is not tried
theorem wp_tryInodePages_full (hrd : Reads reader) (hmem : ReadsMemory reader) (hr : Ready s) (hw : WholeRange s) :
    wp (startHeaderInodeRange >>= claimInodePage reader)
      (fun r _ => r = none → ∀ i j, Claimable s i → Claimable s j → i = j) (fun _ _ => False) s := by
  have hmemOrder := fun i => ((tryOrder_perm s).trans hw.numbers).mem_iff (a := i)
  rw [wp_bind]
  apply wp_mono (wp_startHeaderInodeRange_order s)
  · rintro is t ⟨-, his, ht⟩
    have hh : t.header = s.header := by rw [ht]
    have ha : t.allocatedUnwrittenPages = s.allocatedUnwrittenPages := by rw [ht]
    have hcand := Candidate.congr hmem (by rw [ht]) hh (fun q => by rw [ha])
    have hlt : ∀ i ∈ is, i < t.header.maxInodes := by
      intro i hi
      rw [his] at hi
      rw [hh]
      exact List.mem_range.mp ((hmemOrder i).mp (List.dropLast_subset _ hi))
    apply wp_mono (wp_claimInodePage_first hmem (by rw [ha]; exact hr.allocatedWF) is hlt _)
    · intro r u hf hnone i j hi hj
      have hlast : ∀ q, Claimable s q → (tryOrder s).getLast? = some q := by
        intro q hq
        have hnot : q ∉ (tryOrder s).dropLast := by
          intro hq'
          rw [← his] at hq'
          exact hf.exhausted hnone q hq' ((hcand q).mpr (hq.candidate hrd hr.layout))
        have hqo := (hmemOrder q).mpr (List.mem_range.mpr hq.1)
        obtain ⟨l, x, hl⟩ := (List.eq_nil_or_concat' (tryOrder s)).resolve_left (List.ne_nil_of_mem hqo)
        rw [hl, List.dropLast_concat] at hnot
        rw [hl, List.mem_append, List.mem_singleton] at hqo
        rw [hl, List.getLast?_concat, hqo.resolve_left hnot]
      exact Option.some_inj.mp ((hlast i hi).symm.trans (hlast j hj))
    · exact fun _ _ h => h
  · exact fun _ _ hno => hno hw.start

theorem wp_tryInodePages_start (hrd : Reads reader) (hmem : ReadsMemory reader) (hr : Ready s) (hw : WholeRange s) :
    wp (startHeaderInodeRange >>= claimInodePage reader) (fun r t => Takes s t r) (fun _ _ => False) s := by
  have hstart : wp (startHeaderInodeRange >>= claimInodePage reader)
      (fun _ t => t.headerInodeRange.CanStart ∧ t.headerInodeRange.numbers.Perm s.headerInodeRange.numbers)
      (fun _ _ => False) s := by
    rw [wp_bind]
    apply wp_mono (wp_startHeaderInodeRange_whole hw fun _ _ => False)
    · intro is t ht
      apply wp_mono (wp_claimInodePage_range is fun _ _ => False)
      · intro r u hu
        rwa [hu]
      · exact fun _ _ h => h
    · exact fun _ _ h => h
  have htakes := wp_tryInodePages (R := fun _ _ => True) hrd hr.claimReady fun _ => trivial
  apply wp_mono (wp_and htakes (wp_and hstart (wp_tryInodePages_full hrd hmem hr hw)))
  · rintro r t ⟨h1, h2, h3⟩
    refine ⟨h1, ⟨h2.1, ?_⟩, h3⟩
    rw [h1.rest]
    exact h2.2.trans hw.numbers
  · exact fun _ _ h => h.2.1

theorem wp_allocateFreeInodePageNumber_start (hr : Ready s) (hw : WholeRange s) :
    wp allocateFreeInodePageNumber (fun r t => Takes s t r) (fun _ _ => False) s := by
  rw [allocateFreeInodePageNumber, wp_bind, wp_get, wp_ite]
  exact ⟨fun _ => wp_tryInodePages_start reads_mapped readsMemory_mapped hr hw,
    fun _ => wp_tryInodePages_start reads_unmapped readsMemory_unmapped hr hw⟩

theorem wp_allocateFreeInodePage_start (hr : Ready s) (hw : WholeRange s) :
    wp allocateFreeInodePage (fun h t => ∃ r, h = FileHandle.ofPage r ∧ Takes s t r) (fun _ _ => False) s := by
  have hmap : ∀ reader, Reads reader → ReadsMemory reader →
      wp (startHeaderInodeRange >>= fun is => FileHandle.ofPage <$> claimInodePage reader is)
        (fun h t => ∃ r, h = FileHandle.ofPage r ∧ Takes s t r) (fun _ _ => False) s := by
    intro reader hrd hmem
    have h := wp_tryInodePages_start hrd hmem hr hw
    rw [wp_bind] at h ⊢
    apply wp_mono h
    · intro is t ht
      rw [wp_map]
      exact wp_mono ht (fun r u hu => ⟨r, rfl, hu⟩) (fun _ _ h => h)
    · exact fun _ _ h => h
  rw [allocateFreeInodePage, wp_bind, wp_get, wp_ite]
  exact ⟨fun _ => hmap _ reads_mapped readsMemory_mapped, fun _ => hmap _ reads_unmapped readsMemory_unmapped⟩

end Starting

section Relocating

variable [Config] {s t u : Fs} {h k : FileHandle}

-- a file without data pages fits beside its name
def FitsInline (hd : Header) (h : FileHandle) : Prop :=
  h.inode.countValidDataPages = 0 → h.inode.fileLen ≤ getInodeDataSpaceSize hd h

-- what the record that a flush writes says
structure Writes (s : Fs) (h : FileHandle) (n : Inode) : Prop where
  nameLen : n.fileNameLen = h.inode.fileNameLen
  name : n.fileName = h.inode.fileName
  fileLen : n.fileLen = h.inode.fileLen
  region : ∀ p ∈ n.dataPages.map DataPage.pageId, DataRegion s p
  inline : FitsInline s.header h → n.dataPages = [] → n.fileLen ≤ inodeDataSpaceSize s.header n.fileNameLen

-- the record of h is written at the page of k, and only there
structure Relocated (s : Fs) (h : FileHandle) (t : Fs) (k : FileHandle) : Prop where
  header : t.header = s.header
  variant : t.variant = s.variant
  ivStorage : t.ivStorage = s.ivStorage
  plan : s.mem.plan = [] → t.mem.plan = []
  ready : Ready t
  whole : WholeRange t
  stores : ∃ n, Stores t k.page n ∧ Writes s h n ∧ n.inodeNumber = k.inode.inodeNumber
  others : ∀ i < s.header.maxInodes, i ≠ k.page → i ≠ h.page → pageAt t i = pageAt s i
  reserved : ∀ i < s.header.maxInodes, i ≠ k.page → i ≠ h.page →
    (i ∈ t.allocatedUnwrittenPages ↔ i ∈ s.allocatedUnwrittenPages)
  page : k.page < s.header.maxInodes
  connected : k.connected = h.connected
  nameLen : k.inode.fileNameLen = h.inode.fileNameLen
  name : k.inode.fileName = h.inode.fileName
  region : InRegion s k
  number : (h.inode.inodeNumber = 0 ∧ k.page = h.page ∧ k.inode.inodeNumber = (s.maxInodeNumber + 1) % 2 ^ 64 ∧
      t.maxInodeNumber = (s.maxInodeNumber + 1) % 2 ^ 64) ∨
    (h.inode.inodeNumber ≠ 0 ∧ Claimable s k.page ∧ pageAt t h.page = List.replicate s.header.pageSize 0xFF ∧
      h.page ∉ t.allocatedUnwrittenPages ∧ k.inode.inodeNumber = h.inode.inodeNumber ∧
      t.maxInodeNumber = s.maxInodeNumber)

omit [Config] in
theorem countValid_eq_zero (hn : h.inode.dataPages = []) : h.inode.countValidDataPages = 0 := by
  rw [Inode.countValidDataPages, hn]
  rfl

omit [Config] in
theorem inRegion_nextVersion {p : ℕ} (hi : InRegion s h) : InRegion s (h.nextVersion p) :=
  fun q hq => hi q ((nextVersion_ids h p).mem hq)

theorem Programmed.stores (img : List UInt8) {i : ℕ} {n : Inode} (hi : Encodes s.header n img)
    (hp : Programmed s t i (.write (writeAddress s.header i) (inodeImage s.header img))) : Stores t i n :=
  ⟨img, by rw [hp.header]; exact hi, by rw [hp.page, hp.header]; rfl⟩

theorem wp_flushNew_relocated (hr : Ready s) (hw : WholeRange s) (hi : InRegion s h)
    (hp : h.page < s.header.maxInodes) (hn : h.inode.inodeNumber = 0) :
    wp (flushNew h) (fun r t => r.1 = true ∧ Relocated s h t r.2) (fun _ _ => True) s := by
  rw [flushNew, wp_bind, wp_get]
  simp only [wp_bind, wp_set]
  generalize hnum : (s.maxInodeNumber + 1) % 2 ^ 64 = number
  have hr' := ready_maxInodeNumber hr number
  apply wp_mono (wp_and (confined_writeZeroPagesFrom (h := h.numbered number) _ 0 hr' hi)
    (wp_writeZeroPages_sameData (h := h.numbered number)))
  · rintro r u ⟨hu, hdata⟩
    have hru := hu.ready hr'
    have hh : u.header = s.header := hu.header
    apply wp_liftFault
    · intro img himg
      have henc := inode2page_eq_ok himg
      have hpage : r.2.page = h.page := hu.same.page
      have hmeta := wp_writeMetaPage (s := u) (i := r.2.page) hru (by rw [hpage, hh]; exact hp)
        (by rw [hh]; exact henc)
      rw [inodeImage, hh] at hmeta
      apply wp_mono hmeta
      · rintro done t ⟨rfl, ht⟩
        rw [if_pos rfl]
        refine ⟨rfl, ?_⟩
        have hst := hu.inodes
        constructor
        · exact ht.header.trans hh
        · rw [ht.rest, hu.rest]
        · rw [ht.rest, hu.rest]
        · intro hplan
          rw [ht.plan, hu.plan hplan]
          rfl
        · exact ht.ready hru
        · exact hw.congr (ht.header.trans hh) (by rw [ht.rest, hu.rest])
        · refine ⟨r.2.inode, ?_, ⟨hu.same.fileNameLen, hu.same.fileName, hdata.fileLen, ?_, fun hin hnil => ?_⟩, rfl⟩
          · apply Programmed.stores img
            · rw [hh]
              exact henc
            · rw [inodeImage, hh]
              exact ht
          · exact fun p hp => hu.dataRegion.mp (hu.inRegion hr' hi p hp)
          · have hvalid := hdata.valid
            rw [countValid_eq_zero hnil] at hvalid
            rw [hdata.fileLen, hu.same.fileNameLen]
            exact hin (Nat.le_zero.mp hvalid)
        · intro i hilt hne _
          rw [ht.others i hne (hru.layout.lt_inRange (by rw [hh]; exact hilt)), hst i hilt]
          rfl
        · intro i _ _ _
          rw [ht.rest, hu.rest]
        · exact hpage.symm ▸ hp
        · exact hu.same.connected
        · exact hu.same.fileNameLen
        · exact hu.same.fileName
        · exact fun p hp => hu.dataRegion.mp (hu.inRegion hr' hi p hp)
        · rw [hnum]
          refine Or.inl ⟨hn, hpage, hu.same.inodeNumber, ?_⟩
          rw [ht.rest, hu.rest]
      · exact fun _ _ _ => trivial
    · exact fun _ _ => trivial
  · exact fun _ _ _ => trivial

theorem wp_flushNextVersion_relocated (hr : Ready s) (hv : s.variant ≠ .noDel) (hw : WholeRange s)
    (hi : InRegion s h) (hval : Valid s h.page) (hn : h.inode.inodeNumber ≠ 0) :
    wp (flushNextVersion h)
      (fun r t => (r = (false, h) ∧ Takes s t none) ∨ (r.1 = true ∧ Relocated s h t r.2)) (fun _ _ => True) s := by
  rw [flushNextVersion, wp_bind]
  apply wp_mono (wp_allocateFreeInodePageNumber_start hr hw)
  · intro r u hu
    cases r with
    | none => exact Or.inl ⟨rfl, hu⟩
    | some p =>
      have hru := hu.toTakesInode.ready hr
      have hh : u.header = s.header := by rw [hu.rest]
      have hclaim := hu.claimable p rfl
      have hne : p ≠ h.page := by
        rintro rfl
        exact hclaim.2.1 hval
      have hiu : InRegion u (h.nextVersion p) := by
        intro q hq
        rw [DataRegion, InRange, hh]
        exact inRegion_nextVersion hi q hq
      simp only [wp_bind, wp_get]
      apply wp_liftFault
      · intro img himg
        have henc := inode2page_eq_ok himg
        rw [hh] at henc
        apply wp_mono (wp_and (confined_writeZeroPagesFrom (h := h.nextVersion p) _ 0 hru hiu)
          (wp_writeZeroPages_sameData (h := h.nextVersion p)))
        · rintro r v ⟨hv', -⟩
          have hrv := hv'.ready hru
          have hhv : v.header = s.header := hv'.header.trans hh
          have hpage : r.2.page = p := hv'.same.page
          have hmeta := wp_writeMetaPage (s := v) (i := p) hrv (by rw [hhv]; exact hclaim.1)
            (by rw [hhv]; exact henc)
          rw [inodeImage, hhv] at hmeta
          rw [hh, hpage]
          apply wp_mono hmeta
          · rintro done w ⟨rfl, hmw⟩
            have hrw := hmw.ready hrv
            have hhw : w.header = s.header := hmw.header.trans hhv
            have hiw : InRegion w { h with connected := false } := by
              intro q hq
              rw [DataRegion, InRange, hhw]
              exact hi q hq
            have hvw : w.variant ≠ .noDel := by
              rw [hmw.rest, hv'.rest, hu.rest]
              exact hv
            rw [if_pos rfl, wp_bind]
            apply wp_mono (wp_eraseInodeAndUnusedPages_wiped (k := { r.2 with modified := false }) hrw hvw hiw
              (by rw [hhw]; exact hval.1))
            · rintro _ t ⟨l, ht, hmem, hl⟩
              have hht : t.header = s.header := ht.header.trans hhw
              have hkeep : ∀ i < s.header.maxInodes, i ≠ h.page → pageAt t i = pageAt w i := by
                intro i hilt hih
                apply ht.others i
                · rw [InRange, hhw]
                  exact hr.layout.lt_inRange hilt
                · intro hil
                  rcases hl i hil with hil | hil
                  · exact hih hil
                  · have hge := hil.1
                    rw [hhw] at hge
                    omega
              have hstored : Stores w p (h.nextVersion p).inode := by
                apply Programmed.stores img
                · rw [hhv]
                  exact henc
                · rw [inodeImage, hhv]
                  exact hmw
              refine Or.inr ⟨rfl, ?_⟩
              constructor
              · exact hht
              · rw [ht.rest, hmw.rest, hv'.rest, hu.rest]
              · rw [ht.rest, hmw.rest, hv'.rest, hu.rest]
              · intro hplan
                apply ht.plan
                rw [hmw.plan, hv'.plan (by rw [hu.rest]; exact hplan)]
                rfl
              · exact ht.ready
              · apply hu.whole.congr
                · rw [hht, hh]
                · rw [ht.rest, hmw.rest, hv'.rest]
              · refine ⟨(h.nextVersion p).inode, ?_, ⟨rfl, rfl, rfl, ?_, fun hin hnil => ?_⟩, ?_⟩
                · exact stores_congr ht.header (hkeep p hclaim.1 hne) hstored
                · exact inRegion_nextVersion hi
                · have hvalid := (sameData_nextVersion h p).valid
                  rw [countValid_eq_zero hnil] at hvalid
                  exact hin (Nat.le_zero.mp hvalid)
                · exact hv'.same.inodeNumber.symm
              · intro i hilt hip hih
                rw [hkeep i hilt hih, hmw.others i hip (hrv.layout.lt_inRange (by rw [hhv]; exact hilt)),
                  hv'.inodes i (by rw [hh]; exact hilt), hu.rest]
                rfl
              · intro i hilt hip hih
                have hil : i ∉ l := by
                  intro hil
                  rcases hl i hil with rfl | hil
                  · exact hih rfl
                  · have hge := hil.1
                    rw [hhw] at hge
                    omega
                have hmem' : w.allocatedUnwrittenPages = u.allocatedUnwrittenPages := by rw [hmw.rest, hv'.rest]
                rw [ht.allocated, hmem', hu.mem_iff]
                refine ⟨fun hq => hq.1.resolve_right fun e => hip (Option.some_inj.mp e).symm, fun hq => ⟨Or.inl hq, ?_⟩⟩
                exact fun hq' => hil hq'.1
              · exact hclaim.1
              · exact hv'.same.connected
              · exact hv'.same.fileNameLen
              · exact hv'.same.fileName
              · intro q hq
                have hq' := hv'.dataRegion.mp (hv'.inRegion hru hiu q hq)
                rwa [DataRegion, InRange, hh] at hq'
              · refine Or.inr ⟨hn, ?_, ?_, ?_, hv'.same.inodeNumber, ?_⟩
                · exact hclaim
                · rw [ht.wiped h.page hmem, hhw]
                · intro hq
                  exact ((ht.allocated h.page).mp hq).2 ⟨hmem, by rw [hhw]; exact hval.1.le⟩
                · rw [ht.rest, hmw.rest, hv'.rest, hu.rest]
            · exact fun _ _ _ => trivial
          · exact fun _ _ _ => trivial
        · exact fun _ _ _ => trivial
      · exact fun _ _ => trivial
  · exact fun _ _ h => h.elim

-- what a flush does to the inode pages
inductive Rewritten (s : Fs) (h : FileHandle) : Fs → Bool × FileHandle → Prop
  | unmodified (hm : h.modified = false) : Rewritten s h s (true, h)
  | full (t : Fs) (ht : Takes s t none) : Rewritten s h t (false, h)
  | relocated (hm : h.modified = true) (t : Fs) (k : FileHandle) (hk : Relocated s h t k) : Rewritten s h t (true, k)

theorem wp_flush_rewritten (hr : Ready s) (hv : s.variant ≠ .noDel) (hw : WholeRange s)
    (hi : InRegion s h) (hp : h.page < s.header.maxInodes)
    (hval : h.modified = true → h.inode.inodeNumber ≠ 0 → Valid s h.page) :
    wp (flush h) (fun r t => Rewritten s h t r) (fun _ _ => True) s := by
  rw [flush]
  split
  · exact trivial
  · split
    · next hm => exact .unmodified (by simpa using hm)
    · next hm =>
      have hm : h.modified = true := by simpa using hm
      split
      · next hn =>
        apply wp_mono (wp_flushNew_relocated hr hw hi hp hn)
        · rintro ⟨done, k⟩ t ⟨rfl, hk⟩
          exact .relocated hm t k hk
        · exact fun _ _ h => h
      · next hn =>
        apply wp_mono (wp_flushNextVersion_relocated hr hv hw hi (hval hm hn) hn)
        · rintro ⟨done, k⟩ t (⟨he, ht⟩ | ⟨rfl, hk⟩)
          · rw [he]
            exact .full t ht
          · exact .relocated hm t k hk
        · exact fun _ _ h => h

end Relocating

end SimpleFlashFs
