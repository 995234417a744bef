import SimpleFlashFs.RoundTrip

namespace SimpleFlashFs

open Lib

-- data page p lies behind the inode pages
def DataRegion (s : Fs) (p : ℕ) : Prop := s.header.maxInodes ≤ p ∧ InRange s p

instance (s : Fs) (i : ℕ) : Decidable (DataRegion s i) := inferInstanceAs (Decidable (_ ∧ _))

def InodeRange.numbers : InodeRange → List ℕ
  | .default max _ => List.range max
  | .shuffled numbers _ => numbers

structure Ready (s : Fs) : Prop where
  layout : Layout s
  noShort : NoShort s
  freeWF : s.freeDataPages.WF
  allocatedWF : s.allocatedUnwrittenPages.WF
  range : ∀ i ∈ s.headerInodeRange.numbers, i < s.header.maxInodes
  free : ∀ p ∈ s.freeDataPages, DataRegion s p

theorem Layout.filesystemSize_lt {s : Fs} (L : Layout s) : s.header.filesystemSize < noData := by
  have h1 := L.minPage
  have h2 := L.addressable
  have h3 := Nat.mul_le_mul_right s.header.filesystemSize h1
  simp only [minPageSize, noData] at h1 h3 ⊢
  omega

theorem Layout.lt_noData {s : Fs} (L : Layout s) {i : ℕ} (hi : InRange s i) : i < noData := by
  have h := L.filesystemSize_lt
  unfold InRange at hi
  omega

theorem Ready.inode_lt_noData {s : Fs} (hr : Ready s) {i : ℕ} (hi : i < s.header.maxInodes) :
    i < noData := hr.layout.lt_noData (hr.layout.lt_inRange hi)

section DataPages

variable {s : Fs}

-- what an allocation of a data page changes
structure TakesFree (s t : Fs) (r : Option ℕ) : Prop where
  rest : t = { s with freeDataPages := t.freeDataPages, rng := t.rng }
  wf : t.freeDataPages.WF
  mem_iff : ∀ q, q ∈ t.freeDataPages ↔ q ∈ s.freeDataPages ∧ r ≠ some q
  taken : ∀ p, r = some p → p ∈ s.freeDataPages
  exhausted : r = none → ∀ q, q ∉ s.freeDataPages

theorem takesFree_none (hf : s.freeDataPages.WF) (he : s.freeDataPages.sortIfDirty.data = []) :
    TakesFree s { s with freeDataPages := s.freeDataPages.sortIfDirty } none where
  rest := rfl
  wf := PageSet.sortIfDirty_wf hf
  mem_iff q := by simp [PageSet.mem_sortIfDirty hf]
  taken p hp := by cases hp
  exhausted _ q hq := by
    rw [← PageSet.mem_sortIfDirty_data hf, he] at hq
    cases hq

theorem takesFree_some (hf : s.freeDataPages.WF) {i p : ℕ} (rng : ℕ → ℕ)
    (hi : s.freeDataPages.sortIfDirty.data[i]? = some p) :
    TakesFree s { s with freeDataPages := s.freeDataPages.sortIfDirty.eraseAt i, rng := rng } (some p) where
  rest := rfl
  wf := PageSet.eraseAt_wf (PageSet.sortIfDirty_wf hf)
  mem_iff q := by
    have hp : p ≠ noData := by
      rintro rfl
      exact PageSet.noData_not_mem_sortIfDirty hf (List.mem_of_getElem? hi)
    rw [PageSet.eraseAt_mem (PageSet.sortIfDirty_wf hf) hi hp, PageSet.mem_sortIfDirty hf, ne_eq, ne_eq, Option.some_inj,
      eq_comm (a := p)]
  taken q hq := by
    obtain rfl := Option.some_inj.mp hq
    exact (PageSet.mem_sortIfDirty_data hf).mp (List.mem_of_getElem? hi)
  exhausted h := by cases h

theorem wp_allocateFreeDataPageBase (hf : s.freeDataPages.WF) (R : Fault → Fs → Prop) :
    wp allocateFreeDataPageBase (fun r t => TakesFree s t r) R s := by
  simp only [allocateFreeDataPageBase, freeDataPagesEmpty, PageSet.empty, wp_bind, wp_get, wp_set, wp_pure,
    wp_ite, List.isEmpty_iff, eraseFreeDataPageAt, wp_modify]
  constructor
  · exact takesFree_none hf
  · intro hne
    obtain ⟨p, l, hl⟩ := List.exists_cons_of_ne_nil hne
    have hp : s.freeDataPages.sortIfDirty.data[0]? = some p := by rw [hl]; rfl
    rw [hp]
    exact takesFree_some hf s.rng hp

theorem wp_allocateFreeDataPageFram (hf : s.freeDataPages.WF) (R : Fault → Fs → Prop) :
    wp allocateFreeDataPageFram (fun r t => TakesFree s t r) R s := by
  have hu : s.freeDataPages.sortIfDirty.sortIfUnsorted = s.freeDataPages.sortIfDirty := by
    have h : s.freeDataPages.sortIfDirty.unsorted = false := by
      unfold PageSet.sortIfDirty
      split
      · rfl
      · simp_all
    rw [PageSet.sortIfUnsorted, h]
    rfl
  simp only [allocateFreeDataPageFram, freeDataPagesEmpty, PageSet.empty, PageSet.size, draw, wp_bind,
    wp_get, wp_set, wp_pure, wp_ite, List.isEmpty_iff, eraseFreeDataPageAt, wp_modify, hu]
  constructor
  · exact takesFree_none hf
  · intro hne
    have hlt := Nat.mod_lt (s.rng 0) (List.length_pos_iff.mpr hne)
    rw [List.getElem?_eq_getElem hlt]
    exact takesFree_some hf _ (List.getElem?_eq_getElem hlt)

theorem wp_allocateFreeDataPage (hf : s.freeDataPages.WF) (R : Fault → Fs → Prop) :
    wp allocateFreeDataPage (fun r t => TakesFree s t r) R s := by
  simp only [allocateFreeDataPage, wp_bind, wp_get]
  cases s.variant with
  | fram => exact wp_allocateFreeDataPageFram hf R
  | dynamic => exact wp_allocateFreeDataPageBase hf R
  | noDel => exact wp_allocateFreeDataPageBase hf R

end DataPages

section Ranges

variable {s : Fs}

theorem wp_shuffle (l : List ℕ) (n : ℕ) (hn : n = l.length) (rng : ℕ → ℕ) (R : Fault → Fs → Prop) :
    wp (shuffle n l) (fun r t => (∀ x ∈ r, x ∈ l) ∧ t = { s with rng := t.rng }) R { s with rng := rng } := by
  induction n generalizing l rng with
  | zero =>
    have hl : l = [] := List.length_eq_zero_iff.mp hn.symm
    rw [hl]
    exact ⟨fun _ h => h, rfl⟩
  | succ n ih =>
    have hlt := Nat.mod_lt (rng 0) (show l.length > 0 by omega)
    simp only [shuffle, draw, wp_bind, wp_get, wp_set, wp_pure]
    refine wp_mono (ih _ ?_ _) (fun r t ht => ⟨?_, ht.2⟩) (fun _ _ h => h)
    · rw [List.length_eraseIdx_of_lt hlt]
      omega
    · rw [List.getD_eq_getElem?_getD, List.getElem?_eq_getElem hlt, Option.getD_some]
      intro x hx
      rcases List.mem_cons.mp hx with rfl | hx
      · exact List.getElem_mem hlt
      · exact List.mem_of_mem_eraseIdx (ht.1 x hx)

theorem mem_visited {fuel i j : ℕ} {r : InodeRange} (h : j ∈ InodeRange.visited fuel i r) :
    (j = i ∧ r.hasNext = true) ∨ j ∈ r.numbers := by
  induction fuel generalizing i r with
  | zero => cases h
  | succ fuel ih =>
    simp only [InodeRange.visited] at h
    split at h
    · next hnext =>
      rcases List.mem_cons.mp h with rfl | h
      · exact Or.inl ⟨rfl, hnext⟩
      · cases r with
        | default max current =>
          simp only [InodeRange.next] at h
          rw [InodeRange.hasNext, decide_eq_true_iff] at hnext
          rcases ih h with ⟨rfl, -⟩ | h
          · exact Or.inr (List.mem_range.mpr hnext)
          · exact Or.inr h
        | shuffled numbers current =>
          rw [InodeRange.hasNext, decide_eq_true_iff] at hnext
          simp only [InodeRange.next, List.getElem?_eq_getElem hnext, Option.map_some] at h
          rcases ih h with ⟨rfl, -⟩ | h
          · exact Or.inr (List.getElem_mem hnext)
          · exact Or.inr h
    · cases h

theorem mem_numbers_of_next {r t : InodeRange} {i j : ℕ} {fuel : ℕ} (hn : r.next = some (i, t))
    (hj : j ∈ InodeRange.visited fuel i t) : j ∈ r.numbers := by
  cases r with
  | default max current =>
    obtain ⟨rfl, rfl⟩ : i = current ∧ t = .default max (current + 1) := by
      simpa [InodeRange.next, eq_comm] using hn
    rcases mem_visited hj with ⟨rfl, hnext⟩ | h
    · rw [InodeRange.hasNext, decide_eq_true_iff] at hnext
      exact List.mem_range.mpr (by omega)
    · exact h
  | shuffled numbers current =>
    obtain ⟨x, hx, rfl, rfl⟩ : ∃ x, numbers[current]? = some x ∧ x = i ∧ .shuffled numbers (current + 1) = t := by
      simpa [InodeRange.next] using hn
    rcases mem_visited hj with ⟨rfl, -⟩ | h
    · exact List.mem_of_getElem? hx
    · exact h

-- drawing the order in which the inode pages are tried
structure Starts (s t : Fs) (is : List ℕ) : Prop where
  rest : t = { s with headerInodeRange := t.headerInodeRange, rng := t.rng }
  range : ∀ i ∈ t.headerInodeRange.numbers, i < s.header.maxInodes
  is : ∀ i ∈ is, i < s.header.maxInodes

theorem wp_visited {t : Fs} {r : InodeRange} (hn : ∀ i ∈ r.numbers, i < s.header.maxInodes) (ht : t = { s with rng := t.rng })
    {R : Fault → Fs → Prop} (hR : ∀ t, R .undefined t) :
    wp (match r.next with
      | some (i, t) => pure (InodeRange.visited (r.length + 1) i t)
      | none => throw .undefined : FsM (List ℕ)) (fun is t => Starts s t is) R { t with headerInodeRange := r } := by
  cases hnext : r.next with
  | none => exact hR _
  | some p =>
    refine ⟨?_, hn, fun i hi => hn i (mem_numbers_of_next hnext hi)⟩
    rw [ht]

theorem wp_startHeaderInodeRange (hr : ∀ i ∈ s.headerInodeRange.numbers, i < s.header.maxInodes)
    {R : Fault → Fs → Prop} (hR : ∀ t, R .undefined t) :
    wp startHeaderInodeRange (fun is t => Starts s t is) R s := by
  simp only [startHeaderInodeRange, wp_bind, wp_get, wp_modify]
  cases hrange : s.headerInodeRange with
  | default max current =>
    rw [hrange] at hr
    exact wp_visited (t := s) (r := .default max 0) hr rfl hR
  | shuffled numbers current =>
    rw [hrange] at hr
    simp only [InodeRange.reset, wp_bind, wp_pure]
    refine wp_mono (wp_shuffle numbers _ rfl s.rng R) (fun l t ht => ?_) (fun _ _ h => h)
    exact wp_visited (r := .shuffled l 0) (fun i hi => hr i (ht.1 i hi)) ht.2 hR

end Ranges

section InodePages

variable [Config] {s : Fs}

def Valid (s : Fs) (i : ℕ) : Prop :=
  i < s.header.maxInodes ∧ checksumOk s.header.endianness (pageAt s i) = true

instance (s : Fs) (i : ℕ) : Decidable (Valid s i) := inferInstanceAs (Decidable (_ ∧ _))

-- an inode page that an allocation may hand out
def Claimable (s : Fs) (i : ℕ) : Prop :=
  i < s.header.maxInodes ∧ ¬ Valid s i ∧ i ∉ s.allocatedUnwrittenPages

-- what an allocation of an inode page changes
structure TakesInode (s t : Fs) (r : Option ℕ) : Prop where
  rest : t = { s with
    allocatedUnwrittenPages := t.allocatedUnwrittenPages,
    headerInodeRange := t.headerInodeRange,
    rng := t.rng }
  wf : t.allocatedUnwrittenPages.WF
  mem_iff : ∀ q, q ∈ t.allocatedUnwrittenPages ↔ q ∈ s.allocatedUnwrittenPages ∨ r = some q
  claimable : ∀ i, r = some i → Claimable s i
  range : ∀ i ∈ t.headerInodeRange.numbers, i < s.header.maxInodes

def Reads (reader : Fs → ℕ → ReadPageReturn) : Prop :=
  ∀ s i, Layout s → i < s.header.maxInodes → reader s i = readPage s i true

theorem reads_unmapped : Reads (readPage · · true) := fun _ _ _ _ => rfl

theorem reads_mapped : Reads (readPageMapped · · true) :=
  fun _ _ L hi => readPageMapped_eq L.toGeometry (L.lt_inRange hi) true

theorem readPage_of_valid (L : Geometry s) {i : ℕ} (h : Valid s i) :
    readPage s i true = ⟨none, pageAt s i⟩ := by
  rw [readPage_eq L (L.lt_inRange h.1), if_neg (by simp [h.2])]

theorem readPage_of_not_valid (L : Geometry s) {i : ℕ} (hi : i < s.header.maxInodes) (h : ¬ Valid s i) :
    readPage s i true = ⟨some .crcError, pageAt s i⟩ := by
  have hc : ¬ checksumOk s.header.endianness (pageAt s i) = true := fun hc => h ⟨hi, hc⟩
  rw [readPage_eq L (L.lt_inRange hi), if_pos ⟨rfl, hc⟩]

-- all that an allocation of an inode page relies on
structure ClaimReady (s : Fs) : Prop where
  layout : Layout s
  allocatedWF : s.allocatedUnwrittenPages.WF
  range : ∀ i ∈ s.headerInodeRange.numbers, i < s.header.maxInodes

omit [Config] in
theorem Ready.claimReady (hr : Ready s) : ClaimReady s := ⟨hr.layout, hr.allocatedWF, hr.range⟩

theorem wp_claimInodePage {reader : Fs → ℕ → ReadPageReturn} (hrd : Reads reader) (is : List ℕ)
    (hr : ClaimReady s) (his : ∀ i ∈ is, i < s.header.maxInodes) (R : Fault → Fs → Prop) :
    wp (claimInodePage reader is) (fun r t => TakesInode s t r) R s := by
  induction is generalizing s with
  | nil => exact ⟨rfl, hr.allocatedWF, by simp, by simp, hr.range⟩
  | cons i rest ih =>
    have hi := his i (by simp)
    have hrest : ∀ j ∈ rest, j < s.header.maxInodes := fun j hj => his j (by simp [hj])
    simp only [claimInodePage, wp_bind, wp_get, wp_ite, hrd s i hr.layout hi]
    constructor
    · intro hcrc
      have hv : ¬ Valid s i := by
        intro hv
        rw [readPage_of_valid hr.layout.toGeometry hv] at hcrc
        cases hcrc
      have hnd := hr.layout.lt_noData (hr.layout.lt_inRange hi)
      simp only [countAllocated, wp_bind, wp_get, wp_set, wp_pure, insertAllocated, wp_modify,
        PageSet.count_eq hr.allocatedWF hnd]
      have hsw : (s.allocatedUnwrittenPages.count i).1.WF := PageSet.sortIfUnsorted_wf hr.allocatedWF
      have hsm : ∀ q, q ∈ (s.allocatedUnwrittenPages.count i).1 ↔ q ∈ s.allocatedUnwrittenPages :=
        fun q => PageSet.mem_sortIfUnsorted hr.allocatedWF
      constructor
      · intro hfree
        refine ⟨rfl, PageSet.insert_wf hsw hnd, fun q => ?_, ?_, hr.range⟩
        · rw [PageSet.mem_insert hsw hnd, hsm, Option.some_inj, eq_comm (a := i)]
        · rintro j hj
          obtain rfl := Option.some_inj.mp hj
          exact ⟨hi, hv, hfree⟩
      · intro _
        have hr' : ClaimReady { s with allocatedUnwrittenPages := (s.allocatedUnwrittenPages.count i).1 } :=
          ⟨hr.layout.of_eq rfl rfl, hsw, hr.range⟩
        refine wp_mono (ih hr' hrest) (fun r t ht => ?_) (fun _ _ h => h)
        refine ⟨ht.rest, ht.wf, fun q => by rw [ht.mem_iff, hsm], fun j hj => ?_, ht.range⟩
        have hc := ht.claimable j hj
        exact ⟨hc.1, hc.2.1, fun hm => hc.2.2 ((hsm j).mpr hm)⟩
    · intro _
      exact ih hr hrest

theorem wp_tryInodePages {reader : Fs → ℕ → ReadPageReturn} (hrd : Reads reader) (hr : ClaimReady s)
    {R : Fault → Fs → Prop} (hR : ∀ t, R .undefined t) :
    wp (startHeaderInodeRange >>= claimInodePage reader) (fun r t => TakesInode s t r) R s := by
  rw [wp_bind]
  refine wp_mono (wp_startHeaderInodeRange hr.range hR) (fun is t ht => ?_) (fun _ _ h => h)
  have hrest := ht.rest
  have hh : t.header = s.header := by rw [hrest]
  have hm : t.mem = s.mem := by rw [hrest]
  have ha : t.allocatedUnwrittenPages = s.allocatedUnwrittenPages := by rw [hrest]
  have hready : ClaimReady t :=
    ⟨hr.layout.of_eq hh (by rw [hm]), by rw [ha]; exact hr.allocatedWF, by rw [hh]; exact ht.range⟩
  refine wp_mono (wp_claimInodePage hrd is hready (by rw [hh]; exact ht.is) R) (fun r u hu => ?_)
    (fun _ _ h => h)
  refine ⟨?_, hu.wf, fun q => by rw [hu.mem_iff, ha], fun i hi => ?_, fun i hi => ?_⟩
  · rw [hu.rest, hrest]
  · have hc := hu.claimable i hi
    simp only [Claimable, Valid, pageAt, hh, hm, ha] at hc
    exact hc
  · rw [← hh]
    exact hu.range i hi

theorem wp_allocateFreeInodePageNumber (hr : ClaimReady s) {R : Fault → Fs → Prop}
    (hR : ∀ t, R .undefined t) :
    wp allocateFreeInodePageNumber (fun r t => TakesInode s t r) R s := by
  simp only [allocateFreeInodePageNumber, wp_bind, wp_get, wp_ite]
  exact ⟨fun _ => wp_tryInodePages reads_mapped hr hR, fun _ => wp_tryInodePages reads_unmapped hr hR⟩

theorem wp_allocateFreeInodePage (hr : Ready s) {R : Fault → Fs → Prop} (hR : ∀ t, R .undefined t) :
    wp allocateFreeInodePage
      (fun h t => ∃ r, h = FileHandle.ofPage r ∧ TakesInode s t r) R s := by
  have hmap : ∀ reader, Reads reader →
      wp (startHeaderInodeRange >>= fun is => FileHandle.ofPage <$> claimInodePage reader is)
        (fun h t => ∃ r, h = FileHandle.ofPage r ∧ TakesInode s t r) R s := by
    intro reader hrd
    have h := wp_tryInodePages hrd hr.claimReady hR
    simp only [wp_bind, wp_map] at h ⊢
    exact wp_mono h (fun is t ht => wp_mono ht (fun r u hu => ⟨r, rfl, hu⟩) (fun _ _ h => h))
      (fun _ _ h => h)
  simp only [allocateFreeInodePage, wp_bind, wp_get, wp_ite]
  exact ⟨fun _ => hmap _ reads_mapped, fun _ => hmap _ reads_unmapped⟩

end InodePages

end SimpleFlashFs
