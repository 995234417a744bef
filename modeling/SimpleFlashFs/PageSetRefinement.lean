import SimpleFlashFs.PageSet
import SimpleFlashFs.Lib.Refinement
import Mathlib.Data.Finset.Sort

namespace SimpleFlashFs

open Lib

namespace PageSet

variable {s : PageSet} {v : ℕ}

-- a call of a page set; an iterator to an element is named by its element
inductive Op
  | insert (value : ℕ)
  | erase (value : ℕ)
  | eraseIterator (value : ℕ)
  | unorderedInsert (value : ℕ)
  | count (member : ℕ)
  | empty
  | getData
  | getSortedData
  | clear
deriving DecidableEq

inductive Answer
  | done
  | number (n : ℕ)
  | flag (b : Bool)
  | elements (l : List ℕ)
deriving DecidableEq

def call (s : PageSet) : Op → Answer × PageSet
  | .insert value => (.done, s.insert value)
  | .erase value => (.number (s.erase value).2, (s.erase value).1)
  | .eraseIterator value => (.done, s.eraseAt (s.data.idxOf value))
  | .unorderedInsert value => (.done, s.unorderedInsert value)
  | .count member => (.number (s.count member).2, (s.count member).1)
  | .empty => (.flag s.empty.2, s.empty.1)
  | .getData => (.elements s.getData.2, s.getData.1)
  | .getSortedData => (.elements s.getSortedData, s)
  | .clear => (.done, s.clear)

-- the same calls of a finite set
def callSet (S : Finset ℕ) : Op → Answer × Finset ℕ
  | .insert value => (.done, Insert.insert value S)
  | .erase value => (.number (if value ∈ S then 1 else 0), S.erase value)
  | .eraseIterator value => (.done, S.erase value)
  | .unorderedInsert value => (.done, Insert.insert value S)
  | .count member => (.number (if member ∈ S then 1 else 0), S)
  | .empty => (.flag (S = ∅), S)
  | .getData => (.elements S.sort, S)
  | .getSortedData => (.elements S.sort, S)
  | .clear => (.done, ∅)

-- the values are pages; an iterator is one to a live element, an unordered insert is one of a new value
def Legal (S : Finset ℕ) : Op → Prop
  | .insert value => value < noData
  | .erase value => value < noData
  | .eraseIterator value => value ∈ S
  | .unorderedInsert value => value < noData ∧ value ∉ S
  | .count member => member < noData
  | .empty | .getData | .getSortedData | .clear => True

instance (S : Finset ℕ) (op : Op) : Decidable (Legal S op) := by
  cases op <;> unfold Legal <;> infer_instance

structure Represents (s : PageSet) (S : Finset ℕ) : Prop where
  wf : s.WF
  mem_iff : ∀ v, v ∈ s ↔ v ∈ S

theorem represents_empty : Represents {} ∅ := ⟨wf_empty, fun v => by simp⟩

theorem sort_eq_of_mem {l : List ℕ} {S : Finset ℕ} (hl : l.Pairwise (· < ·)) (hm : ∀ v, v ∈ l ↔ v ∈ S) : l = S.sort := by
  have hle : l.Pairwise (· ≤ ·) := hl.imp fun h => h.le
  have hnd : l.Nodup := hl.imp fun h => h.ne
  have hS : l.toFinset = S := by
    ext v
    rw [List.mem_toFinset]
    exact hm v
  rw [← hS]
  exact ((List.toFinset_sort (· ≤ ·) hnd).mpr hle).symm

theorem takeWhile_eq_filter {l : List ℕ} (hl : l.Pairwise (· ≤ ·)) (hb : ∀ v ∈ l, v ≤ noData) :
    l.takeWhile (· ≠ noData) = l.filter (· ≠ noData) := by
  induction l with
  | nil => rfl
  | cons x l ih =>
    obtain ⟨hx, hl⟩ := List.pairwise_cons.mp hl
    by_cases hxn : x = noData
    · have hall : ∀ v ∈ l, v = noData := by
        intro v hv
        have h1 := hx v hv
        have h2 := hb v (List.mem_cons_of_mem x hv)
        omega
      rw [List.takeWhile_cons_of_neg (by simpa using hxn), List.filter_cons_of_neg (by simpa using hxn), eq_comm,
        List.filter_eq_nil_iff]
      intro v hv
      simpa using hall v hv
    · rw [List.takeWhile_cons_of_pos (by simpa using hxn), List.filter_cons_of_pos (by simpa using hxn),
        ih hl fun v hv => hb v (List.mem_cons_of_mem x hv)]

theorem getSortedData_eq (h : s.WF) : s.getSortedData = s.sort.data := by
  rw [getSortedData, sort_data h]
  apply takeWhile_eq_filter
  · exact List.pairwise_insertionSort (· ≤ ·) s.data
  · intro v hv
    exact h.bounded v ((List.perm_insertionSort (· ≤ ·) s.data).mem_iff.mp hv)

theorem mem_sort_data (h : s.WF) : v ∈ s.sort.data ↔ v ∈ s := by
  rw [← live_sort h]
  exact mem_sort h

theorem eraseLoop_found (hv : v < noData) (l : List ℕ) (hl : (l.filter (· ≠ noData)).Pairwise (· < ·)) :
    (eraseLoop v l).found = true ↔ v ∈ l := by
  induction l with
  | nil => simp [eraseLoop]
  | cons x l ih =>
    rw [eraseLoop]
    by_cases hx : x = v
    · rw [if_pos hx]
      simp [hx]
    · rw [if_neg hx]
      by_cases hn : x = noData
      · rw [List.filter_cons_of_neg (by simpa using hn)] at hl
        rw [if_pos hn]
        simpa [Ne.symm hx] using ih hl
      · rw [List.filter_cons_of_pos (by simpa using hn)] at hl
        obtain ⟨hgt, hl⟩ := List.pairwise_cons.mp hl
        rw [if_neg hn]
        by_cases hxv : x > v
        · have hnot : v ∉ l := by
            intro hm
            have hlt := hgt v (List.mem_filter.mpr ⟨hm, by simpa using hv.ne⟩)
            omega
          rw [if_pos hxv]
          simp [hnot, Ne.symm hx]
        · rw [if_neg hxv]
          simpa [Ne.symm hx] using ih hl

theorem Represents.mem_data {S : Finset ℕ} (h : Represents s S) (hv : v < noData) : v ∈ s.sortIfUnsorted.data ↔ v ∈ S := by
  rw [← h.mem_iff, ← mem_sortIfUnsorted h.wf, PageSet.mem_iff]
  exact (and_iff_left hv.ne).symm

theorem Represents.erase_count {S : Finset ℕ} (h : Represents s S) (hv : v < noData) :
    (s.erase v).2 = if v ∈ S then 1 else 0 := by
  have hs := (sortIfUnsorted_wf h.wf).sorted sortIfUnsorted_unsorted
  have hf := (eraseLoop_found hv s.sortIfUnsorted.data hs).trans (h.mem_data hv)
  rw [erase]
  dsimp only
  by_cases hin : v ∈ S
  · rw [if_pos hin, if_pos (hf.mpr hin)]
  · rw [if_neg hin, if_neg fun hfound => hin (hf.mp hfound)]

theorem Represents.count {S : Finset ℕ} (h : Represents s S) (hv : v < noData) :
    (s.count v).2 = if v ∈ S then 1 else 0 := by
  have hs := (sortIfUnsorted_wf h.wf).sorted sortIfUnsorted_unsorted
  rw [PageSet.count]
  dsimp only
  rw [countLoop_eq hv _ hs]
  exact if_congr (h.mem_data hv) rfl rfl

theorem Represents.getData {S : Finset ℕ} (h : Represents s S) : s.getData.2 = S.sort := by
  apply sort_eq_of_mem (sortIfDirty_sorted h.wf)
  intro v
  rw [mem_sortIfDirty_data h.wf, h.mem_iff]

theorem Represents.getSortedData {S : Finset ℕ} (h : Represents s S) : s.getSortedData = S.sort := by
  rw [getSortedData_eq h.wf]
  apply sort_eq_of_mem (sort_sorted h.wf)
  intro v
  rw [mem_sort_data h.wf, h.mem_iff]

theorem Represents.empty {S : Finset ℕ} (h : Represents s S) : s.empty.2 = decide (S = ∅) := by
  have he : s.sortIfDirty.data = [] ↔ S = ∅ := by
    rw [List.eq_nil_iff_forall_not_mem, Finset.eq_empty_iff_forall_notMem]
    apply forall_congr'
    intro v
    rw [mem_sortIfDirty_data h.wf, h.mem_iff]
  rw [PageSet.empty, Bool.eq_iff_iff, List.isEmpty_iff, decide_eq_true_iff]
  exact he

theorem Represents.idxOf {S : Finset ℕ} (h : Represents s S) (hv : v ∈ S) :
    s.data[s.data.idxOf v]? = some v ∧ v ≠ noData := by
  obtain ⟨hm, hne⟩ := PageSet.mem_iff.mp ((h.mem_iff v).mpr hv)
  exact ⟨List.getElem?_idxOf hm, hne⟩

-- a step of the page set is the step of the set that it represents
theorem simulates : Simulates call callSet Legal Represents where
  answer s S op hr hl := by
    cases op with
    | insert value => rfl
    | erase value => exact congrArg Answer.number (hr.erase_count hl)
    | eraseIterator value => rfl
    | unorderedInsert value => rfl
    | count member => exact congrArg Answer.number (hr.count hl)
    | empty => exact congrArg Answer.flag hr.empty
    | getData => exact congrArg Answer.elements hr.getData
    | getSortedData => exact congrArg Answer.elements hr.getSortedData
    | clear => rfl
  related s S op hr hl := by
    cases op with
    | insert value =>
      refine ⟨insert_wf hr.wf hl, fun v => ?_⟩
      rw [call, callSet, mem_insert hr.wf hl, hr.mem_iff, Finset.mem_insert, or_comm]
    | erase value =>
      refine ⟨erase_wf hr.wf hl, fun v => ?_⟩
      rw [call, callSet, mem_erase hr.wf hl, hr.mem_iff, Finset.mem_erase, and_comm]
    | eraseIterator value =>
      obtain ⟨hi, hne⟩ := hr.idxOf hl
      refine ⟨eraseAt_wf hr.wf, fun v => ?_⟩
      rw [call, callSet, eraseAt_mem hr.wf hi hne, hr.mem_iff, Finset.mem_erase, and_comm]
    | unorderedInsert value =>
      refine ⟨unorderedInsert_wf hr.wf hl.1 fun hm => hl.2 ((hr.mem_iff value).mp hm), fun v => ?_⟩
      rw [call, callSet, mem_unorderedInsert hl.1, hr.mem_iff, Finset.mem_insert, or_comm]
    | count member => exact ⟨sortIfUnsorted_wf hr.wf, fun v => (mem_sortIfUnsorted hr.wf).trans (hr.mem_iff v)⟩
    | empty => exact ⟨sortIfDirty_wf hr.wf, fun v => (mem_sortIfDirty hr.wf).trans (hr.mem_iff v)⟩
    | getData => exact ⟨sortIfDirty_wf hr.wf, fun v => (mem_sortIfDirty hr.wf).trans (hr.mem_iff v)⟩
    | getSortedData => exact hr
    | clear => exact represents_empty

-- the page set after a sequence of calls, and the set that it stands for
def reached (ops : List Op) : PageSet := (answers call {} ops).2

def reachedSet (ops : List Op) : Finset ℕ := (answers callSet ∅ ops).2

theorem represents_reached {ops : List Op} (hl : Permitted callSet Legal ∅ ops) : Represents (reached ops) (reachedSet ops) :=
  (simulates.answers_eq ops represents_empty hl).2

theorem answers_refine_finset (ops : List Op) (hl : Permitted callSet Legal ∅ ops) :
    (answers call {} ops).1 = (answers callSet ∅ ops).1 ∧ ∀ v, v ∈ reached ops ↔ v ∈ reachedSet ops := by
  obtain ⟨hanswers, hrep⟩ := simulates.answers_eq ops represents_empty hl
  exact ⟨hanswers, hrep.mem_iff⟩

def tombstonesBetween : List Op :=
  [.unorderedInsert 9, .unorderedInsert 4, .insert 6, .erase 4, .insert 5, .eraseIterator 9, .insert 6, .count 9, .getSortedData,
    .getData, .empty]

theorem answers_refine_finset_tombstones :
    (answers call {} tombstonesBetween).1 = (answers callSet ∅ tombstonesBetween).1 ∧
      ∀ v, v ∈ reached tombstonesBetween ↔ v ∈ reachedSet tombstonesBetween :=
  answers_refine_finset tombstonesBetween (by decide)

section Size

variable {S : Finset ℕ}

theorem Represents.live_length (h : Represents s S) : s.live.length = S.card := by
  have hS : s.live.toFinset = S := by
    ext v
    rw [List.mem_toFinset]
    exact h.mem_iff v
  rw [← hS, List.toFinset_card_of_nodup h.wf.nodup]

theorem live_length_iff : s.data.length = s.live.length ↔ noData ∉ s.data := by
  rw [live, eq_comm, List.length_filter_eq_length_iff]
  constructor
  · intro hall hm
    have hne := hall noData hm
    simp at hne
  · intro hm v hv
    have hne : v ≠ noData := fun e => hm (e ▸ hv)
    simpa using hne

theorem Represents.sort (h : Represents s S) : Represents s.sort S :=
  ⟨sort_wf h.wf, fun v => (mem_sort h.wf).trans (h.mem_iff v)⟩

theorem Represents.sortIfDirty (h : Represents s S) : Represents s.sortIfDirty S :=
  ⟨sortIfDirty_wf h.wf, fun v => (mem_sortIfDirty h.wf).trans (h.mem_iff v)⟩

-- size sorts what is flagged as unsorted, and counts the tombstones of what is not
theorem Represents.size_iff (h : Represents s S) : s.size.2 = S.card ↔ s.unsorted = true ∨ noData ∉ s.data := by
  rw [size, sortIfUnsorted]
  dsimp only
  by_cases hu : s.unsorted = true
  · rw [if_pos hu, ← h.sort.live_length, live_length_iff]
    exact iff_of_true (noData_not_mem_sort h.wf) (Or.inl hu)
  · rw [if_neg hu, ← h.live_length, live_length_iff]
    exact (or_iff_right hu).symm

theorem Represents.sizeConst (h : Represents s S) : s.sizeConst = S.card := by
  rw [sizeConst_eq h.wf, h.live_length]

-- after empty there is nothing that size could count wrongly
theorem Represents.size_after_empty (h : Represents s S) : s.empty.1.size.2 = S.card :=
  h.sortIfDirty.size_iff.mpr (Or.inr (noData_not_mem_sortIfDirty h.wf))

theorem size_law (ops : List Op) (hl : Permitted callSet Legal ∅ ops) :
    ((reached ops).size.2 = (reached ops).sizeConst ∧ (reached ops).sizeConst = (reachedSet ops).card ↔
      (reached ops).unsorted = true ∨ noData ∉ (reached ops).data) ∧
    (reached ops).sizeConst = (reachedSet ops).card ∧ (reached ops).empty.1.size.2 = (reachedSet ops).card := by
  have h := represents_reached hl
  refine ⟨?_, h.sizeConst, h.size_after_empty⟩
  rw [h.sizeConst, and_iff_left rfl]
  exact h.size_iff

-- the calls of a mount that finds the pages 4 and 5 in use
def mountCalls : List Op :=
  [.clear, .unorderedInsert 4, .unorderedInsert 5, .unorderedInsert 6, .unorderedInsert 7, .erase 4, .erase 5]

theorem size_law_mount :
    ((reached mountCalls).size.2 = (reached mountCalls).sizeConst ∧
        (reached mountCalls).sizeConst = (reachedSet mountCalls).card ↔
      (reached mountCalls).unsorted = true ∨ noData ∉ (reached mountCalls).data) ∧
    (reached mountCalls).sizeConst = (reachedSet mountCalls).card ∧
      (reached mountCalls).empty.1.size.2 = (reachedSet mountCalls).card :=
  size_law mountCalls (by decide)

theorem size_counts_tombstones : Permitted callSet Legal ∅ mountCalls ∧
    ((reached mountCalls).size.2, (reached mountCalls).sizeConst, (reachedSet mountCalls).card) = (4, 2, 2) := by
  decide

end Size

end PageSet

end SimpleFlashFs
