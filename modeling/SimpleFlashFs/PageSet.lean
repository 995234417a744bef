import Mathlib.Algebra.Group.Nat.Defs
import Mathlib.Data.List.Sort
import Mathlib.Data.List.Induction
import Mathlib.Tactic.Common

namespace SimpleFlashFs

def noData : ℕ := 2 ^ 32 - 1

structure PageSet where
  data : List ℕ := []
  unsorted : Bool := false
  unshrinked : Bool := false
deriving DecidableEq, Repr

namespace PageSet

def sort (s : PageSet) : PageSet :=
  { data := ((s.data.insertionSort (· ≤ ·)).reverse.dropWhile (· == noData)).reverse }

def unorderedInsert (s : PageSet) (value : ℕ) : PageSet :=
  { s with data := s.data ++ [value], unsorted := true }

def sortIfUnsorted (s : PageSet) : PageSet := if s.unsorted then s.sort else s

-- `seen` holds the elements before the iterator, last one first
def insertLoop (value : ℕ) : List ℕ → List ℕ → List ℕ
  | seen, [] => seen.reverse ++ [value]
  | seen, x :: xs =>
    if x = value then seen.reverse ++ x :: xs
    else if x = noData then insertLoop value (x :: seen) xs
    else if x > value then
      match seen with
      | prev :: before =>
        if prev = noData then before.reverse ++ value :: x :: xs
        else seen.reverse ++ value :: x :: xs
      | [] => value :: x :: xs
    else insertLoop value (x :: seen) xs

def insert (s : PageSet) (value : ℕ) : PageSet :=
  let t := s.sortIfUnsorted
  { t with data := insertLoop value [] t.data }

structure EraseResult where
  data : List ℕ
  unshrinked : Bool
  found : Bool

def eraseLoop (value : ℕ) : List ℕ → EraseResult
  | [] => ⟨[], false, false⟩
  | x :: xs =>
    if x = value then ⟨noData :: xs, true, true⟩
    else if x = noData then
      let r := eraseLoop value xs
      ⟨x :: r.data, true, r.found⟩
    else if x > value then ⟨x :: xs, false, false⟩
    else
      let r := eraseLoop value xs
      ⟨x :: r.data, r.unshrinked, r.found⟩

def erase (s : PageSet) (value : ℕ) : PageSet × ℕ :=
  let t := s.sortIfUnsorted
  let r := eraseLoop value t.data
  ({ t with data := r.data, unshrinked := t.unshrinked || r.unshrinked },
    if r.found then 1 else 0)

def eraseAt (s : PageSet) (index : ℕ) : PageSet :=
  { s with data := s.data.set index noData, unshrinked := true }

def countLoop (member : ℕ) : List ℕ → ℕ
  | [] => 0
  | x :: xs =>
    if x = member then 1
    else if x ≠ noData ∧ x > member then 0
    else countLoop member xs

def count (s : PageSet) (member : ℕ) : PageSet × ℕ :=
  let t := s.sortIfUnsorted
  (t, countLoop member t.data)

def sortIfDirty (s : PageSet) : PageSet := if s.unsorted || s.unshrinked then s.sort else s

def getData (s : PageSet) : PageSet × List ℕ := (s.sortIfDirty, s.sortIfDirty.data)

-- const: sorts a copy and cuts it off at the first tombstone
def getSortedData (s : PageSet) : List ℕ := (s.data.insertionSort (· ≤ ·)).takeWhile (· ≠ noData)

def clear (_ : PageSet) : PageSet := {}

def empty (s : PageSet) : PageSet × Bool := (s.sortIfDirty, s.sortIfDirty.data.isEmpty)

def size (s : PageSet) : PageSet × ℕ := (s.sortIfUnsorted, s.sortIfUnsorted.data.length)

def sizeConst (s : PageSet) : ℕ :=
  if s.unsorted = false ∧ s.unshrinked = false then s.data.length
  else s.data.countP (· ≠ noData)

def live (s : PageSet) : List ℕ := s.data.filter (· ≠ noData)

instance : Membership ℕ PageSet := ⟨fun s v => v ∈ s.live⟩

theorem mem_def {s : PageSet} {v : ℕ} : v ∈ s ↔ v ∈ s.live := Iff.rfl

theorem mem_iff {s : PageSet} {v : ℕ} : v ∈ s ↔ v ∈ s.data ∧ v ≠ noData := by
  simp [mem_def, live]

structure WF (s : PageSet) : Prop where
  nodup : s.live.Nodup
  sorted : s.unsorted = false → s.live.Pairwise (· < ·)
  shrinked : s.unshrinked = false → noData ∉ s.data
  bounded : ∀ v ∈ s.data, v ≤ noData

theorem wf_empty : WF {} := by
  constructor <;> simp [live]

@[simp] theorem not_mem_empty (v : ℕ) : v ∉ ({} : PageSet) := by
  simp [mem_iff]

section Sorting

variable {s : PageSet}

theorem reverse_dropWhile_eq (l : List ℕ) (hs : l.Pairwise (· ≤ ·)) (hb : ∀ v ∈ l, v ≤ noData) :
    (l.reverse.dropWhile (· == noData)).reverse = l.filter (· ≠ noData) := by
  induction l using List.reverseRecOn with
  | nil => rfl
  | append_singleton l a ih =>
    have hl := (List.pairwise_append.mp hs).1
    have hla := (List.pairwise_append.mp hs).2.2
    have hbl : ∀ v ∈ l, v ≤ noData := fun v hv => hb v (List.mem_append_left _ hv)
    by_cases ha : a = noData
    · simpa [ha, List.filter_append] using ih hl hbl
    · have hlt : ∀ v ∈ l, v ≠ noData := by
        intro v hv e
        have h1 := hla v hv a (by simp)
        have h2 := hb a (by simp)
        omega
      have hf : l.filter (· ≠ noData) = l := by simpa [List.filter_eq_self] using hlt
      simp only [List.reverse_append, List.reverse_cons, List.reverse_nil, List.nil_append,
        List.cons_append, List.filter_append, hf]
      simp [ha]

theorem sort_data (h : s.WF) : s.sort.data = (s.data.insertionSort (· ≤ ·)).filter (· ≠ noData) := by
  apply reverse_dropWhile_eq
  · exact List.pairwise_insertionSort (· ≤ ·) s.data
  · intro v hv
    exact h.bounded v ((List.perm_insertionSort (· ≤ ·) s.data).mem_iff.mp hv)

theorem live_sort (h : s.WF) : s.sort.live = s.sort.data := by
  rw [live, sort_data h, List.filter_filter]
  simp

theorem live_sort_perm (h : s.WF) : s.sort.live.Perm s.live := by
  rw [live_sort h, sort_data h]
  exact (List.perm_insertionSort (· ≤ ·) s.data).filter _

theorem mem_sort (h : s.WF) {v : ℕ} : v ∈ s.sort ↔ v ∈ s := (live_sort_perm h).mem_iff

theorem sort_sorted (h : s.WF) : s.sort.data.Pairwise (· < ·) := by
  have hle : s.sort.data.Pairwise (· ≤ ·) := by
    rw [sort_data h]
    exact (List.pairwise_insertionSort (· ≤ ·) s.data).filter _
  have hnd : s.sort.data.Nodup := by
    rw [← live_sort h]
    exact (live_sort_perm h).nodup_iff.mpr h.nodup
  exact hle.imp₂ (fun _ _ h1 h2 => lt_of_le_of_ne h1 h2) hnd

theorem noData_not_mem_sort (h : s.WF) : noData ∉ s.sort.data := by
  rw [sort_data h]
  simp

theorem sort_wf (h : s.WF) : s.sort.WF where
  nodup := (live_sort_perm h).nodup_iff.mpr h.nodup
  sorted _ := by
    rw [live_sort h]
    exact sort_sorted h
  shrinked _ := noData_not_mem_sort h
  bounded v hv := by
    rw [sort_data h] at hv
    exact h.bounded v ((List.perm_insertionSort (· ≤ ·) s.data).mem_iff.mp (List.mem_of_mem_filter hv))

theorem sortIfUnsorted_wf (h : s.WF) : s.sortIfUnsorted.WF := by
  unfold sortIfUnsorted
  split
  · exact sort_wf h
  · exact h

theorem sortIfUnsorted_unsorted : s.sortIfUnsorted.unsorted = false := by
  unfold sortIfUnsorted
  split
  · rfl
  · simp_all

theorem mem_sortIfUnsorted (h : s.WF) {v : ℕ} : v ∈ s.sortIfUnsorted ↔ v ∈ s := by
  unfold sortIfUnsorted
  split
  · exact mem_sort h
  · rfl

theorem sortIfDirty_wf (h : s.WF) : s.sortIfDirty.WF := by
  unfold sortIfDirty
  split
  · exact sort_wf h
  · exact h

theorem mem_sortIfDirty (h : s.WF) {v : ℕ} : v ∈ s.sortIfDirty ↔ v ∈ s := by
  unfold sortIfDirty
  split
  · exact mem_sort h
  · rfl

theorem noData_not_mem_sortIfDirty (h : s.WF) : noData ∉ s.sortIfDirty.data := by
  unfold sortIfDirty
  split
  · exact noData_not_mem_sort h
  · next hd => exact h.shrinked (by simp_all)

theorem mem_sortIfDirty_data (h : s.WF) {v : ℕ} : v ∈ s.sortIfDirty.data ↔ v ∈ s := by
  rw [← mem_sortIfDirty h, mem_iff]
  constructor
  · intro hv
    exact ⟨hv, fun e => noData_not_mem_sortIfDirty h (e ▸ hv)⟩
  · exact And.left

theorem sortIfDirty_sorted (h : s.WF) : s.sortIfDirty.data.Pairwise (· < ·) := by
  have hl : s.sortIfDirty.live = s.sortIfDirty.data := by
    rw [live, List.filter_eq_self]
    intro v hv
    have : v ≠ noData := fun e => noData_not_mem_sortIfDirty h (e ▸ hv)
    simpa using this
  rw [← hl]
  apply (sortIfDirty_wf h).sorted
  unfold sortIfDirty
  split
  · rfl
  · simp_all

end Sorting

section Insert

variable {s : PageSet}

theorem unorderedInsert_wf {v : ℕ} (h : s.WF) (hv : v < noData) (hn : v ∉ s) :
    (s.unorderedInsert v).WF where
  nodup := by
    have he : (s.unorderedInsert v).live = s.live ++ [v] := by
      simp [live, unorderedInsert, List.filter_append, hv.ne]
    rw [he, List.nodup_append]
    refine ⟨h.nodup, List.nodup_singleton v, ?_⟩
    rintro a ha b hb rfl
    rw [List.mem_singleton.mp hb] at ha
    exact hn ha
  sorted hu := by simp [unorderedInsert] at hu
  shrinked hu := by
    have := h.shrinked hu
    simp only [unorderedInsert, List.mem_append, List.mem_singleton]
    rintro (h1 | h1)
    · exact this h1
    · omega
  bounded w hw := by
    simp only [unorderedInsert, List.mem_append, List.mem_singleton] at hw
    rcases hw with hw | rfl
    · exact h.bounded w hw
    · exact hv.le

theorem mem_unorderedInsert {v w : ℕ} (hv : v < noData) :
    w ∈ s.unorderedInsert v ↔ w ∈ s ∨ w = v := by
  simp only [mem_iff, unorderedInsert, List.mem_append, List.mem_singleton]
  constructor
  · rintro ⟨h1 | h1, h2⟩
    · exact Or.inl ⟨h1, h2⟩
    · exact Or.inr h1
  · rintro (⟨h1, h2⟩ | rfl)
    · exact ⟨Or.inl h1, h2⟩
    · exact ⟨Or.inr rfl, hv.ne⟩

-- the live elements of the result, as a list: those below, the value, those above
theorem insertLoop_live {v : ℕ} (hv : v < noData) (seen rest : List ℕ)
    (hseen : ∀ x ∈ seen, x ≠ noData → x < v)
    (hrest : (rest.filter (· ≠ noData)).Pairwise (· < ·)) :
    (insertLoop v seen rest).filter (· ≠ noData) =
      (seen.reverse.filter (· ≠ noData)) ++
        ((rest.filter (· ≠ noData)).filter (· < v) ++ v :: (rest.filter (· ≠ noData)).filter (v < ·)) := by
  induction rest generalizing seen with
  | nil => simp [insertLoop, hv.ne]
  | cons x xs ih =>
    unfold insertLoop
    by_cases h1 : x = v
    · subst h1
      have hx : x ≠ noData := hv.ne
      rw [List.filter_cons_of_pos (by simpa using hx)] at hrest ⊢
      have hgt := (List.pairwise_cons.mp hrest).1
      have e1 : (xs.filter (· ≠ noData)).filter (· < x) = [] := by
        rw [List.filter_eq_nil_iff]
        intro a ha
        have := hgt a ha
        simp; omega
      have e2 : (xs.filter (· ≠ noData)).filter (x < ·) = xs.filter (· ≠ noData) := by
        rw [List.filter_eq_self]
        intro a ha
        simpa using hgt a ha
      rw [if_pos rfl, List.filter_append, List.filter_cons_of_pos (by simpa using hx),
        List.filter_cons_of_neg (by simp), e1, List.filter_cons_of_neg (by simp), e2, List.nil_append]
    · rw [if_neg h1]
      by_cases h2 : x = noData
      · rw [if_pos h2, ih (x :: seen)]
        · simp [h2]
        · intro y hy hne
          rcases List.mem_cons.mp hy with rfl | hy
          · exact absurd h2 hne
          · exact hseen y hy hne
        · rwa [List.filter_cons_of_neg (by simp [h2])] at hrest
      · rw [if_neg h2]
        rw [List.filter_cons_of_pos (by simpa using h2)] at hrest ⊢
        have hgt := (List.pairwise_cons.mp hrest).1
        by_cases h3 : x > v
        · have e1 : (xs.filter (· ≠ noData)).filter (· < v) = [] := by
            rw [List.filter_eq_nil_iff]
            intro a ha
            have := hgt a ha
            simp; omega
          have e2 : (xs.filter (· ≠ noData)).filter (v < ·) = xs.filter (· ≠ noData) := by
            rw [List.filter_eq_self]
            intro a ha
            have := hgt a ha
            simp; omega
          have e3 : ∀ l : List ℕ, (l ++ v :: x :: xs).filter (· ≠ noData) =
              l.filter (· ≠ noData) ++ v :: x :: xs.filter (· ≠ noData) := by
            intro l
            rw [List.filter_append, List.filter_cons_of_pos (by simpa using hv.ne),
              List.filter_cons_of_pos (by simpa using h2)]
          rw [if_pos h3, List.filter_cons_of_neg (by simp; omega), e1,
            List.filter_cons_of_pos (by simpa using h3), e2, List.nil_append]
          cases seen with
          | nil => simpa using e3 []
          | cons prev before =>
            dsimp only
            split
            · next hp => rw [e3]; simp [hp]
            · exact e3 _
        · rw [if_neg h3, ih (x :: seen)]
          · rw [List.filter_cons_of_pos (p := (· < v)) (by simp; omega),
              List.filter_cons_of_neg (p := (v < ·)) (by simp; omega)]
            simp [h2]
          · intro y hy hne
            rcases List.mem_cons.mp hy with rfl | hy
            · omega
            · exact hseen y hy hne
          · exact (List.pairwise_cons.mp hrest).2

theorem insertLoop_subset {v : ℕ} (seen rest : List ℕ) :
    ∀ x ∈ insertLoop v seen rest, x = v ∨ x ∈ seen ∨ x ∈ rest := by
  induction rest generalizing seen with
  | nil => intro x hx; simp [insertLoop] at hx; tauto
  | cons y ys ih =>
    intro x hx
    unfold insertLoop at hx
    split at hx
    · simp at hx ⊢; tauto
    · split at hx
      · rcases ih _ x hx with h | h | h
        · tauto
        · rcases List.mem_cons.mp h with rfl | h <;> simp [*]
        · simp [h]
      · split at hx
        · split at hx
          · split at hx <;> (simp at hx ⊢; tauto)
          · simp at hx ⊢; tauto
        · rcases ih _ x hx with h | h | h
          · tauto
          · rcases List.mem_cons.mp h with rfl | h <;> simp [*]
          · simp [h]

theorem insert_live {v : ℕ} (h : s.WF) (hv : v < noData) :
    (s.insert v).live = s.sortIfUnsorted.live.filter (· < v) ++
      v :: s.sortIfUnsorted.live.filter (v < ·) := by
  have hs := (sortIfUnsorted_wf h).sorted sortIfUnsorted_unsorted
  have hl := insertLoop_live hv [] s.sortIfUnsorted.data (by simp) hs
  simpa [live, insert] using hl

theorem mem_insert {v w : ℕ} (h : s.WF) (hv : v < noData) : w ∈ s.insert v ↔ w ∈ s ∨ w = v := by
  rw [← mem_sortIfUnsorted h, mem_def, mem_def, insert_live h hv]
  simp only [List.mem_append, List.mem_filter, List.mem_cons, decide_eq_true_eq]
  constructor
  · rintro (⟨h1, -⟩ | rfl | ⟨h1, -⟩) <;> tauto
  · rintro (h1 | rfl)
    · rcases lt_trichotomy w v with h2 | h2 | h2 <;> tauto
    · tauto

theorem insert_wf {v : ℕ} (h : s.WF) (hv : v < noData) : (s.insert v).WF := by
  have hs := (sortIfUnsorted_wf h).sorted sortIfUnsorted_unsorted
  have hsorted : (s.insert v).live.Pairwise (· < ·) := by
    rw [insert_live h hv, List.pairwise_append]
    refine ⟨hs.filter _, List.pairwise_cons.mpr ⟨?_, hs.filter _⟩, ?_⟩
    · intro a ha
      simpa using (List.mem_filter.mp ha).2
    · intro a ha b hb
      have h1 : a < v := by simpa using (List.mem_filter.mp ha).2
      rcases List.mem_cons.mp hb with rfl | hb
      · exact h1
      · have h2 : v < b := by simpa using (List.mem_filter.mp hb).2
        omega
  constructor
  · exact hsorted.imp (fun h => h.ne)
  · exact fun _ => hsorted
  · intro hu hm
    have hn := (sortIfUnsorted_wf h).shrinked hu
    rcases insertLoop_subset [] _ _ hm with h1 | h1 | h1
    · omega
    · simp at h1
    · exact hn h1
  · intro w hw
    rcases insertLoop_subset [] _ _ hw with h1 | h1 | h1
    · omega
    · simp at h1
    · exact (sortIfUnsorted_wf h).bounded w h1

end Insert

section Erase

variable {s : PageSet}

theorem eraseLoop_live {v : ℕ} (hv : v < noData) (l : List ℕ)
    (hl : (l.filter (· ≠ noData)).Pairwise (· < ·)) :
    (eraseLoop v l).data.filter (· ≠ noData) = (l.filter (· ≠ noData)).filter (· ≠ v) := by
  induction l with
  | nil => rfl
  | cons x xs ih =>
    unfold eraseLoop
    by_cases h1 : x = v
    · subst h1
      rw [List.filter_cons_of_pos (by simpa using hv.ne)] at hl ⊢
      have hgt := (List.pairwise_cons.mp hl).1
      rw [if_pos rfl, List.filter_cons_of_neg (by simp), List.filter_cons_of_neg (by simp), eq_comm,
        List.filter_eq_self]
      intro a ha
      have := hgt a ha
      simp; omega
    · rw [if_neg h1]
      by_cases h2 : x = noData
      · rw [List.filter_cons_of_neg (by simp [h2])] at hl
        rw [if_pos h2]
        simpa [h2] using ih hl
      · rw [if_neg h2]
        rw [List.filter_cons_of_pos (by simpa using h2)] at hl
        have hgt := (List.pairwise_cons.mp hl).1
        by_cases h3 : x > v
        · rw [if_pos h3, eq_comm, List.filter_eq_self]
          intro a ha
          rw [List.filter_cons_of_pos (by simpa using h2)] at ha
          rcases List.mem_cons.mp ha with rfl | ha
          · simpa using h1
          · have := hgt a ha
            simp; omega
        · have := ih (List.pairwise_cons.mp hl).2
          rw [if_neg h3]
          simpa [h1, h2] using this

theorem eraseLoop_subset {v : ℕ} (l : List ℕ) : ∀ x ∈ (eraseLoop v l).data, x = noData ∨ x ∈ l := by
  induction l with
  | nil => simp [eraseLoop]
  | cons y ys ih =>
    intro x hx
    unfold eraseLoop at hx
    split at hx
    · simp at hx ⊢; tauto
    · split at hx
      · rcases List.mem_cons.mp hx with rfl | hx
        · simp
        · have := ih x hx
          simp; tauto
      · split at hx
        · exact Or.inr hx
        · rcases List.mem_cons.mp hx with rfl | hx
          · simp
          · have := ih x hx
            simp; tauto

theorem eraseLoop_unshrinked {v : ℕ} (l : List ℕ) (hl : noData ∉ l)
    (hu : (eraseLoop v l).unshrinked = false) : noData ∉ (eraseLoop v l).data := by
  induction l with
  | nil => simp [eraseLoop]
  | cons x xs ih =>
    simp only [List.mem_cons, not_or] at hl
    unfold eraseLoop at hu ⊢
    by_cases h1 : x = v
    · simp [h1] at hu
    · rw [if_neg h1] at hu ⊢
      rw [if_neg (fun h => hl.1 h.symm)] at hu ⊢
      by_cases h3 : x > v
      · rw [if_pos h3]
        simp [hl]
      · rw [if_neg h3] at hu ⊢
        simp only [List.mem_cons, not_or]
        exact ⟨hl.1, ih hl.2 hu⟩

theorem erase_live {v : ℕ} (h : s.WF) (hv : v < noData) :
    (s.erase v).1.live = s.sortIfUnsorted.live.filter (· ≠ v) := by
  have hs := (sortIfUnsorted_wf h).sorted sortIfUnsorted_unsorted
  simpa [live, erase] using eraseLoop_live hv s.sortIfUnsorted.data hs

theorem mem_erase {v w : ℕ} (h : s.WF) (hv : v < noData) : w ∈ (s.erase v).1 ↔ w ∈ s ∧ w ≠ v := by
  rw [← mem_sortIfUnsorted h, mem_def, mem_def, erase_live h hv]
  simp

theorem erase_wf {v : ℕ} (h : s.WF) (hv : v < noData) : (s.erase v).1.WF := by
  have hs := (sortIfUnsorted_wf h).sorted sortIfUnsorted_unsorted
  have hsorted : (s.erase v).1.live.Pairwise (· < ·) := by
    rw [erase_live h hv]
    exact hs.filter _
  constructor
  · exact hsorted.imp (fun h => h.ne)
  · exact fun _ => hsorted
  · intro hu
    simp only [erase, Bool.or_eq_false_iff] at hu
    exact eraseLoop_unshrinked _ ((sortIfUnsorted_wf h).shrinked hu.1) hu.2
  · intro w hw
    rcases eraseLoop_subset _ _ hw with h1 | h1
    · omega
    · exact (sortIfUnsorted_wf h).bounded w h1

theorem eraseAt_live {i v : ℕ} (hi : s.data[i]? = some v) (hv : v ≠ noData) :
    s.live = (s.data.take i).filter (· ≠ noData) ++ v :: (s.data.drop (i + 1)).filter (· ≠ noData) ∧
      (s.eraseAt i).live = (s.data.take i).filter (· ≠ noData) ++ (s.data.drop (i + 1)).filter (· ≠ noData) := by
  obtain ⟨hlt, he⟩ := List.getElem?_eq_some_iff.mp hi
  have hsplit : s.data = s.data.take i ++ v :: s.data.drop (i + 1) := by
    rw [← he, ← List.drop_eq_getElem_cons, List.take_append_drop]
  constructor
  · rw [live]
    conv_lhs => rw [hsplit]
    rw [List.filter_append, List.filter_cons_of_pos (by simpa using hv)]
  · rw [live, eraseAt]
    dsimp only
    rw [List.set_eq_take_append_cons_drop, if_pos hlt, List.filter_append, List.filter_cons_of_neg (by simp)]

theorem eraseAt_mem (h : s.WF) {i v : ℕ} (hi : s.data[i]? = some v) (hv : v ≠ noData) {w : ℕ} :
    w ∈ s.eraseAt i ↔ w ∈ s ∧ w ≠ v := by
  obtain ⟨hold, hnew⟩ := eraseAt_live hi hv
  have hnd := h.nodup
  rw [hold, List.nodup_middle, List.nodup_cons] at hnd
  rw [mem_def, mem_def, hnew, hold, List.mem_append, List.mem_append, List.mem_cons]
  constructor
  · intro hw
    refine ⟨hw.imp_right Or.inr, ?_⟩
    rintro rfl
    exact hnd.1 (List.mem_append.mpr hw)
  · rintro ⟨hw | hw | hw, hne⟩
    · exact Or.inl hw
    · exact absurd hw hne
    · exact Or.inr hw

theorem eraseAt_wf {i : ℕ} (h : s.WF) : (s.eraseAt i).WF := by
  have hsub : (s.eraseAt i).live.Sublist s.live := by
    simp only [live, eraseAt]
    generalize s.data = l
    induction l generalizing i with
    | nil => simp
    | cons x xs ih =>
      cases i with
      | zero =>
        rw [List.set_cons_zero, List.filter_cons_of_neg (by simp)]
        exact (List.sublist_cons_self x xs).filter _
      | succ i =>
        rw [List.set_cons_succ, List.filter_cons, List.filter_cons]
        split
        · exact ih.cons_cons x
        · exact ih
  constructor
  · exact h.nodup.sublist hsub
  · exact fun hu => (h.sorted hu).sublist hsub
  · intro hu; simp [eraseAt] at hu
  · intro w hw
    rcases List.mem_or_eq_of_mem_set hw with h1 | h1
    · exact h.bounded w h1
    · omega

end Erase

theorem countLoop_eq {v : ℕ} (hv : v < noData) (l : List ℕ)
    (hl : (l.filter (· ≠ noData)).Pairwise (· < ·)) : countLoop v l = if v ∈ l then 1 else 0 := by
  induction l with
  | nil => rfl
  | cons x xs ih =>
    unfold countLoop
    by_cases h1 : x = v
    · simp [h1]
    · rw [if_neg h1]
      by_cases h2 : x = noData
      · rw [List.filter_cons_of_neg (by simp [h2])] at hl
        rw [if_neg (by tauto), ih hl]
        simp [Ne.symm h1]
      · rw [List.filter_cons_of_pos (by simpa using h2)] at hl
        have hgt := (List.pairwise_cons.mp hl).1
        by_cases h3 : x > v
        · have hx : v ∉ xs := by
            intro hm
            have := hgt v (List.mem_filter.mpr ⟨hm, by simpa using hv.ne⟩)
            omega
          rw [if_pos ⟨h2, h3⟩, if_neg (by simp [hx, Ne.symm h1])]
        · rw [if_neg (by tauto), ih (List.pairwise_cons.mp hl).2]
          simp [Ne.symm h1]

theorem count_eq {s : PageSet} {v : ℕ} (h : s.WF) (hv : v < noData) :
    (s.count v).2 = 0 ↔ v ∉ s := by
  have hs := (sortIfUnsorted_wf h).sorted sortIfUnsorted_unsorted
  simp only [count]
  rw [countLoop_eq hv _ hs, ← mem_sortIfUnsorted h, mem_iff]
  simp [hv.ne]

section Size

variable {s t : PageSet}

theorem sizeConst_eq (h : s.WF) : s.sizeConst = s.live.length := by
  unfold sizeConst
  split
  · next hd =>
    have hn := h.shrinked hd.2
    rw [live, List.filter_eq_self.mpr]
    intro v hv
    have hne : v ≠ noData := fun e => hn (e ▸ hv)
    simpa using hne
  · rw [live, List.countP_eq_length_filter]

theorem sizeConst_congr (hs : s.WF) (ht : t.WF) (h : ∀ q, q ∈ t ↔ q ∈ s) : t.sizeConst = s.sizeConst := by
  rw [sizeConst_eq hs, sizeConst_eq ht]
  exact ((List.perm_ext_iff_of_nodup ht.nodup hs.nodup).mpr h).length_eq

theorem sizeConst_eq_iff (hs : s.WF) (ht : t.WF) (h : ∀ q ∈ t, q ∈ s) :
    t.sizeConst = s.sizeConst ↔ ∀ q ∈ s, q ∈ t := by
  constructor
  · intro he q hq
    rw [sizeConst_eq hs, sizeConst_eq ht] at he
    have hperm := (List.subperm_of_subset ht.nodup h).perm_of_length_le he.ge
    exact hperm.mem_iff.mpr hq
  · exact fun hall => sizeConst_congr hs ht fun q => ⟨h q, hall q⟩

theorem sizeConst_of_erased {p : ℕ} (hs : s.WF) (ht : t.WF) (hp : p ∈ s)
    (h : ∀ q, q ∈ t ↔ q ∈ s ∧ q ≠ p) : t.sizeConst + 1 = s.sizeConst := by
  rw [sizeConst_eq hs, sizeConst_eq ht]
  have hperm : t.live.Perm (s.live.erase p) := by
    apply (List.perm_ext_iff_of_nodup ht.nodup (hs.nodup.erase p)).mpr
    intro q
    rw [hs.nodup.mem_erase_iff, and_comm]
    exact h q
  have hlen := List.length_erase_of_mem hp
  have hpos := List.length_pos_of_mem hp
  rw [hperm.length_eq]
  omega

theorem sizeConst_eq_zero (hs : s.WF) : s.sizeConst = 0 ↔ ∀ q, q ∉ s := by
  rw [sizeConst_eq hs, List.length_eq_zero_iff, List.eq_nil_iff_forall_not_mem]
  exact Iff.rfl

end Size

end PageSet

end SimpleFlashFs
