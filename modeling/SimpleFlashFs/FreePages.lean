import SimpleFlashFs.Allocation
import SimpleFlashFs.PageSetRefinement

namespace SimpleFlashFs

open Lib

open PageSet (Represents reached reachedSet represents_reached callSet Legal)

variable {s : Fs} {S : Finset ℕ}

-- one element of the free set is handed out, and the others stay
structure Pops (S : Finset ℕ) (r : Option ℕ) (t : Fs) : Prop where
  none_iff : r = none ↔ S = ∅
  live : ∀ p, r = some p → p ∈ S ∧ p ≠ noData
  mem_iff : ∀ q, q ∈ t.freeDataPages ↔ q ∈ S ∧ r ≠ some q

theorem TakesFree.pops {t : Fs} {r : Option ℕ} (h : TakesFree s t r) (hS : Represents s.freeDataPages S) : Pops S r t where
  none_iff := by
    constructor
    · intro hr
      rw [Finset.eq_empty_iff_forall_notMem]
      intro q hq
      exact h.exhausted hr q ((hS.mem_iff q).mpr hq)
    · intro he
      rw [Option.eq_none_iff_forall_ne_some]
      intro p hp
      have hm := (hS.mem_iff p).mp (h.taken p hp)
      rw [he] at hm
      exact Finset.notMem_empty p hm
  live p hp := by
    have hm := h.taken p hp
    exact ⟨(hS.mem_iff p).mp hm, (PageSet.mem_iff.mp hm).2⟩
  mem_iff q := by rw [h.mem_iff, hS.mem_iff]

theorem head_smallest {f : PageSet} {p : ℕ} (h : Represents f S) (hp : f.sortIfDirty.data[0]? = some p) :
    ∀ q ∈ S, p ≤ q := by
  intro q hq
  have hsorted := PageSet.sortIfDirty_sorted h.wf
  have hm := (PageSet.mem_sortIfDirty_data h.wf).mpr ((h.mem_iff q).mpr hq)
  cases hl : f.sortIfDirty.data with
  | nil =>
    rw [hl] at hm
    cases hm
  | cons x l =>
    rw [hl] at hp hm hsorted
    obtain rfl : x = p := by simpa using hp
    rcases List.mem_cons.mp hm with rfl | hm
    · exact le_refl q
    · exact ((List.pairwise_cons.mp hsorted).1 q hm).le

theorem allocateFreeDataPageBase_smallest (hS : Represents s.freeDataPages S) :
    wp allocateFreeDataPageBase (fun r _ => ∀ p, r = some p → ∀ q ∈ S, p ≤ q) (fun _ _ => False) s := by
  simp only [allocateFreeDataPageBase, freeDataPagesEmpty, PageSet.empty, wp_bind, wp_get, wp_set, wp_pure, wp_ite,
    eraseFreeDataPageAt, wp_modify]
  constructor
  · intro _ p hp
    cases hp
  · intro _ p hp
    exact head_smallest hS hp

theorem sortIfDirty_sortIfUnsorted (f : PageSet) : f.sortIfDirty.sortIfUnsorted = f.sortIfDirty := by
  have h : f.sortIfDirty.unsorted = false := by
    unfold PageSet.sortIfDirty
    split
    · rfl
    · simp_all
  rw [PageSet.sortIfUnsorted, h]
  rfl

-- the draw of a page's index is the page
theorem allocateFreeDataPageFram_draws (hS : Represents s.freeDataPages S) {p : ℕ} (hp : p ∈ S) :
    ∃ rng t, allocateFreeDataPageFram { s with rng := rng } = .ok (some p) t := by
  have hm := (PageSet.mem_sortIfDirty_data hS.wf).mpr ((hS.mem_iff p).mpr hp)
  obtain ⟨k, hk, hkp⟩ := List.mem_iff_getElem.mp hm
  have hne : ¬ s.freeDataPages.sortIfDirty.data = [] := List.ne_nil_of_mem hm
  have hdraw : wp allocateFreeDataPageFram (fun r _ => r = some p) (fun _ _ => False) { s with rng := fun _ => k } := by
    simp only [allocateFreeDataPageFram, freeDataPagesEmpty, PageSet.empty, PageSet.size, draw, wp_bind, wp_get, wp_set,
      wp_pure, wp_ite, List.isEmpty_iff, eraseFreeDataPageAt, wp_modify, sortIfDirty_sortIfUnsorted, hne, false_imp_iff,
      not_false_iff, true_imp_iff, true_and, Nat.mod_eq_of_lt hk]
    rw [List.getElem?_eq_getElem hk, hkp]
  obtain ⟨r, t, hrun, rfl⟩ := returns_of_wp hdraw
  exact ⟨fun _ => k, t, hrun⟩

theorem allocators_pop (ops : List PageSet.Op) (s : Fs) (hl : Permitted callSet Legal ∅ ops)
    (hs : s.freeDataPages = reached ops) :
    (∃ r t, allocateFreeDataPageBase s = .ok r t ∧ Pops (reachedSet ops) r t ∧ ∀ p, r = some p → ∀ q ∈ reachedSet ops, p ≤ q) ∧
    (∃ r t, allocateFreeDataPageFram s = .ok r t ∧ Pops (reachedSet ops) r t) ∧
    ∀ p ∈ reachedSet ops, ∃ rng t, allocateFreeDataPageFram { s with rng := rng } = .ok (some p) t := by
  have hS : Represents s.freeDataPages (reachedSet ops) := by
    rw [hs]
    exact represents_reached hl
  refine ⟨?_, ?_, fun p hp => allocateFreeDataPageFram_draws hS hp⟩
  · have h := wp_and (wp_allocateFreeDataPageBase hS.wf fun _ _ => False) (allocateFreeDataPageBase_smallest hS)
    obtain ⟨r, t, hrun, htakes, hsmallest⟩ := returns_of_wp (wp_mono h (fun _ _ h => h) fun _ _ h => h.1)
    exact ⟨r, t, hrun, htakes.pops hS, hsmallest⟩
  · obtain ⟨r, t, hrun, htakes⟩ := returns_of_wp (wp_allocateFreeDataPageFram hS.wf fun _ _ => False)
    exact ⟨r, t, hrun, htakes.pops hS⟩

-- the free pages of a file system that found 4 and 5 in use
def usedPagesFs : Fs := { variant := .fram, mem := { bytes := [] }, freeDataPages := reached PageSet.mountCalls }

theorem allocators_pop_usedPages :
    (∃ r t, allocateFreeDataPageBase usedPagesFs = .ok r t ∧ Pops (reachedSet PageSet.mountCalls) r t ∧
      ∀ p, r = some p → ∀ q ∈ reachedSet PageSet.mountCalls, p ≤ q) ∧
    (∃ r t, allocateFreeDataPageFram usedPagesFs = .ok r t ∧ Pops (reachedSet PageSet.mountCalls) r t) ∧
    ∀ p ∈ reachedSet PageSet.mountCalls, ∃ rng t, allocateFreeDataPageFram { usedPagesFs with rng := rng } = .ok (some p) t :=
  allocators_pop PageSet.mountCalls usedPagesFs (by decide) rfl

end SimpleFlashFs
