import Mathlib.Data.List.GetD
import SimpleFlashFs.Lib.ByteFile

namespace SimpleFlashFs.Lib

variable {α : Type} {z : α} {k l m d e : List α} {p n : ℕ}

-- l is k with d from position p on; behind its end k counts as continued with z
structure Patched (z : α) (k : List α) (p : ℕ) (d l : List α) : Prop where
  longer : k.length ≤ l.length
  covers : p + d.length ≤ l.length
  getD : ∀ i, l.getD i z = if p ≤ i ∧ i < p + d.length then d.getD (i - p) z else k.getD i z

theorem Patched.refl (hp : p ≤ k.length) : Patched z k p [] k where
  longer := le_rfl
  covers := by simpa using hp
  getD i := by
    rw [if_neg]
    simp only [List.length_nil]
    omega

theorem Patched.trans (a : Patched z k p d l) (b : Patched z l (p + d.length) e m) : Patched z k p (d ++ e) m where
  longer := a.longer.trans b.longer
  covers := by
    have := b.covers
    rw [List.length_append]
    omega
  getD i := by
    rw [b.getD, a.getD, List.length_append]
    by_cases hd : p ≤ i ∧ i < p + d.length
    · rw [if_neg (by omega), if_pos hd, if_pos (by omega), List.getD_append _ _ _ _ (by omega)]
    · rw [if_neg hd]
      by_cases he : p + d.length ≤ i ∧ i < p + d.length + e.length
      · rw [if_pos he, if_pos (by omega), List.getD_append_right _ _ _ _ (by omega), Nat.sub_sub]
      · rw [if_neg he, if_neg (by omega)]

theorem Patched.of_overwrite (h : p + d.length ≤ k.length) : Patched z k p d (overwrite k p d) where
  longer := (overwrite_length h).ge
  covers := by rw [overwrite_length h]; exact h
  getD i := by
    simp only [List.getD_eq_getElem?_getD, getElem?_overwrite h]
    by_cases h1 : i < p
    · rw [if_pos h1, if_neg (by omega)]
    · rw [if_neg h1]
      by_cases h2 : i < p + d.length
      · rw [if_pos h2, if_pos (by omega)]
      · rw [if_neg h2, if_neg (by omega)]

-- growing by z and then writing
theorem Patched.grown (a : Patched z (k ++ List.replicate n z) p d l) : Patched z k p d l where
  longer := by
    have := a.longer
    rw [List.length_append] at this
    omega
  covers := a.covers
  getD i := by
    rw [a.getD]
    have hgrown : (k ++ List.replicate n z).getD i z = k.getD i z := by
      by_cases hi : i < k.length
      · rw [List.getD_append _ _ _ _ hi]
      · rw [List.getD_append_right _ _ _ _ (by omega), List.getD_eq_default k z (by omega)]
        simp [List.getD_eq_getElem?_getD]
    rw [hgrown]

theorem take_eq_of_getD (hk : n ≤ k.length) (hl : n ≤ l.length) (h : ∀ i < n, l.getD i z = k.getD i z) :
    l.take n = k.take n := by
  apply List.ext_getElem
  · simp [hk, hl]
  · intro i hi hi'
    have hin : i < n := by
      rw [List.length_take] at hi
      omega
    have hat := h i hin
    rw [List.getD_eq_getElem _ _ (by omega), List.getD_eq_getElem _ _ (by omega)] at hat
    simpa using hat

-- the first n elements after the write
theorem Patched.take (a : Patched z k p d l) (hp : p ≤ n) (hn : n ≤ k.length) :
    l.take (max n (p + d.length)) = overwrite (k.take n) p d := by
  have hlen : (overwrite (k.take n) p d).length = max n (p + d.length) := by
    rw [overwrite_length_max (by simp; omega), List.length_take, Nat.min_eq_left hn]
  have hl : max n (p + d.length) ≤ l.length := max_le (hn.trans a.longer) a.covers
  have htake : (overwrite (k.take n) p d).take (max n (p + d.length)) = overwrite (k.take n) p d :=
    List.take_of_length_le hlen.le
  rw [← htake]
  apply take_eq_of_getD (z := z) hlen.ge hl
  intro i hi
  rw [a.getD]
  simp only [List.getD_eq_getElem?_getD]
  rw [getElem?_overwrite_of_le (by simp; omega)]
  by_cases h1 : i < p
  · rw [if_neg (by omega), if_pos h1, List.getElem?_take_of_lt (by omega)]
  · rw [if_neg h1]
    by_cases h2 : i < p + d.length
    · rw [if_pos (by omega), if_pos h2]
    · rw [if_neg (by omega), if_neg h2, List.getElem?_take_of_lt (by omega)]

section Pages

variable {ps : ℕ} {pages : List (List α)} {page : List α}

-- all pages are of one size
def Uniform (ps : ℕ) (pages : List (List α)) : Prop := ∀ page ∈ pages, page.length = ps

theorem Uniform.length (hu : Uniform ps pages) : pages.flatten.length = ps * pages.length := by
  induction pages with
  | nil => rfl
  | cons page pages ih =>
    have hpage := hu page List.mem_cons_self
    have hrest := ih fun q hq => hu q (List.mem_cons_of_mem _ hq)
    rw [List.flatten_cons, List.length_append, hpage, hrest, List.length_cons, Nat.mul_succ, Nat.add_comm]

theorem Uniform.slice (hu : Uniform ps pages) (hm : pages[n]? = some page) : slice pages.flatten (ps * n) ps = page := by
  induction pages generalizing n with
  | nil => cases hm
  | cons first pages ih =>
    have hfirst := hu first List.mem_cons_self
    cases n with
    | zero =>
      obtain rfl := Option.some_inj.mp hm
      simp [Lib.slice, hfirst]
    | succ n =>
      have hdrop : (first ++ pages.flatten).drop (ps * (n + 1)) = pages.flatten.drop (ps * n) := by
        rw [Nat.mul_succ, Nat.add_comm, ← hfirst, List.drop_length_add_append]
      have hrest := ih (fun q hq => hu q (List.mem_cons_of_mem _ hq)) (by simpa using hm)
      rw [List.flatten_cons, Lib.slice, hdrop]
      exact hrest

theorem Uniform.flatten_take (hu : Uniform ps pages) (n : ℕ) : (pages.take n).flatten = pages.flatten.take (ps * n) := by
  induction pages generalizing n with
  | nil => simp
  | cons first pages ih =>
    cases n with
    | zero => simp
    | succ n =>
      have hfirst := hu first List.mem_cons_self
      have hoff : ps * (n + 1) = first.length + ps * n := by rw [hfirst, Nat.mul_succ, Nat.add_comm]
      rw [List.take_succ_cons, List.flatten_cons, List.flatten_cons, ih fun q hq => hu q (List.mem_cons_of_mem _ hq), hoff,
        List.take_length_add_append]

theorem Uniform.set (hu : Uniform ps pages) (hpage : page.length = ps) (n : ℕ) : Uniform ps (pages.set n page) := by
  intro q hq
  rcases List.mem_or_eq_of_mem_set hq with hq | rfl
  · exact hu q hq
  · exact hpage

theorem Uniform.flatten_set (hu : Uniform ps pages) (hn : n < pages.length) (hpage : page.length = ps) :
    (pages.set n page).flatten = overwrite pages.flatten (ps * n) page := by
  induction pages generalizing n with
  | nil => cases hn
  | cons first pages ih =>
    have hfirst := hu first List.mem_cons_self
    have htail : Uniform ps pages := fun q hq => hu q (List.mem_cons_of_mem _ hq)
    cases n with
    | zero => simp [overwrite, hfirst, hpage]
    | succ n =>
      have hoff : ps * (n + 1) = first.length + ps * n := by rw [hfirst, Nat.mul_succ, Nat.add_comm]
      rw [List.set_cons_succ, List.flatten_cons, ih htail (by simpa using hn), List.flatten_cons, hoff]
      simp [overwrite, Nat.add_assoc, List.append_assoc, List.take_length_add_append]

-- a part of one page written back
theorem Uniform.flatten_patch (hu : Uniform ps pages) (hm : pages[n]? = some page) {start : ℕ}
    (hd : start + d.length ≤ ps) :
    (pages.set n (overwrite page start d)).flatten = overwrite pages.flatten (ps * n + start) d := by
  have hlen : page.length = ps := hu page (List.mem_of_getElem? hm)
  have hn : n < pages.length := (List.getElem?_eq_some_iff.mp hm).1
  have hfit : ps * n + ps ≤ pages.flatten.length := by
    have := Nat.mul_le_mul_left ps (show n + 1 ≤ pages.length from hn)
    rw [hu.length]
    rwa [Nat.mul_succ] at this
  have hback : overwrite pages.flatten (ps * n) page = pages.flatten := by
    rw [← hu.slice hm]
    exact overwrite_slice hfit
  rw [hu.flatten_set hn (by rw [overwrite_length]; exact hlen; omega),
    ← overwrite_overwrite_inside (by omega) (by omega), hback]

theorem flatten_append_replicate (pages : List (List α)) (n : ℕ) :
    (pages ++ List.replicate n (List.replicate ps z)).flatten = pages.flatten ++ List.replicate (n * ps) z := by
  simp

end Pages

end SimpleFlashFs.Lib
