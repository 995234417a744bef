import Mathlib.Data.List.Basic
import Mathlib.Tactic.Common

namespace SimpleFlashFs.Lib

variable {α : Type} {sep : α} {k : ℕ} {text p rest : List α}

-- the first piece of a text: of at most k elements, a separator only at its end
structure Piece (sep : α) (k : ℕ) (text p rest : List α) : Prop where
  text : text = p ++ rest
  length_le : p.length ≤ k
  inside : sep ∉ p.dropLast
  short : p.length < k → p.getLast? ≠ some sep → rest = []

inductive Splits (sep : α) (k : ℕ) : List α → List (List α) → Prop
  | nil : Splits sep k [] []
  | cons {text p rest : List α} {ps : List (List α)} (hp : Piece sep k text p rest) (hs : Splits sep k rest ps) :
      Splits sep k text (p :: ps)

theorem Splits.flatten {ps : List (List α)} (h : Splits sep k text ps) : ps.flatten = text := by
  induction h with
  | nil => rfl
  | cons hp _ ih => rw [List.flatten_cons, ih, hp.text]

theorem Splits.piece {ps a b : List (List α)} (h : Splits sep k text ps) (hps : ps = a ++ p :: b) :
    Piece sep k (p ++ b.flatten) p b.flatten := by
  induction h generalizing a with
  | nil => simp at hps
  | @cons text q rest ps hp hs ih =>
    cases a with
    | nil =>
      obtain ⟨rfl, rfl⟩ := List.cons_eq_cons.mp hps
      rw [hs.flatten, ← hp.text]
      exact hp
    | cons x a => exact ih (List.cons_eq_cons.mp hps).2

theorem piece_of_sep {i : ℕ} (hi : i < k) (hsep : text[i]? = some sep) (hfirst : sep ∉ text.take i) :
    Piece sep k text (text.take (i + 1)) (text.drop (i + 1)) := by
  have hlt := (List.getElem?_eq_some_iff.mp hsep).1
  have hpiece : text.take (i + 1) = text.take i ++ [sep] := by
    rw [List.take_add_one, hsep]
    rfl
  refine ⟨(List.take_append_drop _ _).symm, ?_, ?_, fun _ hne => ?_⟩
  · rw [List.length_take]
    omega
  · rw [hpiece, List.dropLast_concat]
    exact hfirst
  · rw [hpiece, List.getLast?_concat] at hne
    exact absurd rfl hne

theorem piece_of_no_sep (hsep : sep ∉ text.take k) : Piece sep k text (text.take k) (text.drop k) := by
  refine ⟨(List.take_append_drop _ _).symm, List.length_take_le _ _, fun hm => hsep (List.dropLast_subset _ hm), fun hlt _ => ?_⟩
  rw [List.length_take] at hlt
  exact List.drop_eq_nil_of_le (by omega)

variable [DecidableEq α]

-- a reader that takes the first k elements and looks for a separator in them
theorem piece_of_findIdx {i : ℕ} (hi : (text.take k).findIdx? (· = sep) = some i) :
    i < (text.take k).length ∧ Piece sep k text (text.take (i + 1)) (text.drop (i + 1)) := by
  obtain ⟨hlt, hat, hbefore⟩ := List.findIdx?_eq_some_iff_getElem.mp hi
  have hik : i < k := Nat.lt_of_lt_of_le hlt (List.length_take_le _ _)
  have hsep : text[i]? = some sep := by
    rw [← of_decide_eq_true hat, List.getElem_take, ← List.getElem?_eq_getElem]
  refine ⟨hlt, piece_of_sep hik hsep fun hm => ?_⟩
  obtain ⟨j, hj⟩ := List.mem_iff_getElem?.mp hm
  have hji : j < i := Nat.lt_of_lt_of_le (List.getElem?_eq_some_iff.mp hj).1 (List.length_take_le _ _)
  rw [List.getElem?_take_of_lt hji] at hj
  have hjk := List.getElem?_take_of_lt (l := text) (Nat.lt_trans hji hik)
  rw [hj] at hjk
  exact hbefore j hji (decide_eq_true (List.getElem?_eq_some_iff.mp hjk).2)

theorem piece_of_findIdx_none (hi : (text.take k).findIdx? (· = sep) = none) :
    Piece sep k text (text.take k) (text.drop k) := by
  apply piece_of_no_sep
  intro hm
  exact absurd (List.findIdx?_eq_none_iff.mp hi sep hm) (by simp)

end SimpleFlashFs.Lib
