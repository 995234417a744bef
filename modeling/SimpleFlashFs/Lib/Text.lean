import Mathlib.Data.List.Basic
import Mathlib.Data.List.DropRight
import Mathlib.Tactic.Common

namespace SimpleFlashFs.Lib

variable {α : Type}

def strip (p : α → Bool) (l : List α) : List α := (l.dropWhile p).rdropWhile p

section Strip

variable {p : α → Bool} {a b l : List α} {e : α}

end Strip

section Lines

variable [DecidableEq α]

-- the lines that a reader finds up to the end: the last one may lack its separator
def lines (sep : α) : List α → List (List α)
  | [] => []
  | c :: rest =>
    if c = sep then [] :: lines sep rest
    else
      match lines sep rest with
      | [] => [[c]]
      | l :: ls => (c :: l) :: ls

-- a place where a line can be put in
def LineStart (sep : α) (a : List α) : Prop := ∀ c ∈ a.getLast?, c = sep

variable {sep : α} {a b l : List α}

instance : Decidable (LineStart sep a) := inferInstanceAs (Decidable (∀ c ∈ a.getLast?, c = sep))

theorem lines_line_append (hl : sep ∉ l) : lines sep (l ++ sep :: b) = l :: lines sep b := by
  induction l with
  | nil => simp [lines]
  | cons c l ih =>
    obtain ⟨hc, hl⟩ := not_or.mp (mt List.mem_cons.mpr hl)
    rw [List.cons_append, lines, if_neg (Ne.symm hc), ih hl]

theorem lines_line (hl : sep ∉ l) (hne : l ≠ []) : lines sep l = [l] := by
  induction l with
  | nil => exact absurd rfl hne
  | cons c l ih =>
    obtain ⟨hc, hl⟩ := not_or.mp (mt List.mem_cons.mpr hl)
    rw [lines, if_neg (Ne.symm hc)]
    cases l with
    | nil => rfl
    | cons d l => rw [ih hl (List.cons_ne_nil _ _)]

omit [DecidableEq α] in
theorem LineStart.append (ha : LineStart sep a) (hb : LineStart sep b) : LineStart sep (a ++ b) := by
  intro c hc
  rw [List.getLast?_append] at hc
  cases hlast : b.getLast? with
  | none =>
    rw [hlast] at hc
    exact ha c hc
  | some d =>
    rw [hlast] at hc
    exact hb c (hlast ▸ hc)

omit [DecidableEq α] in
theorem LineStart.right (h : LineStart sep (a ++ b)) : LineStart sep b := by
  intro c hc
  apply h c
  rw [List.getLast?_append, Option.mem_def.mp hc]
  rfl

theorem lines_append (h : LineStart sep a) : lines sep (a ++ b) = lines sep a ++ lines sep b := by
  induction a with
  | nil => rfl
  | cons c a ih =>
    cases a with
    | nil =>
      have hc : c = sep := h c rfl
      simp [lines, hc]
    | cons d a =>
      have hrest : LineStart sep (d :: a) := fun x hx => h x (by rwa [List.getLast?_cons_cons])
      rw [List.cons_append, lines, lines, ih hrest]
      split
      · rfl
      · cases hd : lines sep (d :: a) with
        | nil =>
          rw [lines] at hd
          split at hd
          · cases hd
          · split at hd <;> cases hd
        | cons l ls => rfl

-- the first line of a text, piece is the line with its separator
structure Cut (sep : α) (text l piece rest : List α) : Prop where
  text : text = piece ++ rest
  notMem : sep ∉ l
  ends : piece = l ++ [sep] ∨ piece = l ∧ l ≠ [] ∧ rest = []

variable {text piece rest : List α}

theorem exists_cut (sep : α) (h : text ≠ []) : ∃ l piece rest, Cut sep text l piece rest := by
  by_cases hs : sep ∈ text
  · obtain ⟨l, b, rfl, hl⟩ := List.eq_append_cons_of_mem hs
    exact ⟨l, l ++ [sep], b, by simp, hl, Or.inl rfl⟩
  · exact ⟨text, text, [], (List.append_nil _).symm, hs, Or.inr ⟨rfl, h, rfl⟩⟩

namespace Cut

omit [DecidableEq α] in
theorem piece_ne (h : Cut sep text l piece rest) : piece ≠ [] := by
  rcases h.ends with rfl | ⟨rfl, hne, -⟩
  · simp
  · exact hne

omit [DecidableEq α] in
theorem length_lt (h : Cut sep text l piece rest) : rest.length < text.length := by
  have hpos := List.length_pos_iff.mpr h.piece_ne
  rw [h.text, List.length_append]
  omega

theorem lines_eq (h : Cut sep text l piece rest) : lines sep text = l :: lines sep rest := by
  rw [h.text]
  rcases h.ends with rfl | ⟨rfl, hne, rfl⟩
  · rw [List.append_assoc]
    exact lines_line_append h.notMem
  · rw [List.append_nil, lines_line h.notMem hne]
    rfl

theorem lines_prefix {s t : List α} (h : Cut sep post l piece rest) (hs : rest = s ++ t) :
    lines sep (piece ++ s) = l :: lines sep s := by
  rcases h.ends with rfl | ⟨rfl, hne, hrest⟩
  · rw [List.append_assoc]
    exact lines_line_append h.notMem
  · rw [hrest] at hs
    obtain ⟨rfl, -⟩ := List.append_eq_nil_iff.mp hs.symm
    rw [List.append_nil, lines_line h.notMem hne]
    rfl

omit [DecidableEq α] in
theorem append (h : Cut sep text l piece rest) (hy : LineStart sep text ∨ b = []) :
    Cut sep (text ++ b) l piece (rest ++ b) where
  text := by rw [h.text, List.append_assoc]
  notMem := h.notMem
  ends := by
    rcases h.ends with hpiece | ⟨hpiece, hne, hrest⟩
    · exact Or.inl hpiece
    · refine Or.inr ⟨hpiece, hne, ?_⟩
      have hyl : text = l := by rw [h.text, hpiece, hrest, List.append_nil]
      rcases hy with hstart | hz
      · have hlast : text.getLast (hyl ▸ hne) = sep := hstart _ (List.getLast?_eq_some_getLast _)
        have hmem : sep ∈ text := hlast ▸ List.getLast_mem _
        exact absurd (hyl ▸ hmem) h.notMem
      · rw [hrest, hz]
        rfl

end Cut

end Lines

end SimpleFlashFs.Lib
