import Mathlib.Tactic.Common
import Mathlib.Tactic.Ring
import Mathlib.Data.List.Basic

namespace SimpleFlashFs.Lib

def leBytes : ℕ → ℕ → List UInt8
  | 0, _ => []
  | w + 1, n => UInt8.ofNat n :: leBytes w (n / 256)

def leValue : List UInt8 → ℕ
  | [] => 0
  | b :: bs => b.toNat + 256 * leValue bs

def slice {α : Type} (l : List α) (pos n : ℕ) : List α := (l.drop pos).take n

def overwrite {α : Type} (l : List α) (pos : ℕ) (d : List α) : List α :=
  l.take pos ++ d ++ l.drop (pos + d.length)

@[simp] theorem leBytes_length (w n : ℕ) : (leBytes w n).length = w := by
  induction w generalizing n with
  | zero => rfl
  | succ w ih => simp [leBytes, ih]

theorem leValue_leBytes (w n : ℕ) : leValue (leBytes w n) = n % 256 ^ w := by
  induction w generalizing n with
  | zero => simp [leBytes, leValue, Nat.mod_one]
  | succ w ih =>
    have hb : (UInt8.ofNat n).toNat = n % 256 := by simp
    rw [leBytes, leValue, ih, hb, pow_succ, Nat.mul_comm (256 ^ w) 256, Nat.mod_mul]

theorem leValue_lt (l : List UInt8) : leValue l < 256 ^ l.length := by
  induction l with
  | nil => simp [leValue]
  | cons b bs ih =>
    have hb : b.toNat < 256 := b.toNat_lt
    rw [leValue, List.length_cons, pow_succ]
    omega

theorem leBytes_leValue (l : List UInt8) : leBytes l.length (leValue l) = l := by
  induction l with
  | nil => rfl
  | cons b bs ih =>
    have hb : b.toNat < 256 := b.toNat_lt
    have hdiv : (b.toNat + 256 * leValue bs) / 256 = leValue bs := by omega
    have hmod : UInt8.ofNat (b.toNat + 256 * leValue bs) = b := by
      apply UInt8.toNat_inj.mp
      rw [UInt8.toNat_ofNat']
      omega
    rw [List.length_cons, leBytes, leValue, hdiv, hmod, ih]

theorem leValue_append (l k : List UInt8) :
    leValue (l ++ k) = leValue l + 256 ^ l.length * leValue k := by
  induction l with
  | nil => simp [leValue]
  | cons b bs ih =>
    rw [List.cons_append, leValue, leValue, ih, List.length_cons, pow_succ]
    ring

theorem getElem?_leBytes {w i : ℕ} (n : ℕ) (h : i < w) :
    (leBytes w n)[i]? = some (UInt8.ofNat (n / 256 ^ i)) := by
  induction w generalizing n i with
  | zero => omega
  | succ w ih =>
    cases i with
    | zero => simp [leBytes]
    | succ i =>
      rw [leBytes, List.getElem?_cons_succ, ih _ (by omega), Nat.div_div_eq_div_mul, pow_succ,
        Nat.mul_comm 256]

section Lists

variable {α : Type}

@[simp] theorem slice_length (l : List α) (pos n : ℕ) :
    (slice l pos n).length = min n (l.length - pos) := by
  simp [slice]

theorem overwrite_length {l : List α} {p : ℕ} {d : List α} (h : p + d.length ≤ l.length) :
    (overwrite l p d).length = l.length := by
  simp only [overwrite, List.length_append, List.length_take, List.length_drop]
  omega

theorem getElem?_slice (l : List α) (pos n i : ℕ) :
    (slice l pos n)[i]? = if i < n then l[pos + i]? else none := by
  simp [slice, List.getElem?_take]

theorem getElem?_overwrite {l : List α} {pos : ℕ} {d : List α} (h : pos + d.length ≤ l.length)
    (i : ℕ) : (overwrite l pos d)[i]? =
      if i < pos then l[i]? else if i < pos + d.length then d[i - pos]? else l[i]? := by
  have hp : min pos l.length = pos := by omega
  simp only [overwrite, List.getElem?_append, List.length_append, List.length_take, hp]
  by_cases h1 : i < pos
  · rw [if_pos (by omega), if_pos h1, if_pos h1, List.getElem?_take_of_lt h1]
  · by_cases h2 : i < pos + d.length
    · rw [if_pos h2, if_neg h1, if_neg h1, if_pos h2]
    · rw [if_neg h2, if_neg h1, if_neg h2, List.getElem?_drop]
      congr 1
      omega

theorem slice_overwrite_same {l : List α} {p : ℕ} {d : List α} (h : p + d.length ≤ l.length) :
    slice (overwrite l p d) p d.length = d := by
  apply List.ext_getElem?
  intro i
  rw [getElem?_slice, getElem?_overwrite h]
  by_cases hi : i < d.length
  · rw [if_pos hi, if_neg (by omega), if_pos (by omega), Nat.add_sub_cancel_left]
  · rw [if_neg hi, List.getElem?_eq_none (by omega)]

theorem slice_overwrite_disjoint {l : List α} {pos : ℕ} {d : List α}
    (h : pos + d.length ≤ l.length) {a n : ℕ} (hd : a + n ≤ pos ∨ pos + d.length ≤ a) :
    slice (overwrite l pos d) a n = slice l a n := by
  apply List.ext_getElem?
  intro i
  rw [getElem?_slice, getElem?_slice, getElem?_overwrite h]
  by_cases hi : i < n
  · rw [if_pos hi, if_pos hi]
    rcases hd with hd | hd
    · rw [if_pos (by omega)]
    · rw [if_neg (by omega), if_neg (by omega)]
  · rw [if_neg hi, if_neg hi]

theorem slice_append_right {l k : List α} {pos n : ℕ} (h : pos = l.length) :
    slice (l ++ k) pos n = k.take n := by
  subst h
  simp [slice]

end Lists

end SimpleFlashFs.Lib
