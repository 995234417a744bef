import Mathlib.Data.List.GetD
import Mathlib.Tactic.Common
import Mathlib.Logic.Function.Iterate

namespace SimpleFlashFs.Lib

-- a register of w bits that divides by a polynomial, its leading bit left out
namespace ShiftRegister

variable {w k : ℕ} {p : BitVec w}

def step (p r : BitVec w) : BitVec w := if r.msb then r <<< 1 ^^^ p else r <<< 1

def top (w : ℕ) (b : Bool) : BitVec w := if b then BitVec.twoPow w (w - 1) else 0

def feed (p r : BitVec w) (b : Bool) : BitVec w := step p (r ^^^ top w b)

def run (p r : BitVec w) (bits : List Bool) : BitVec w := bits.foldl (feed p) r

-- a word with the given leading bits
def high (w : ℕ) : List Bool → BitVec w
  | [] => 0
  | b :: bits => top w b ^^^ high w bits >>> 1

theorem step_xor (r s : BitVec w) : step p (r ^^^ s) = step p r ^^^ step p s := by
  have hshift : (r ^^^ s) <<< 1 = r <<< 1 ^^^ s <<< 1 := BitVec.shiftLeft_xor_distrib r s 1
  rw [step, step, step, BitVec.msb_xor, hshift]
  cases r.msb <;> cases s.msb
  · simp
  · simp [BitVec.xor_assoc]
  · simp only [Bool.xor_false, ite_true, Bool.false_eq_true, ite_false]
    rw [BitVec.xor_assoc, BitVec.xor_assoc, BitVec.xor_comm p]
  · simp only [Bool.xor_self, Bool.false_eq_true, ite_false, ite_true]
    rw [BitVec.xor_assoc, BitVec.xor_comm p, BitVec.xor_assoc (s <<< 1), BitVec.xor_self, BitVec.xor_zero]

theorem iterate_step_xor (n : ℕ) (r s : BitVec w) :
    (step p)^[n] (r ^^^ s) = (step p)^[n] r ^^^ (step p)^[n] s := by
  induction n generalizing r s with
  | zero => rfl
  | succ n ih => simp only [Function.iterate_succ_apply, step_xor, ih]

theorem step_shiftRight {r : BitVec w} (hr : r.getLsbD 0 = false) : step p (r >>> 1) = r := by
  have hmsb : (r >>> 1).msb = false := by simp [BitVec.msb_ushiftRight]
  rw [step, hmsb, if_neg Bool.false_ne_true]
  apply BitVec.eq_of_getLsbD_eq
  intro i hi
  cases i with
  | zero => simp [hr]
  | succ i => simp [Nat.add_comm 1, hi]

-- a register whose leading bits are clear only moves
theorem iterate_step_shiftRight (n : ℕ) {r : BitVec w} (hr : ∀ i < n, r.getLsbD i = false) :
    (step p)^[n] (r >>> n) = r := by
  induction n with
  | zero => simp
  | succ n ih =>
    have hlow : (r >>> n).getLsbD 0 = false := by simp [hr]
    rw [Function.iterate_succ_apply, BitVec.shiftRight_add, step_shiftRight hlow]
    exact ih fun i hi => hr i (Nat.lt_succ_of_lt hi)

theorem step_eq_zero (hp : p.getLsbD 0 = true) {r : BitVec w} (hr : step p r = 0) : r = 0 := by
  have hbit : ∀ i, (step p r).getLsbD i = false := by simp [hr]
  by_cases hmsb : r.msb
  · have hlow := hbit 0
    rw [step, if_pos hmsb, BitVec.getLsbD_xor, hp] at hlow
    simp at hlow
  · rw [step, if_neg hmsb] at hbit
    apply BitVec.eq_of_getLsbD_eq
    intro i hi
    rw [BitVec.msb_eq_getLsbD_last, Bool.not_eq_true] at hmsb
    by_cases hlast : i + 1 < w
    · have hnext := hbit (i + 1)
      rw [BitVec.getLsbD_shiftLeft] at hnext
      simpa [hlast] using hnext
    · have hi' : i = w - 1 := by omega
      rw [hi', hmsb]
      simp

theorem step_injective (hp : p.getLsbD 0 = true) : Function.Injective (step p) := by
  intro r s h
  have hzero : step p (r ^^^ s) = 0 := by
    rw [step_xor, h]
    exact BitVec.xor_self
  exact BitVec.xor_eq_zero_iff.mp (step_eq_zero hp hzero)

theorem feed_injective (hp : p.getLsbD 0 = true) (b : Bool) : Function.Injective (feed p · b) := by
  intro r s h
  exact (BitVec.xor_left_inj _).mp (step_injective hp h)

theorem run_append (r : BitVec w) (bits more : List Bool) : run p r (bits ++ more) = run p (run p r bits) more := by
  simp [run]

theorem run_injective (hp : p.getLsbD 0 = true) (bits : List Bool) : Function.Injective (run p · bits) := by
  induction bits with
  | nil => exact fun _ _ h => h
  | cons b bits ih => exact fun r s h => feed_injective hp b (ih h)

theorem getLsbD_top (b : Bool) (i : ℕ) : (top w b).getLsbD i = (b && decide (i < w) && decide (i = w - 1)) := by
  cases b with
  | false => simp [top]
  | true =>
    simp only [top, if_true, BitVec.getLsbD_twoPow, Bool.true_and]
    apply Bool.eq_iff_iff.mpr
    simp only [Bool.and_eq_true, decide_eq_true_eq]
    omega

theorem getLsbD_high (bits : List Bool) {i : ℕ} (hi : i < w) :
    (high w bits).getLsbD i = bits.getD (w - 1 - i) false := by
  induction bits generalizing i with
  | nil => simp [high]
  | cons b bits ih =>
    rw [high, BitVec.getLsbD_xor, getLsbD_top, BitVec.getLsbD_ushiftRight]
    by_cases hlast : i = w - 1
    · have hout : (high w bits).getLsbD (1 + i) = false := BitVec.getLsbD_of_ge _ _ (by omega)
      rw [hout, hlast]
      simp [show w - 1 < w by omega]
    · have hidx : w - 1 - i = w - 1 - (1 + i) + 1 := by omega
      rw [ih (by omega), hidx]
      simp [hlast]

-- the bits of a short message may as well be brought in at once
theorem run_eq_iterate (bits : List Bool) (hw : bits.length ≤ w) (r : BitVec w) :
    run p r bits = (step p)^[bits.length] (r ^^^ high w bits) := by
  induction bits generalizing r with
  | nil => simp [run, high]
  | cons b bits ih =>
    have hlen : bits.length < w := Nat.lt_of_succ_le hw
    have hlow : (high w bits).getLsbD 0 = false := by
      rw [getLsbD_high _ (by omega), List.getD_eq_default _ _ (by omega)]
    calc run p r (b :: bits)
        = (step p)^[bits.length] (step p (r ^^^ top w b) ^^^ high w bits) := ih (Nat.le_of_lt hlen) _
      _ = (step p)^[bits.length] (step p (r ^^^ top w b) ^^^ step p (high w bits >>> 1)) := by
        rw [step_shiftRight hlow]
      _ = (step p)^[bits.length + 1] (r ^^^ high w (b :: bits)) := by
        rw [← step_xor, BitVec.xor_assoc, ← Function.iterate_succ_apply]
        rfl

theorem high_inj {bits more : List Bool} (hlen : bits.length = more.length) (hw : bits.length ≤ w)
    (h : high w bits = high w more) : bits = more := by
  apply List.ext_getElem hlen
  intro i hi hi'
  have hbit : (high w bits).getLsbD (w - 1 - i) = (high w more).getLsbD (w - 1 - i) := by rw [h]
  have hidx : w - 1 - (w - 1 - i) = i := by omega
  rw [getLsbD_high _ (by omega), getLsbD_high _ (by omega), hidx] at hbit
  simpa [hi, hi'] using hbit

-- errors in one window of the width of the register are seen
theorem run_burst (hp : p.getLsbD 0 = true) {r : BitVec w} {before burst burst' behind : List Bool}
    (hlen : burst.length = burst'.length) (hw : burst.length ≤ w)
    (h : run p r (before ++ burst ++ behind) = run p r (before ++ burst' ++ behind)) : burst = burst' := by
  rw [run_append, run_append, run_append, run_append] at h
  have hrun : run p (run p r before) burst = run p (run p r before) burst' := run_injective hp behind h
  have hw' : burst'.length ≤ w := by omega
  rw [run_eq_iterate burst hw, run_eq_iterate burst' hw', ← hlen] at hrun
  have hhigh := (step_injective hp).iterate _ hrun
  exact high_inj hlen hw ((BitVec.xor_right_inj _).mp hhigh)

-- what a table lookup does: the leading bits alone, the others only move
theorem iterate_step_split (hk : k ≤ w) (r : BitVec w) :
    (step p)^[k] r = (step p)^[k] (r >>> (w - k) <<< (w - k)) ^^^ r <<< k := by
  have hlow : ∀ i < k, (r <<< k).getLsbD i = false := by
    intro i hi
    simp [hi]
  have hsplit : r = r >>> (w - k) <<< (w - k) ^^^ r <<< k >>> k := by
    apply BitVec.eq_of_getLsbD_eq
    intro i hi
    by_cases hi' : i < w - k
    · have : k + i < w := by omega
      simp [hi, hi', this]
    · have : ¬ k + i < w := by omega
      have : w - k + (i - (w - k)) = i := by omega
      simp [*]
  conv => lhs; rw [hsplit]
  rw [iterate_step_xor, iterate_step_shiftRight k hlow]

end ShiftRegister

end SimpleFlashFs.Lib
