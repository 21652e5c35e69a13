/- digest: Division and remainder by a power of two on bit vectors, as shifts, masks and corrections. -/

import ManticoreFrontend.Foundation.BitWord
import Mathlib.Tactic.Linarith

namespace ManticoreFrontend.Foundation.PowerDivision

open BitWord

variable {w : Nat}

theorem shiftRightTo_eq_ofInt (s : Bool) (n : Nat) (x : BitVec w) (k : Nat) :
    shiftRightTo s n x k = BitVec.ofInt n (intOf s x / 2 ^ k) := by
  rw [shiftRightTo, extendTo_eq_ofInt]
  cases s with
  | false => simp [Nat.shiftRight_eq_div_pow]
  | true => simp [Int.shiftRight_eq_div_pow]

theorem extendTo_toNat (s : Bool) (k : Nat) (x : BitVec w) :
    ((extendTo s k x).toNat : Int) = intOf s x % 2 ^ k := by
  rw [extendTo_eq_ofInt, BitVec.toNat_ofInt]
  have positive : (0 : Int) < 2 ^ k := Int.pow_pos (by decide)
  have nonneg := Int.emod_nonneg (intOf s x) (Int.ne_of_gt positive)
  rw [show ((2 ^ k : Nat) : Int) = 2 ^ k by norm_cast, Int.toNat_of_nonneg nonneg]

theorem and_mask_eq_ofInt (s : Bool) (n : Nat) (x : BitVec w) (k : Nat) :
    extendTo s n x &&& (BitVec.allOnes k).setWidth n = BitVec.ofInt n (intOf s x % 2 ^ k) := by
  have low : BitVec.ofInt n (intOf s x % 2 ^ k) = (extendTo s k x).setWidth n := by
    rw [← extendTo_toNat, BitVec.ofInt_natCast, BitVec.ofNat_toNat]
  rw [low]
  apply BitVec.eq_of_getLsbD_eq
  intro i inside
  simp only [BitVec.getLsbD_and, BitVec.getLsbD_setWidth, extendTo_getLsbD, BitVec.getLsbD_allOnes]
  by_cases masked : i < k <;> simp [masked, inside]

theorem extendTo_eq_zero_iff (s : Bool) (k : Nat) (x : BitVec w) :
    extendTo s k x = 0#(k) ↔ (2 : Int) ^ k ∣ intOf s x := by
  rw [← BitVec.toNat_inj, BitVec.toNat_zero, Int.dvd_iff_emod_eq_zero, ← extendTo_toNat]
  omega

/-- Truncating division is flooring division, plus one for a negative operand with a remainder. -/
theorem tdiv_two_pow (v : Int) (k : Nat) :
    v.tdiv (2 ^ k) = v / 2 ^ k + if v < 0 ∧ ¬ (2 : Int) ^ k ∣ v then 1 else 0 := by
  have positive : (0 : Int) < 2 ^ k := Int.pow_pos (by decide)
  rw [Int.tdiv_eq_ediv, Int.sign_eq_one_of_pos positive]
  by_cases negative : v < 0
  · have lower : ¬ 0 ≤ v := by omega
    by_cases divides : (2 : Int) ^ k ∣ v <;> simp [negative, lower, divides]
  · have upper : 0 ≤ v := by omega
    simp [negative, upper]

/-- The truncating remainder is the flooring one, moved down for a negative operand that leaves
a remainder. -/
theorem tmod_two_pow (v : Int) (k : Nat) :
    v.tmod (2 ^ k) = v % 2 ^ k - if v < 0 ∧ ¬ (2 : Int) ^ k ∣ v then 2 ^ k else 0 := by
  have split := Int.mul_tdiv_add_tmod v (2 ^ k)
  have floor := Int.mul_ediv_add_emod v (2 ^ k)
  rw [tdiv_two_pow] at split
  by_cases corrected : v < 0 ∧ ¬ (2 : Int) ^ k ∣ v
  · rw [if_pos corrected] at split ⊢
    linarith
  · rw [if_neg corrected] at split ⊢
    linarith

theorem toInt_cons (b : Bool) (x : BitVec w) :
    (BitVec.cons b x).toInt = x.toNat - if b then 2 ^ w else 0 := by
  rw [BitVec.toInt_eq_msb_cond, BitVec.msb_cons, BitVec.toNat_cons']
  cases b with
  | false => simp
  | true =>
    simp only [if_true, Bool.toNat_true, Nat.one_shiftLeft]
    push_cast
    ring

end ManticoreFrontend.Foundation.PowerDivision
