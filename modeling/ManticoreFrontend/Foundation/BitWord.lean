/- digest: Words that carry their own width, and the extension of a bit vector by a signedness flag. -/

import Mathlib.Data.Nat.Bitwise
import Mathlib.Tactic.Ring

namespace ManticoreFrontend.Foundation.BitWord

open BitVec

/-- A bit vector packed with its width, so that a store can hold words of several widths. -/
structure Word where
  width : Nat
  bits : BitVec width
  deriving DecidableEq

namespace Word

def val (a : Word) : Nat := a.bits.toNat

/-- Bit `i` of a word; positions past the width read as `false`. -/
def bit (a : Word) (i : Nat) : Bool := a.bits.getLsbD i

theorem eq_of_bit {a b : Word} (width : a.width = b.width)
    (bits : ∀ i, i < a.width → a.bit i = b.bit i) : a = b := by
  obtain ⟨w, x⟩ := a
  obtain ⟨w', y⟩ := b
  subst width
  have equal : x = y := by
    apply eq_of_getLsbD_eq
    exact bits
  rw [equal]

def ofBools (l : List Bool) : Word := ⟨l.length, BitVec.ofBoolListLE l⟩

@[simp] theorem ofBools_width (l : List Bool) : (ofBools l).width = l.length := rfl

@[simp] theorem ofBools_bit (l : List Bool) (i : Nat) : (ofBools l).bit i = l.getD i false := by
  simp [ofBools, bit]

end Word

variable {w : Nat}

variable (s : Bool)

variable (n : Nat) (x : BitVec w)

/-- Bring a bit vector to width `n`: truncation, sign extension when `s`, else zero extension. -/
def extendTo : BitVec n :=
  if s then x.signExtend n else x.setWidth n

/-- The integer a bit vector stands for: two's complement when `s`, else unsigned. -/
def intOf (x : BitVec w) : Int := if s then x.toInt else x.toNat

@[simp] theorem extendTo_true : extendTo true n x = x.signExtend n := rfl

@[simp] theorem extendTo_false : extendTo false n x = x.setWidth n := rfl

@[simp] theorem intOf_true (x : BitVec w) : intOf true x = x.toInt := rfl

@[simp] theorem intOf_false (x : BitVec w) : intOf false x = x.toNat := rfl

theorem extendTo_eq_ofInt :
    extendTo s n x = BitVec.ofInt n (intOf s x) := by
  cases s with
  | true => rfl
  | false =>
    exact (ofNat_toNat n x).symm

theorem extendTo_self (x : BitVec w) : extendTo s w x = x := by
  cases s <;> simp

theorem extendTo_getLsbD (i : Nat) :
    (extendTo s n x).getLsbD i =
      (decide (i < n) && if i < w then x.getLsbD i else s && x.msb) := by
  cases s with
  | true => simp [getLsbD_signExtend]
  | false =>
    by_cases h : i < w
    · simp [h]
    · simp [getLsbD_of_ge _ _ (Nat.le_of_not_lt h)]

variable {n : Nat}

theorem extendTo_of_le (le : n ≤ w) (x : BitVec w) : extendTo s n x = x.setWidth n := by
  cases s with
  | true => exact signExtend_eq_setWidth_of_le x le
  | false => rfl

theorem intOf_extendTo (le : w ≤ n) (x : BitVec w) : intOf s (extendTo s n x) = intOf s x := by
  cases s with
  | true => exact toInt_signExtend_of_le le
  | false =>
    simp only [extendTo_false, intOf_false, toNat_setWidth]
    rw [Nat.mod_eq_of_lt (lt_of_lt_of_le x.isLt (Nat.pow_le_pow_right Nat.two_pos le))]

theorem eq_of_intOf_eq {x y : BitVec w} (equal : intOf s x = intOf s y) : x = y := by
  cases s with
  | true => exact eq_of_toInt_eq equal
  | false => exact eq_of_toNat_eq (by simpa using equal)

def extendWord (n : Nat) (a : Word) : Word := ⟨n, extendTo s n a.bits⟩

theorem extendWord_self (a : Word) : extendWord s a.width a = a := by
  simp [extendWord, extendTo_self]

theorem extract_zero {w : Nat} (x : BitVec w) (n : Nat) : x.extractLsb' 0 n = x.setWidth n := by
  apply eq_of_getLsbD_eq
  intro i hi
  simp

/-- Concatenation of bit lists is the shifted high part over the padded low part. -/
theorem ofBools_append (l m : List Bool) (total : n = l.length + m.length) :
    Word.ofBools (l ++ m) =
      ⟨n, ((Word.ofBools m).bits.setWidth n <<< l.length) ||| (Word.ofBools l).bits.setWidth n⟩ := by
  subst total
  refine Word.eq_of_bit (by simp) ?_
  intro i hi
  have inside : i < l.length + m.length := by simpa using hi
  have low := Word.ofBools_bit l i
  have high := Word.ofBools_bit m (i - l.length)
  simp only [Word.bit] at low high
  rw [Word.ofBools_bit]
  simp only [Word.bit, getLsbD_or, getLsbD_shiftLeft, getLsbD_setWidth,
    low, high, inside, decide_true, Bool.true_and]
  by_cases h : i < l.length
  · simp [h, List.getElem?_append_left h]
  · have below : i - l.length < l.length + m.length := by omega
    simp [h, below, List.getElem?_append_right (Nat.le_of_not_lt h)]

def upperMask (w n : Nat) : BitVec n := ~~~ (BitVec.allOnes w).setWidth n

theorem upperMask_getLsbD (w n i : Nat) :
    (upperMask w n).getLsbD i = (decide (i < n) && !decide (i < w)) := by
  simp only [upperMask, getLsbD_not, getLsbD_setWidth, getLsbD_allOnes]
  by_cases h : i < n <;> simp [h]

theorem signExtend_eq_mask {w n : Nat} (x : BitVec w) :
    x.signExtend n = x.setWidth n ||| (if x.msb then upperMask w n else 0#n) := by
  apply eq_of_getLsbD_eq
  intro i hi
  rw [getLsbD_signExtend, getLsbD_or, getLsbD_setWidth]
  cases hm : x.msb with
  | false =>
    by_cases h : i < w
    · simp [h]
    · simp [getLsbD_of_ge _ _ (Nat.le_of_not_lt h)]
  | true =>
    simp only [if_true, upperMask_getLsbD, hi, decide_true, Bool.true_and]
    by_cases h : i < w
    · simp [h]
    · simp [h]

def boolBits (n : Nat) (b : Bool) : BitVec n := (BitVec.ofBool b).setWidth n

theorem boolBits_getLsbD (n : Nat) (b : Bool) (i : Nat) :
    (boolBits n b).getLsbD i = (decide (i < n) && (decide (i = 0) && b)) := by
  rw [boolBits, getLsbD_setWidth, getLsbD_ofBool]

def bitParity (f : Nat → Bool) (k : Nat) : Bool := (List.range k).foldl (fun b i => b != f i) false

@[simp] theorem bitParity_zero (f : Nat → Bool) : bitParity f 0 = false := rfl

@[simp] theorem bitParity_succ (f : Nat → Bool) (k : Nat) :
    bitParity f (k + 1) = (bitParity f k != f k) := by
  simp [bitParity, List.range_succ]

/-- A right shift of an operand of `w` bits, read at `n` bits with the fill of `s`. -/
def shiftRightTo (n : Nat) (x : BitVec w) (k : Nat) : BitVec n :=
  extendTo s n (if s then x.sshiftRight k else x >>> k)

theorem shiftRightTo_getLsbD (n : Nat) (x : BitVec w) (k i : Nat) :
    (shiftRightTo s n x k).getLsbD i =
      (decide (i < n) && if k + i < w then x.getLsbD (k + i) else s && x.msb) := by
  rw [shiftRightTo, extendTo_getLsbD]
  cases s with
  | false =>
    by_cases h : k + i < w
    · have : i < w := by omega
      simp [h, this]
    · simp [getLsbD_of_ge _ _ (Nat.le_of_not_lt h)]
  | true =>
    by_cases h : k + i < w
    · have : i < w := by omega
      simp [h, this, getElem_sshiftRight]
    · by_cases hi : i < w
      · simp [h, hi, getElem_sshiftRight]
      · simp [h, hi]

/-- A left shift may be done at any width that holds the result. -/
theorem extendTo_shiftLeft {n m : Nat} (le : n ≤ m) (x : BitVec w) (k : Nat) :
    (extendTo s m x <<< k).setWidth n = extendTo s n x <<< k := by
  apply eq_of_getLsbD_eq
  intro i hi
  have him : i < m := by omega
  simp only [getLsbD_setWidth, getLsbD_shiftLeft, extendTo_getLsbD, hi, him,
    decide_true, Bool.true_and, show i - k < m by omega, show i - k < n by omega]

theorem shiftRightTo_false (n : Nat) (x : BitVec w) (k : Nat) :
    shiftRightTo false n x k = (x >>> k).setWidth n := rfl

/-- An arithmetic right shift may be done on the operand widened to the result. -/
theorem shiftRightTo_widened (le : w ≤ n) (x : BitVec w) (k : Nat) :
    (x.signExtend n).sshiftRight k = shiftRightTo true n x k := by
  apply eq_of_getLsbD_eq
  intro i hi
  have top : (x.signExtend n).msb = x.msb := by
    rw [msb_eq_getLsbD_last, getLsbD_signExtend, msb_eq_getLsbD_last]
    have positive : n - 1 < n := by omega
    by_cases last : n - 1 < w
    · simp only [last, positive, decide_true, if_true, Bool.true_and]
      rw [show n - 1 = w - 1 by omega]
    · simp [last, positive]
  rw [shiftRightTo_getLsbD, getLsbD_sshiftRight, top, getLsbD_signExtend]
  by_cases h : k + i < n
  · simp [h, hi]
  · simp [h, hi, show ¬ k + i < w by omega]

end ManticoreFrontend.Foundation.BitWord
