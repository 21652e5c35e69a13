/- source: kernel/calc.cc, kernel/celltypes.h
   digest: The reference evaluator on fully defined operands, for every operator it handles. -/

import Mathlib.Data.Int.ModEq
import ManticoreFrontend.Kernel.DefinedValues

namespace ManticoreFrontend.Kernel.DefinedArithmetic

open Foundation.BitWord Constants Calc CellTypes DefinedValues

/-! The folding functions divide magnitudes and repair the sign afterwards. -/

private theorem tdiv_by_magnitude (a b : Int) :
    (if (decide (a < 0)) != (decide (b < 0)) then -((a.natAbs : Int) / b.natAbs)
      else (a.natAbs : Int) / b.natAbs) = a.tdiv b := by
  have nonneg (m : Nat) : ¬ (m : Int) < 0 := Int.not_lt.mpr (Int.natCast_nonneg m)
  cases a with
  | ofNat m =>
    cases b with
    | ofNat k =>
      rfl
    | negSucc k =>
      rw [if_pos (by simp)]
      rfl
  | negSucc m =>
    cases b with
    | ofNat k =>
      rw [if_pos (by simp [nonneg, Int.negSucc_lt_zero])]
      rfl
    | negSucc k =>
      rw [if_neg (by simp)]
      rfl

private theorem tmod_by_magnitude (a b : Int) :
    (if a < 0 then -((a.natAbs : Int) % b.natAbs) else (a.natAbs : Int) % b.natAbs) =
      a.tmod b := by
  cases a with
  | ofNat m =>
    cases b <;> rfl
  | negSucc m =>
    rw [if_pos (Int.negSucc_lt_zero m)]
    cases b <;> rfl

private theorem neg_ediv_by_magnitude (m : Nat) {k : Nat} (positive : 0 < k) :
    -(((m : Int) + k - 1) / k) = -(m : Int) / k := by
  have split := Int.mul_ediv_add_emod ((m : Int) + k - 1) k
  have low := Int.emod_nonneg ((m : Int) + k - 1) (show (k : Int) ≠ 0 by omega)
  have high := Int.emod_lt_of_pos ((m : Int) + k - 1) (show (0 : Int) < k by omega)
  symm
  rw [Int.ediv_eq_iff_of_pos (by omega)]
  constructor <;> nlinarith

private theorem fdiv_by_magnitude_pos (a : Int) {b : Int} (positive : 0 < b) :
    (if 0 ≤ a then (a.natAbs : Int) / b.natAbs
      else -(((a.natAbs : Int) + b.natAbs - 1) / b.natAbs)) = a.fdiv b := by
  rw [Int.fdiv_eq_ediv_of_nonneg a positive.le]
  obtain ⟨k, rfl⟩ : ∃ k : Nat, b = k := ⟨b.natAbs, by omega⟩
  by_cases nonneg : 0 ≤ a
  · obtain ⟨m, rfl⟩ : ∃ m : Nat, a = m := ⟨a.natAbs, by omega⟩
    rfl
  · obtain ⟨m, rfl⟩ : ∃ m : Nat, a = -m := ⟨a.natAbs, by omega⟩
    rw [if_neg nonneg, Int.natAbs_neg]
    exact neg_ediv_by_magnitude m (by omega)

private theorem fdiv_by_magnitude (a : Int) {b : Int} (nonzero : b ≠ 0) :
    (if (decide (a < 0)) == (decide (b < 0)) ∨ a = 0 then (a.natAbs : Int) / b.natAbs
      else -(((a.natAbs : Int) + b.natAbs - 1) / b.natAbs)) = a.fdiv b := by
  rcases lt_or_gt_of_ne nonzero with negative | positive
  · rw [← Int.neg_fdiv_neg, ← fdiv_by_magnitude_pos (-a) (show 0 < -b by omega), Int.natAbs_neg,
      Int.natAbs_neg]
    simp [negative]
    omega
  · rw [← fdiv_by_magnitude_pos a positive]
    simp
    omega

private theorem fmod_by_magnitude (a : Int) {b : Int} (nonzero : b ≠ 0) :
    (if a.tmod b = 0 ∨ a.sign = b.sign then a.tmod b
      else if b < 0 then a.tmod b - b.natAbs else a.tmod b + b.natAbs) = a.fmod b := by
  rw [Int.fmod_eq_tmod]
  by_cases divides : b ∣ a
  · have zero := Int.dvd_iff_tmod_eq_zero.mp divides
    simp [divides, zero]
  · have rest : a.tmod b ≠ 0 := fun zero => divides (Int.dvd_iff_tmod_eq_zero.mpr zero)
    have moved : a ≠ 0 := by
      rintro rfl
      exact divides (dvd_zero b)
    rw [if_neg divides]
    -- the correction is needed exactly when the signs differ
    rcases lt_or_gt_of_ne moved with negA | posA <;> rcases lt_or_gt_of_ne nonzero with negB | posB
    · have signs : a.sign = b.sign := by
        rw [Int.sign_eq_neg_one_of_neg negA, Int.sign_eq_neg_one_of_neg negB]
      omega
    · have signs : a.sign ≠ b.sign := by
        rw [Int.sign_eq_neg_one_of_neg negA, Int.sign_eq_one_of_pos posB]
        decide
      rw [if_neg (by simp [rest, signs]), if_neg (by omega), if_neg (by omega), if_pos posB.le]
    · have signs : a.sign ≠ b.sign := by
        rw [Int.sign_eq_one_of_pos posA, Int.sign_eq_neg_one_of_neg negB]
        decide
      omega
    · have signs : a.sign = b.sign := by
        rw [Int.sign_eq_one_of_pos posA, Int.sign_eq_one_of_pos posB]
      omega

theorem powLoop_modEq (modulus y a b : Nat) : powLoop modulus y a b ≡ y * a ^ b [MOD modulus] := by
  fun_induction powLoop modulus y a b with
  | case1 y a => simp [Nat.ModEq.refl]
  | case2 y a b positive ih =>
    have square : (a * a % modulus) ^ (b / 2) ≡ a ^ (2 * (b / 2)) [MOD modulus] := by
      rw [pow_mul, pow_two]
      exact (Nat.mod_modEq _ _).pow _
    refine ih.trans ?_
    by_cases odd : b % 2 = 1
    · have whole : b = 1 + 2 * (b / 2) := by omega
      have step := (Nat.mod_modEq (y * a) modulus).mul square
      rw [mul_assoc, ← pow_succ', Nat.add_comm (2 * (b / 2)) 1, ← whole] at step
      simpa [odd] using step
    · have whole : b = 2 * (b / 2) := by omega
      have step := (Nat.ModEq.refl y).mul square
      rw [← whole] at step
      simpa [odd] using step

/-- The integer power; a negative exponent gives the truncated reciprocal. -/
def intPow (a b : Int) : Option Int :=
  if 0 ≤ b then some (a ^ b.toNat)
  else if a = 0 then none
  else some (Int.tdiv 1 (a ^ b.natAbs))

private theorem signed_power (n : Nat) (a : Int) (k : Nat) :
    (if a < 0 ∧ (k : Int) % 2 = 1 then -(powLoop (2 ^ n) 1 a.natAbs k : Int)
      else (powLoop (2 ^ n) 1 a.natAbs k : Int)) ≡ a ^ k [ZMOD 2 ^ n] := by
  have loop : (powLoop (2 ^ n) 1 a.natAbs k : Int) ≡ ((a.natAbs ^ k : Nat) : Int) [ZMOD 2 ^ n] := by
    have power := powLoop_modEq (2 ^ n) 1 a.natAbs k
    rw [one_mul, ← Int.natCast_modEq_iff] at power
    simpa using power
  by_cases negative : a < 0
  · obtain ⟨m, rfl⟩ : ∃ m : Nat, a = -m := ⟨a.natAbs, by omega⟩
    rw [Int.natAbs_neg, Int.natAbs_natCast, Nat.cast_pow] at loop
    rw [Int.natAbs_neg, Int.natAbs_natCast]
    by_cases odd : (k : Int) % 2 = 1
    · rw [if_pos ⟨negative, odd⟩, Odd.neg_pow (Nat.odd_iff.mpr (by omega))]
      exact loop.neg
    · rw [if_neg (by simp [odd]), Even.neg_pow (Nat.even_iff.mpr (by omega))]
      exact loop
  · obtain ⟨m, rfl⟩ : ∃ m : Nat, a = m := ⟨a.natAbs, by omega⟩
    rw [if_neg (by simp)]
    simpa using loop

private theorem reciprocal {a : Int} (nonzero : a ≠ 0) {k : Nat} (positive : 0 < k) :
    (if a < -1 ∨ a > 1 then 0 else if a = -1 then if (k : Int) % 2 = 0 then 1 else -1 else 1) =
      Int.tdiv 1 (a ^ k) := by
  by_cases large : a < -1 ∨ a > 1
  · have big : 1 < (a ^ k).natAbs := by
      rw [Int.natAbs_pow]
      exact Nat.one_lt_pow (by omega) (by omega)
    rw [if_pos large]
    symm
    apply Int.natAbs_eq_zero.mp
    rw [Int.natAbs_tdiv]
    exact Nat.div_eq_of_lt big
  · by_cases minus : a = -1
    · subst minus
      by_cases even : (k : Int) % 2 = 0
      · rw [if_pos even, Even.neg_pow (Nat.even_iff.mpr (by omega)), one_pow]
        rfl
      · rw [if_neg even, Odd.neg_pow (Nat.odd_iff.mpr (by omega)), one_pow]
        rfl
    · obtain rfl : a = 1 := by omega
      simp

variable {n : Nat}

private theorem ofInt_congr {a b : Int} (same : a ≡ b [ZMOD 2 ^ n]) :
    BitVec.ofInt n a = BitVec.ofInt n b := by
  have power : ((2 ^ n : Nat) : Int) = 2 ^ n := by push_cast; rfl
  apply BitVec.eq_of_toNat_eq
  rw [BitVec.toNat_ofInt, BitVec.toNat_ofInt, power, same]

variable {wa wb : Nat} (x : BitVec wa) (y : BitVec wb)

variable (op : Int → Int → Int)

/-- A quotient or remainder of `n` bits, undefined for the divisor zero. -/
def divideTo (n : Nat) (a b : Int) : Const :=
  if b = 0 then Const.ofState .Sx n else toConst (BitVec.ofInt n (op a b))

private theorem constDivLike_defined {op ideal : Int → Int → Int}
    (exact : ∀ a b : Int, b ≠ 0 → op a b = ideal a b) (s t : Bool) (n : Nat) :
    constDivLike op (toConst x) (toConst y) s t n = divideTo ideal n (intOf s x) (intOf t y) := by
  simp only [constDivLike, const2big_toConst, resultLenOr_natCast, Int.toNat_natCast, divideTo]
  by_cases zero : intOf t y = 0
  · rw [if_pos zero, if_pos zero]
  · rw [if_neg zero, if_neg zero, exact _ _ zero]
    exact big2const_defined _ n

variable (s t : Bool)

theorem constDiv_defined (n : Nat) :
    constDiv (toConst x) (toConst y) s t n = divideTo Int.tdiv n (intOf s x) (intOf t y) :=
  constDivLike_defined x y (fun a b _ => tdiv_by_magnitude a b) s t n

theorem constMod_defined (n : Nat) :
    constMod (toConst x) (toConst y) s t n = divideTo Int.tmod n (intOf s x) (intOf t y) :=
  constDivLike_defined x y (fun a b _ => tmod_by_magnitude a b) s t n

theorem constDivfloor_defined (n : Nat) :
    constDivfloor (toConst x) (toConst y) s t n = divideTo Int.fdiv n (intOf s x) (intOf t y) :=
  constDivLike_defined x y (fun a _ nonzero => fdiv_by_magnitude a nonzero) s t n

theorem constModfloor_defined (n : Nat) :
    constModfloor (toConst x) (toConst y) s t n = divideTo Int.fmod n (intOf s x) (intOf t y) := by
  refine constDivLike_defined x y (fun a b nonzero => ?_) s t n
  simp only [tmod_by_magnitude]
  exact fmod_by_magnitude a nonzero

/-- A power of `n` bits, undefined for a negative power of zero. -/
def powerTo (n : Nat) (a b : Int) : Const :=
  match intPow a b with
  | none => Const.ofState .Sx n
  | some r => toConst (BitVec.ofInt n r)

theorem constPow_defined (n : Nat) :
    constPow (toConst x) (toConst y) s t n = powerTo n (intOf s x) (intOf t y) := by
  simp only [constPow, const2big_toConst, resultLenOr_natCast, Int.toNat_natCast, powerTo, intPow,
    show min (-1 : Int) 0 = -1 from rfl, big2const_defined]
  generalize intOf s x = a
  generalize intOf t y = b
  rcases lt_trichotomy b 0 with negative | rfl | positive
  · obtain ⟨k, rfl⟩ : ∃ k : Nat, b = -k := ⟨b.natAbs, by omega⟩
    have some : 0 < k := by omega
    by_cases zero : a = 0
    · simp [zero, some.ne']
    · rw [if_neg (by simp [zero]), if_neg (by simp), if_pos negative, neg_neg,
        reciprocal zero some, if_neg (by omega), if_neg zero, Int.natAbs_neg, Int.natAbs_natCast]
  · simp
  · obtain ⟨k, rfl⟩ : ∃ k : Nat, b = k := ⟨b.natAbs, by omega⟩
    rw [if_neg (by omega), if_pos (show (0 : Int) ≤ k by omega), Int.toNat_natCast]
    by_cases zero : a = 0
    · rw [if_pos ⟨zero, positive⟩, zero, zero_pow (by omega), ofState_zero]
      simp
    · rw [if_neg (by simp [zero]), if_neg (by omega), if_pos positive,
        ofInt_congr (signed_power n a k)]

/-- A shift to the right by a signed amount, read from the extended operand. -/
def shiftTo (s : Bool) (n : Nat) (k : Int) : BitVec n :=
  if 0 ≤ k then shiftRightTo false n (extendTo s (max n wa) x) k.toNat
  else extendTo s n x <<< (-k).toNat

/-- The window of `n` bits that starts at position `k` of the operand, with `vacant` at the
positions outside the operand. -/
def windowAt (vacant : State) (n : Nat) (k : Int) : Const :=
  List.ofFn fun i : Fin n =>
    if 0 ≤ i + k ∧ i + k < wa then State.ofBool (x.getLsbD (i + k).toNat) else vacant

private theorem shiftWorker_window (t : Bool) (n : Nat) (vacant : State) :
    constShiftWorker (toConst x) (toConst y) false t 1 n vacant =
      windowAt x vacant n (intOf t y) := by
  simp only [constShiftWorker, const2big_toConst, toConst_length, resultLenOr_natCast, mul_one]
  rw [if_neg (by decide)]
  generalize intOf t y = k
  apply List.ext_getElem
  · simp [windowAt]
  · intro i hi _
    simp only [windowAt, List.getElem_map, List.getElem_range, List.getElem_ofFn]
    by_cases below : (i : Int) + k < 0
    · rw [if_pos below, if_neg (by omega)]
    · by_cases inside : (i : Int) + k < wa
      · have position : ((i : Int) + k).toNat < wa := by omega
        rw [if_neg below, if_neg (by omega), if_pos ⟨by omega, inside⟩,
          List.getD_eq_getElem _ _ (by simpa using position), toConst_getElem]
      · rw [if_neg below, if_pos (by omega), if_neg (by decide), if_neg (by omega)]

theorem constShift_defined (n : Nat) :
    constShift (toConst x) (toConst y) s t n = toConst (shiftTo x s n (intOf t y)) := by
  rw [constShift, Int.toNat_natCast, toConst_length, extendU0_toConst, shiftWorker_window]
  generalize intOf t y = k
  apply eq_toConst
  · simp [windowAt]
  · intro i hi inside
    simp only [windowAt, List.getElem_ofFn, shiftTo]
    by_cases right : 0 ≤ k
    · rw [if_pos right, shiftRightTo_getLsbD]
      have position : ((i : Int) + k).toNat = k.toNat + i := by omega
      by_cases within : (i : Int) + k < ((max n wa : Nat) : Int)
      · rw [if_pos ⟨by omega, within⟩, position]
        simp [inside, show k.toNat + i < max n wa by omega]
      · rw [if_neg (by omega)]
        simp [show ¬ k.toNat + i < max n wa by omega, State.ofBool]
    · rw [if_neg right, BitVec.getLsbD_shiftLeft]
      by_cases low : (i : Int) + k < 0
      · rw [if_neg (by omega)]
        simp [show i < (-k).toNat by omega, State.ofBool]
      · have position : ((i : Int) + k).toNat = i - (-k).toNat := by omega
        rw [if_pos ⟨by omega, by omega⟩, position, extendTo_getLsbD, extendTo_getLsbD]
        simp [inside, show ¬ i < (-k).toNat by omega, show i - (-k).toNat < n by omega]

theorem constEqx_defined (s : Bool) (positive : 0 < n) :
    constEqx (toConst x) (toConst y) s s n = toConst (boolBits n (intOf s x == intOf s y)) := by
  simp only [constEqx, extendU0_toConst, Bool.and_self, toConst_length, toConst_inj,
    extendTo_max_eq_iff]
  by_cases h : intOf s x = intOf s y
  · simpa [h] using set_front positive
  · rw [beq_false_of_ne h]
    simpa [h] using zero_front n

theorem constNex_defined (s : Bool) (positive : 0 < n) :
    constNex (toConst x) (toConst y) s s n = toConst (boolBits n (intOf s x != intOf s y)) := by
  rw [constNex, constEqx_defined x y s positive, flipFront_boolBits positive]
  rfl

theorem evalNot_defined : evalNot (toConst x) = toConst (~~~ x) := by
  apply eq_toConst
  · simp [evalNot]
  · intro i hi inside
    simp only [evalNot, List.getElem_map, toConst_getElem, BitVec.getLsbD_not, inside,
      decide_true, Bool.true_and]
    cases x.getLsbD i <;> rfl

/-- The gates in bit-vector terms, from the low bits of their operands to one bit; the buffer and
the inverter keep the width of theirs. -/
def gateBits (id : IdString) : Option Const :=
  let a := x.setWidth 1
  let b := y.setWidth 1
  if id = "$_BUF_" then some (toConst x)
  else if id = "$_NOT_" then some (toConst (~~~ x))
  else if id = "$_AND_" then some (toConst (a &&& b))
  else if id = "$_NAND_" then some (toConst (~~~ (a &&& b)))
  else if id = "$_OR_" then some (toConst (a ||| b))
  else if id = "$_NOR_" then some (toConst (~~~ (a ||| b)))
  else if id = "$_XOR_" then some (toConst (a ^^^ b))
  else if id = "$_XNOR_" then some (toConst (~~~ (a ^^^ b)))
  else if id = "$_ANDNOT_" then some (toConst (a &&& (~~~ y).setWidth 1))
  else if id = "$_ORNOT_" then some (toConst (a ||| (~~~ y).setWidth 1))
  else none

theorem evalGate_defined (id : IdString) :
    evalGate id (toConst x) (toConst y) = gateBits x y id := by
  have and1 {w : Nat} (z : BitVec w) := constAnd_defined x z false false 1
  have or1 {w : Nat} (z : BitVec w) := constOr_defined x z false false 1
  have xor1 := constXor_defined x y false false 1
  have xnor1 := constXnor_defined x y false false 1
  simp only [Nat.cast_one, extendTo_false] at and1 or1 xor1 xnor1
  simp only [evalGate, gateBits, evalNot_defined, and1, or1, xor1, xnor1]

variable (type : CellType) (sa sb : Bool)

/-- Every operator of the evaluator in terms of integers and bit vectors. -/
def reference {wa wb : Nat} (x : BitVec wa) (y : BitVec wb) (n : Nat) : Option Const :=
  let s := sa && sb
  match type with
  | .div => some (divideTo Int.tdiv n (intOf s x) (intOf s y))
  | .mod => some (divideTo Int.tmod n (intOf s x) (intOf s y))
  | .divfloor => some (divideTo Int.fdiv n (intOf s x) (intOf s y))
  | .modfloor => some (divideTo Int.fmod n (intOf s x) (intOf s y))
  | .pow => some (powerTo n (intOf s x) (intOf s y))
  | .shift => some (toConst (shiftTo x sa n (intOf sb y)))
  | .shiftx => some (windowAt x .Sx n (intOf sb y))
  | .eqx => some (toConst (boolBits n (intOf s x == intOf s y)))
  | .nex => some (toConst (boolBits n (intOf s x != intOf s y)))
  | .other id => gateBits x y id
  | type => (opBits type sa sb x y n).map toConst

theorem eval_eq_reference (operand : 0 < wa) (positive : 0 < n) :
    eval type (toConst x) (toConst y) sa sb n = reference type sa sb x y n := by
  cases entry : opBits type sa sb x y n with
  | some r =>
    rw [eval_defined operand positive entry]
    cases type <;> simp only [opBits, Option.some.injEq, reduceCtorEq] at entry <;>
      subst entry <;> rfl
  | none =>
    cases type <;> simp only [opBits, reduceCtorEq] at entry <;>
      simp [eval, evalTable, keepsOwnSign, reference, opBits, positive, constDiv_defined,
        constMod_defined, constDivfloor_defined, constModfloor_defined, constPow_defined,
        constShift_defined, constShiftx, shiftWorker_window, constEqx_defined, constNex_defined,
        evalGate_defined]

/-- The operators whose result has the requested length: all but the gates. -/
def isWordOperator : CellType → Bool
  | .mux | .pmux | .dff | .memrd | .memrdV2 | .memwr | .memwrV2 | .memV2 | .manticore
  | .other _ => false
  | _ => true

/-- The operands for which an arithmetic operator has no value. -/
def noValue : Prop :=
  match type with
  | .div | .mod | .divfloor | .modfloor => y = 0#(wb)
  | .pow => intOf (sa && sb) x = 0 ∧ intOf (sa && sb) y < 0
  | _ => False

private theorem undef_notMem_toConst (r : BitVec n) : State.Sx ∉ toConst r := by
  intro mem
  have := List.all_eq_true.mp (toConst_isFullyDef r) _ mem
  cases this

private theorem undef_mem_divideTo (positive : 0 < n) (a b : Int) :
    State.Sx ∈ divideTo op n a b ↔ b = 0 := by
  by_cases zero : b = 0
  · simp [divideTo, zero, Const.ofState, positive.ne']
  · simp [divideTo, zero, undef_notMem_toConst]

private theorem undef_mem_powerTo (positive : 0 < n) (a b : Int) :
    State.Sx ∈ powerTo n a b ↔ a = 0 ∧ b < 0 := by
  by_cases nonneg : 0 ≤ b
  · simp [powerTo, intPow, nonneg, undef_notMem_toConst]
  · have negative : b < 0 := by omega
    by_cases zero : a = 0
    · simp [powerTo, intPow, nonneg, zero, negative, Const.ofState, positive.ne']
    · simp [powerTo, intPow, nonneg, zero, undef_notMem_toConst]

@[simp] private theorem divideTo_length (n : Nat) (a b : Int) : (divideTo op n a b).length = n := by
  by_cases zero : b = 0 <;> simp [divideTo, zero, Const.ofState]

@[simp] theorem powerTo_length (n : Nat) (a b : Int) : (powerTo n a b).length = n := by
  cases value : intPow a b <;> simp [powerTo, value, Const.ofState]

theorem reference_word {type : CellType} (word : isWordOperator type = true) (sa sb : Bool)
    (n : Nat) : ∃ result, reference type sa sb x y n = some result ∧ result.length = n := by
  cases type <;> simp [isWordOperator] at word <;> simp [reference, opBits, windowAt]

theorem reference_undef {type : CellType} (word : isWordOperator type = true)
    (window : type ≠ .shiftx) (sa sb : Bool) (positive : 0 < n) {result : Const}
    (value : reference type sa sb x y n = some result) :
    State.Sx ∈ result ↔ noValue x y type sa sb := by
  cases type <;> simp [isWordOperator] at word window <;>
    simp only [reference, opBits, Option.map_some, Option.some.injEq] at value <;> subst value <;>
    simp [noValue, undef_notMem_toConst, undef_mem_divideTo, undef_mem_powerTo, positive,
      intOf_eq_zero]

/-- Evaluation of fully defined operands is bit-vector arithmetic. A word operator returns `n` bits,
undefined exactly where the arithmetic has no value; only the window operator has others, outside
its operand. -/
theorem eval_is_arithmetic (type : CellType) {arg1 arg2 : Const} (defined1 : arg1.isFullyDef = true)
    (defined2 : arg2.isFullyDef = true) (nonempty1 : 0 < arg1.length) (sa sb : Bool) {n : Nat}
    (positive : 0 < n) :
    eval type arg1 arg2 sa sb n = reference type sa sb (bitsOf arg1) (bitsOf arg2) n ∧
    (isWordOperator type = true → ∃ result, eval type arg1 arg2 sa sb n = some result ∧
      result.length = n ∧
      (type ≠ .shiftx →
        (State.Sx ∈ result ↔ noValue (bitsOf arg1) (bitsOf arg2) type sa sb))) := by
  have equal := eval_eq_reference (bitsOf arg1) (bitsOf arg2) type sa sb nonempty1 positive
  rw [toConst_bitsOf defined1, toConst_bitsOf defined2] at equal
  constructor
  · exact equal
  · intro word
    obtain ⟨result, value, length⟩ := reference_word (bitsOf arg1) (bitsOf arg2) word sa sb n
    refine ⟨result, equal.trans value, length, ?_⟩
    intro window
    exact reference_undef (bitsOf arg1) (bitsOf arg2) word window sa sb positive value

theorem eval_is_arithmetic_modfloor :
    eval .modfloor [.S1, .S0, .S1] [.S0, .S1, .S0] true true 3 =
      reference .modfloor true true (bitsOf [.S1, .S0, .S1]) (bitsOf [.S0, .S1, .S0]) 3 ∧
    eval .modfloor [.S1, .S0, .S1] [.S0, .S1, .S0] true true 3 = some [.S1, .S0, .S0] :=
  ⟨(eval_is_arithmetic .modfloor (by decide) (by decide) (by decide) true true (by decide)).1,
    by decide⟩

/-- A defined window past its operand has an undefined bit, and a gate keeps its own width. -/
theorem window_undefined_gate_narrow :
    eval .shiftx [.S1] [.S1] false false 1 = some [.Sx] ∧
    eval (.other "$_AND_") [.S1] [.S1] false false 2 = some [.S1] := by
  decide

end ManticoreFrontend.Kernel.DefinedArithmetic
