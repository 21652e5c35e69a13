/- source: kernel/calc.cc, kernel/celltypes.h
   digest: Evaluation with undefined bits against every replacement of them; powers of zero are the exception. -/

import ManticoreFrontend.Kernel.DefinedArithmetic
import ManticoreFrontend.Kernel.InformationOrder

namespace ManticoreFrontend.Kernel.UndefinedBits

open Foundation.BitWord Constants Calc CellTypes DefinedValues DefinedArithmetic InformationOrder
open List

/-- A constant with its undefined bits replaced by zeros and ones. -/
def Replaced : Const → Const → Prop := List.Forall₂ fun s t => Refines s t ∧ t.isDef = true

def Agree : Const → Const → Prop := List.Forall₂ fun s t => t.isDef = true → Refines s t

variable {a a' : Const}

theorem Replaced.refines (h : Replaced a a') : RefinesAll a a' :=
  List.Forall₂.imp (fun _ _ both => both.1) h

theorem Replaced.isFullyDef (h : Replaced a a') : a'.isFullyDef = true := by
  induction h with
  | nil => rfl
  | cons head _ ih =>
    simp only [Const.isFullyDef, all_cons, Bool.and_eq_true] at ih ⊢
    exact ⟨head.2, ih⟩

theorem agree_of_refines (h : RefinesAll a a') : Agree a a' := by
  refine List.Forall₂.imp ?_ h
  intro s t refined _
  exact refined

theorem Agree.refines (h : Agree a a') (defined : a'.isFullyDef = true) : RefinesAll a a' := by
  induction h with
  | nil => exact .nil
  | cons head _ ih =>
    simp only [Const.isFullyDef, all_cons, Bool.and_eq_true] at defined
    exact .cons (head defined.1) (ih defined.2)

theorem magnitude_mono (h : RefinesAll a a') : magnitude .S1 a ≤ magnitude .S1 a' := by
  induction h with
  | nil => exact le_rfl
  | @cons s t a a' head _ ih =>
    simp only [magnitude]
    by_cases one : s = .S1
    · have one' : t = .S1 := by
        rw [head (by rw [one]; rfl), one]
      simp only [one, one', if_true]
      omega
    · rw [if_neg one]
      omega

theorem pow_dvd_magnitude {k : Nat} {c : Const} (low : State.S1 ∉ c.take k) :
    2 ^ k ∣ magnitude .S1 c := by
  induction c generalizing k with
  | nil => exact dvd_zero _
  | cons s c ih =>
    cases k with
    | zero => exact one_dvd _
    | succ k =>
      simp only [take_succ_cons, mem_cons, not_or] at low
      have rest := ih low.2
      rw [magnitude, if_neg (fun one => low.1 one.symm), zero_add, pow_succ']
      exact Nat.mul_dvd_mul_left 2 rest

theorem exists_toConst {c : Const} (defined : c.isFullyDef = true) :
    ∃ (w : Nat) (x : BitVec w), c = toConst x :=
  ⟨_, bitsOf c, (toConst_bitsOf defined).symm⟩

theorem const2big_defined (c : Const) (s : Bool) (defined : c.isFullyDef = true) :
    (const2big c s (-1)).1 =
      if s && c.getLast? == some .S1 then (magnitude .S1 c : Int) - 2 ^ c.length
      else magnitude .S1 c := by
  obtain ⟨w, x, rfl⟩ := exists_toConst defined
  rw [const2big_toConst, magnitude_toConst, toConst_getLast?, toConst_length]
  cases s with
  | false => simp
  | true =>
    by_cases zero : w = 0
    · subst zero
      simp [BitVec.of_length_zero]
    · rw [intOf_true, BitVec.toInt_eq_msb_cond, if_neg zero]
      cases x.msb <;> simp [State.ofBool]

theorem const2big_pos {c : Const} {s : Bool} (positive : 0 < (const2big c s (-1)).1) :
    (s && c.getLast? == some .S1) = false ∧ (const2big c s (-1)).1 = magnitude .S1 c := by
  unfold const2big at positive ⊢
  split at positive
  · omega
  · rename_i unsigned
    rw [if_neg unsigned]
    exact ⟨by simpa using unsigned, rfl⟩

variable {a a' b b' : Const} {s : Bool} {n : Nat}

/-- The early return: a base without a one and a positive exponent, while an undefined bit of the
base may still contribute below position `n`. -/
def PowerLost (a b : Const) (s : Bool) (n : Nat) : Prop :=
  State.S1 ∉ a ∧ a.isFullyDef = false ∧ 0 < (const2big b s (-1)).1 ∧
    (a.findIdx (fun bit => !bit.isDef) : Int) * (const2big b s (-1)).1 < n

instance : Decidable (PowerLost a b s n) := inferInstanceAs (Decidable (_ ∧ _ ∧ _ ∧ _))

theorem constPow_value (definedA : a.isFullyDef = true) (definedB : b.isFullyDef = true) :
    constPow a b s s n = powerTo n (const2big a s (-1)).1 (const2big b s (-1)).1 := by
  obtain ⟨wa, x, rfl⟩ := exists_toConst definedA
  obtain ⟨wb, y, rfl⟩ := exists_toConst definedB
  rw [constPow_defined, const2big_toConst, const2big_toConst]

/-- Only a base without a one and with a positive exponent leaves before the undefined check. -/
theorem constPow_undefined (undefined : ¬ (a.isFullyDef = true ∧ b.isFullyDef = true)) :
    constPow a b s s n =
      if State.S1 ∉ a ∧ 0 < (const2big b s (-1)).1 then Const.ofState .S0 n
      else Const.ofState .Sx n := by
  have position := undefined_position undefined s s
  have value : (const2big b s (const2big a s (-1)).2).1 = (const2big b s (-1)).1 := by
    unfold const2big
    split <;> rfl
  have zero := const2big_eq_zero a s (-1)
  have rest (y : Int) : big2const y n (min (const2big b s (const2big a s (-1)).2).2 0) =
      Const.ofState .Sx n := by
    rw [big2const, if_pos (by omega)]
  simp only [constPow, value, zero, Int.toNat_natCast, resultLenOr_natCast, rest]
  by_cases negative : State.S1 ∉ a ∧ (const2big b s (-1)).1 < 0
  · rw [if_pos negative, if_neg (fun h => by omega)]
  · rw [if_neg negative]

theorem agree_zeros (x : BitVec n) : Agree (Const.ofState .S0 n) (toConst x) ↔ x = 0#n := by
  rw [← toConst_inj, ← ofState_zero]
  constructor
  · intro agree
    have zeros : Const.isFullyDef (Const.ofState .S0 n) = true := by
      rw [ofState_zero]
      exact toConst_isFullyDef _
    exact (agree.refines (toConst_isFullyDef x)).eq_of_isFullyDef zeros
  · intro equal
    rw [equal]
    exact agree_of_refines (RefinesAll.refl _)

theorem ofInt_eq_zero (r : Int) : BitVec.ofInt n r = 0#n ↔ (2 : Int) ^ n ∣ r := by
  have power : ((2 ^ n : Nat) : Int) = 2 ^ n := by push_cast; rfl
  rw [← BitVec.toNat_inj, BitVec.toNat_ofInt, BitVec.toNat_zero, power, Int.dvd_iff_emod_eq_zero]
  omega

theorem low_zeros (ha : RefinesAll a a') (zero : State.S1 ∉ a) :
    State.S1 ∉ a'.take (a.findIdx fun bit => !bit.isDef) := by
  have defined : Const.isFullyDef (a.take (a.findIdx fun bit => !bit.isDef)) = true := by
    refine all_eq_true.mpr fun bit mem => ?_
    obtain ⟨i, inside, rfl⟩ := mem_iff_getElem.mp mem
    have before : i < a.findIdx fun bit => !bit.isDef := by
      simp only [length_take] at inside
      omega
    simpa using not_of_lt_findIdx before
  rw [(ha.take _).eq_of_isFullyDef defined]
  exact fun mem => zero (mem_of_mem_take mem)

theorem exponent_cases (hb : Replaced b b') (positive : 0 < (const2big b s (-1)).1) :
    (const2big b' s (-1)).1 < 0 ∨ (const2big b s (-1)).1 ≤ (const2big b' s (-1)).1 := by
  have grown := magnitude_mono hb.refines
  obtain ⟨-, value⟩ := const2big_pos positive
  rw [value, const2big_defined b' s hb.isFullyDef]
  split
  · left
    obtain ⟨w, y, rfl⟩ := exists_toConst hb.isFullyDef
    have below := y.isLt
    rw [magnitude_toConst, toConst_length]
    linarith
  · omega

theorem base_dvd (ha : Replaced a a') (zero : State.S1 ∉ a) (undefined : a.isFullyDef = false) :
    (2 : Int) ^ (a.findIdx fun bit => !bit.isDef) ∣ (const2big a' s (-1)).1 := by
  have inside : (a.findIdx fun bit => !bit.isDef) < a.length := by
    obtain ⟨bit, mem, odd⟩ := all_eq_false.mp undefined
    exact findIdx_lt_length_of_exists ⟨bit, mem, by simpa using odd⟩
  have low : ((2 ^ (a.findIdx fun bit => !bit.isDef) : Nat) : Int) ∣ magnitude .S1 a' :=
    Int.natCast_dvd_natCast.mpr (pow_dvd_magnitude (low_zeros ha.refines zero))
  rw [const2big_defined a' s ha.isFullyDef]
  split
  · apply dvd_sub low
    apply pow_dvd_pow
    rw [← ha.refines.length]
    omega
  · exact low

theorem agree_powerTo {x y : Int} (zero : ∀ r, intPow x y = some r → (2 : Int) ^ n ∣ r) :
    Agree (Const.ofState .S0 n) (powerTo n x y) := by
  cases value : intPow x y with
  | none =>
    simp only [powerTo, value]
    refine forall₂_iff_get.mpr ⟨by simp [Const.ofState], ?_⟩
    intro i _ inside defined
    simp [Const.ofState, State.isDef] at defined
  | some r =>
    simp only [powerTo, value]
    exact (agree_zeros _).mpr ((ofInt_eq_zero r).mpr (zero r value))

theorem intPow_dvd {x y b : Int} {k : Nat} (base : (2 : Int) ^ k ∣ x) (exponent : y < 0 ∨ b ≤ y)
    (high : (n : Int) ≤ k * b) {r : Int} (value : intPow x y = some r) : (2 : Int) ^ n ∣ r := by
  unfold intPow at value
  by_cases nonneg : 0 ≤ y
  · rw [if_pos nonneg] at value
    obtain rfl := Option.some.inj value
    have larger : b ≤ y := by omega
    have enough : n ≤ k * y.toNat := by
      have : (k : Int) * b ≤ k * y := by gcongr
      zify
      rw [Int.toNat_of_nonneg nonneg]
      omega
    calc (2 : Int) ^ n ∣ 2 ^ (k * y.toNat) := pow_dvd_pow 2 enough
      _ = (2 ^ k) ^ y.toNat := pow_mul 2 k _
      _ ∣ x ^ y.toNat := pow_dvd_pow_of_dvd base _
  · rw [if_neg nonneg] at value
    by_cases zero : x = 0
    · rw [if_pos zero] at value
      cases value
    · rw [if_neg zero] at value
      obtain rfl := Option.some.inj value
      rcases Nat.eq_zero_or_pos n with rfl | some
      · exact one_dvd _
      · have low : 0 < k := by
          by_contra none
          obtain rfl : k = 0 := by omega
          omega
        have even : 2 ≤ x.natAbs := by
          have divides : (2 : Int) ∣ x := (dvd_pow_self 2 low.ne').trans base
          omega
        have small : Int.tdiv 1 (x ^ y.natAbs) = 0 := by
          apply Int.natAbs_eq_zero.mp
          rw [Int.natAbs_tdiv, Int.natAbs_pow]
          exact Nat.div_eq_of_lt (Nat.one_lt_pow (by omega) (by omega))
        rw [small]
        exact dvd_zero _

/-- An early return of zeros agrees with every replacement unless a low bit is lost. -/
theorem power_sound (ha : Replaced a a') (hb : Replaced b b') (kept : ¬ PowerLost a b s n) :
    Agree (constPow a b s s n) (constPow a' b' s s n) := by
  by_cases full : a.isFullyDef = true ∧ b.isFullyDef = true
  · rw [ha.refines.eq_of_isFullyDef full.1, hb.refines.eq_of_isFullyDef full.2]
    exact agree_of_refines (RefinesAll.refl _)
  · rw [constPow_undefined full, constPow_value ha.isFullyDef hb.isFullyDef]
    split
    · rename_i early
      obtain ⟨zero, positive⟩ := early
      have exponent := exponent_cases hb positive
      apply agree_powerTo
      intro r value
      cases defined : a.isFullyDef with
      | true =>
        -- a defined zero base, whose power is zero or has no value
        have base : (const2big a' s (-1)).1 = 0 := by
          rw [ha.refines.eq_of_isFullyDef defined]
          exact (const2big_eq_zero a s _).mpr zero
        rw [base] at value
        refine intPow_dvd (dvd_zero (2 ^ n)) exponent ?_ value
        nlinarith
      | false =>
        have high : (n : Int) ≤ (a.findIdx fun bit => !bit.isDef : Nat) * (const2big b s (-1)).1 := by
          by_contra low
          exact kept ⟨zero, defined, positive, by omega⟩
        exact intPow_dvd (base_dvd ha zero defined) exponent high value
    · exact agree_of_refines (RefinesAll.undef (powerTo_length n _ _))

theorem exists_lowest (s : Bool) (zero : State.S1 ∉ a) (undefined : a.isFullyDef = false) :
    ∃ a', Replaced a a' ∧
      (const2big a' s (-1)).1.natAbs = 2 ^ (a.findIdx fun bit => !bit.isDef) := by
  have exists_undefined : ∃ bit ∈ a, (!bit.isDef) = true := by
    obtain ⟨bit, mem, odd⟩ := all_eq_false.mp undefined
    exact ⟨bit, mem, by simpa using odd⟩
  have inside := findIdx_lt_length_of_exists exists_undefined
  have first := findIdx_getElem (w := inside)
  generalize (a.findIdx fun bit => !bit.isDef) = k at inside first ⊢
  have replaced : Replaced a ((replicate a.length .S0).set k .S1) := by
    refine forall₂_iff_get.mpr ⟨by simp, ?_⟩
    intro i hi _
    simp only [get_eq_getElem, getElem_set, getElem_replicate]
    by_cases here : k = i
    · subst here
      refine ⟨fun defined => ?_, by simp [State.isDef]⟩
      simp [defined] at first
    · have other : a[i] ≠ .S1 := fun one => zero (one ▸ getElem_mem hi)
      simp only [here, if_false]
      refine ⟨fun defined => ?_, rfl⟩
      cases bit : a[i] <;> simp_all [State.isDef]
  have value : magnitude .S1 ((replicate a.length State.S0).set k .S1) = 2 ^ k := by
    apply Nat.eq_of_testBit_eq
    intro i
    rw [magnitude_testBit, Nat.testBit_two_pow]
    by_cases here : k = i
    · subst here
      simp [inside]
    · simp [here, getElem?_replicate]
  refine ⟨_, replaced, ?_⟩
  rw [const2big_defined _ s replaced.isFullyDef, value]
  split
  · rename_i signed
    have last : k + 1 = a.length := by
      by_contra short
      simp only [Bool.and_eq_true, beq_iff_eq, getLast?_eq_getElem?, length_set,
        length_replicate] at signed
      rw [getElem?_set_ne (by omega), getElem?_replicate] at signed
      simp at signed
    rw [length_set, length_replicate, ← last, pow_succ]
    generalize hm : (2 : Int) ^ k = m
    have same : ((2 ^ k : Nat) : Int) = m := by rw [← hm]; push_cast; rfl
    omega
  · rw [Int.natAbs_natCast]

theorem exists_same (positive : 0 < (const2big b s (-1)).1) :
    ∃ b', Replaced b b' ∧ (const2big b' s (-1)).1 = (const2big b s (-1)).1 := by
  have replaced : Replaced b (b.map fun bit => if bit = .S1 then .S1 else .S0) := by
    rw [Replaced, forall₂_map_right_iff, forall₂_same]
    have table : ∀ bit : State, Refines bit (if bit = .S1 then .S1 else .S0) ∧
        (if bit = .S1 then State.S1 else .S0).isDef = true := by decide
    exact fun bit _ => table bit
  have value : magnitude .S1 (b.map fun bit => if bit = .S1 then .S1 else .S0) =
      magnitude .S1 b := by
    clear positive replaced
    induction b with
    | nil => rfl
    | cons bit b ih => by_cases one : bit = .S1 <;> simp [magnitude, ih]
  obtain ⟨unsigned, same⟩ := const2big_pos positive
  refine ⟨_, replaced, ?_⟩
  rw [const2big_defined _ s replaced.isFullyDef, value, same, if_neg]
  rw [getLast?_map]
  cases last : b.getLast? with
  | none => simp
  | some bit =>
    by_cases one : bit = .S1
    · simpa [last] using unsigned
    · simp [one]

theorem power_unsound (lost : PowerLost a b s n) :
    ∃ a' b', Replaced a a' ∧ Replaced b b' ∧
      ¬ Agree (constPow a b s s n) (constPow a' b' s s n) := by
  obtain ⟨zero, undefined, positive, low⟩ := lost
  obtain ⟨a', ha, base⟩ := exists_lowest s zero undefined
  obtain ⟨b', hb, exponent⟩ := exists_same positive
  refine ⟨a', b', ha, hb, ?_⟩
  rw [constPow_undefined (by simp [undefined]), if_pos ⟨zero, positive⟩,
    constPow_value ha.isFullyDef hb.isFullyDef, exponent]
  have value : powerTo n (const2big a' s (-1)).1 (const2big b s (-1)).1 =
      toConst (BitVec.ofInt n ((const2big a' s (-1)).1 ^ (const2big b s (-1)).1.toNat)) := by
    simp [powerTo, intPow, positive.le]
  rw [value, agree_zeros, ofInt_eq_zero]
  intro divides
  have size := Int.natAbs_dvd_natAbs.mpr divides
  rw [Int.natAbs_pow, Int.natAbs_pow, base, ← pow_mul] at size
  have order : n ≤ (a.findIdx fun bit => !bit.isDef) * (const2big b s (-1)).1.toNat :=
    (Nat.pow_dvd_pow_iff_le_right (by decide)).mp size
  zify at order
  rw [Int.toNat_of_nonneg positive.le] at order
  omega

variable (type : CellType) (parameters : ParamId → Option Const)

/-- The operand widths and the result width that the cell checker demands. -/
def Checked (a b : Const) : Prop :=
  match type with
  | .other id =>
    (id = "$bmux" → 2 ^ b.length ∣ a.length) ∧
    (id = "$lut" → ∀ width, parameters .WIDTH = some width → a.length = width.asInt)
  | _ => 0 ≤ ((parameters .Y_WIDTH).map Const.asInt).getD (-1)

/-- Every replacement of the undefined bits gives a result that agrees. -/
def EvaluatesSoundly (a b : Const) : Prop :=
  ∀ a' b', Replaced a a' → Replaced b b' →
    Option.Rel Agree (evalCell type parameters a b) (evalCell type parameters a' b')

def bothSigned (parameters : ParamId → Option Const) : Bool :=
  ((parameters .A_SIGNED).map Const.asBool).getD false &&
    ((parameters .B_SIGNED).map Const.asBool).getD false

def resultWidth (parameters : ParamId → Option Const) : Nat :=
  (((parameters .Y_WIDTH).map Const.asInt).getD (-1)).toNat

variable {type : CellType} {parameters : ParamId → Option Const} {a a' b b' : Const}

theorem evalCell_refines (caseEq : type ≠ .eqx) (caseNe : type ≠ .nex) (power : type ≠ .pow)
    (checked : Checked type parameters a b) (ha : RefinesAll a a') (hb : RefinesAll b b') :
    Option.Rel RefinesAll (evalCell type parameters a b) (evalCell type parameters a' b') := by
  simp only [evalCell, ← ha.length]
  refine rel_ite (fun _ => ?slice) fun _ => rel_ite (fun _ => .some (ha.append hb)) fun _ =>
    rel_ite (fun bmux => ?bmux) fun _ => rel_ite (fun _ => .some (constDemux_refines ha hb)) fun _ =>
    rel_ite (fun lut => ?lut) fun _ => rel_ite (fun _ => ?sop) fun _ => ?word
  case slice =>
    refine rel_bind _ fun width _ => rel_bind _ fun offset _ => rel_bind _ fun _ _ => .some ?_
    exact (ha.drop _).take _
  case bmux =>
    subst bmux
    obtain ⟨m, length⟩ := checked.1 rfl
    exact .some (constBmux_refines ha hb length).2
  case lut =>
    subst lut
    refine rel_bind _ fun width present => rel_bind _ fun lut _ => rel_bind _ fun _ _ => .some ?_
    have length := checked.2 rfl width present
    refine (constBmux_refines (m := 1) (RefinesAll.refl _) ha ?_).2
    simp [extendU0, ← length]
    omega
  case sop =>
    refine rel_bind _ fun width _ => rel_bind _ fun depth _ => rel_bind _ fun table _ =>
      rel_bind _ fun _ _ => .some ?_
    exact .cons (evalSop_refines ha table _ _) .nil
  case word =>
    by_cases gate : ∃ id, type = .other id
    · obtain ⟨id, rfl⟩ := gate
      exact evalGate_refines ha hb id
    · have present : 0 ≤ ((parameters .Y_WIDTH).map Const.asInt).getD (-1) := by
        cases type <;> first | exact checked | exact absurd ⟨_, rfl⟩ gate
      obtain ⟨n, width⟩ := Int.eq_ofNat_of_zero_le present
      rw [width]
      exact eval_refines ha hb caseEq caseNe power _ _ n

theorem evalCell_pow (checked : Checked .pow parameters a b) :
    evalCell .pow parameters a b =
      some (constPow a b (bothSigned parameters) (bothSigned parameters) (resultWidth parameters)) := by
  have width : ((parameters .Y_WIDTH).map Const.asInt).getD (-1) = resultWidth parameters :=
    (Int.toNat_of_nonneg checked).symm
  simp [evalCell, width, eval, evalTable, keepsOwnSign, bothSigned]

theorem rel_agree {x y : Option Const} (h : Option.Rel RefinesAll x y) : Option.Rel Agree x y := by
  cases h with
  | none => exact .none
  | some refined => exact .some (agree_of_refines refined)

/-- Evaluation is sound for undefined bits except for the powers that leave early. -/
theorem undefined_bits_iff_sound (caseEq : type ≠ .eqx) (caseNe : type ≠ .nex)
    (checked : Checked type parameters a b) :
    EvaluatesSoundly type parameters a b ↔
      ¬ (type = .pow ∧ PowerLost a b (bothSigned parameters) (resultWidth parameters)) := by
  by_cases power : type = .pow
  · subst power
    have value (a' b' : Const) := evalCell_pow (a := a') (b := b') checked
    simp only [true_and, EvaluatesSoundly, value, Option.rel_some_some]
    constructor
    · intro sound lost
      obtain ⟨a', b', ha, hb, differ⟩ := power_unsound lost
      exact differ (sound a' b' ha hb)
    · intro kept a' b' ha hb
      exact power_sound ha hb kept
  · simp only [power, false_and, not_false_eq_true, iff_true]
    intro a' b' ha hb
    exact rel_agree (evalCell_refines caseEq caseNe power checked ha.refines hb.refines)

/-- A one-bit power with an undefined base. -/
def powerParameters : ParamId → Option Const
  | .Y_WIDTH => some [.S1]
  | _ => none

/-- The undefined base to the first power folds to zero, but with the bit set the power is one. -/
theorem undefined_base_folds_to_zero :
    evalCell .pow powerParameters [.Sx] [.S1] = some [.S0] ∧
    evalCell .pow powerParameters [.S1] [.S1] = some [.S1] ∧
    ¬ EvaluatesSoundly .pow powerParameters [.Sx] [.S1] := by
  have folded : evalCell .pow powerParameters [.Sx] [.S1] = some [.S0] := by decide
  have exact : evalCell .pow powerParameters [.S1] [.S1] = some [.S1] := by
    rw [evalCell_pow (show (0 : Int) ≤ _ by decide), constPow_value (by decide) (by decide)]
    decide
  refine ⟨folded, exact, ?_⟩
  intro sound
  have agree := sound [.S1] [.S1] (by simp [Replaced, Refines, State.isDef])
    (by simp [Replaced, Refines, State.isDef])
  rw [folded, exact] at agree
  simp [Agree, Refines, State.isDef] at agree

theorem undefined_bits_high_power : EvaluatesSoundly .pow powerParameters [.S0, .Sx] [.S1] :=
  (undefined_bits_iff_sound (by decide) (by decide) (show (0 : Int) ≤ _ by decide)).mpr (by decide)

end ManticoreFrontend.Kernel.UndefinedBits
