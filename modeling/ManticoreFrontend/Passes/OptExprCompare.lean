/- source: passes/opt/opt_expr.cc (replace_const_cells: $lt, $le, $gt, $ge with a constant;
           get_highest_hot_index)
   digest: Comparisons with a constant replaced by constants and bit tests, and exactly when the
           rewriting of comparison cells is right. -/

import ManticoreFrontend.Passes.OptExprDivision
import ManticoreFrontend.Passes.OptExprEqual

namespace ManticoreFrontend.Passes.OptExprCompare

open Foundation.BitWord Kernel Constants Calc CellTypes Circuits Option DefinedValues Nets Signals
open UndefinedBits OptExprEqual List
open Passes.OptExprDivision (isOnehot isOnehot_value)

def mirror : CellType → CellType
  | .gt => .lt
  | .lt => .gt
  | .ge => .le
  | .le => .ge
  | type => type

/-- The loop of `get_highest_hot_index` over the bits from the highest one. -/
def highestHotLoop : List State → Int
  | [] => -1
  | .S0 :: rest => highestHotLoop rest
  | .S1 :: rest => rest.length
  | _ :: _ => -1

def highestHotIndex (c : Const) : Int := highestHotLoop c.reverse

def constantOf (sig : SigSpec) : Option Const :=
  sig.mapM fun bit => match bit with
    | .const data => some data
    | .wire _ _ => none

/-- The low bit of a constant result of an unsigned comparison. The rules are tried from the last
one, which overwrites the bits of the ones before. -/
def constantBit (cmp : CellType) (varWidth : Nat) (c : Const) : Option State :=
  if highestHotIndex c ≥ varWidth ∧ (cmp = .gt ∨ cmp = .ge) then some .S0
  else if highestHotIndex c ≥ varWidth ∧ (cmp = .lt ∨ cmp = .le) then some .S1
  else if c.length = varWidth ∧ c.isFullyOnes = true ∧ cmp = .le then some .S1
  else if c.length = varWidth ∧ c.isFullyOnes = true ∧ cmp = .gt then some .S0
  else if c.isFullyZero = true ∧ cmp = .ge then some .S1
  else if c.isFullyZero = true ∧ cmp = .lt then some .S0
  else none

/-- An unsigned comparison with a power of two tests the bits from its exponent on. -/
def highTest (cmp : CellType) (var : SigSpec) (c : Const) (yWidth : Nat) : Option Circuit :=
  match isOnehot c with
  | some hot =>
    if hot < var.length then
      if cmp = .lt then some (.unary .logicNot false (.sig (var.drop hot)) yWidth)
      else if cmp = .ge then some (.unary .reduceOr false (.sig (var.drop hot)) yWidth)
      else none
    else none
  | none => none

/-- Y with one bit set in a signal of zeros; writing to a signal without bits is an exception. -/
def driveLow (bit : SigBit) (yWidth : Nat) : Outcome :=
  if yWidth = 0 then .abort
  else .drive (.sig (bit :: List.replicate (yWidth - 1) (.const .S0)))

/-- The rules for a comparison of `var` with the constant `c`. -/
def compareConstant (cell : CompareCell) (cmp : CellType) (var : SigSpec) (c : Const) : Outcome :=
  if cell.signedA = false then
    match constantBit cmp var.length c, highTest cmp var c cell.yWidth with
    | some bit, _ => driveLow (.const bit) cell.yWidth
    | none, some test => .drive test
    | none, none => .keep cell
  else if c.isFullyZero = true ∧ cmp = .lt then
    match var.getLast? with
    | some sign => driveLow sign cell.yWidth
    | none => .abort
  else if c.isFullyZero = true ∧ cmp = .ge then
    match var.getLast? with
    | some sign => .drive (.unary .not false (.sig [sign]) cell.yWidth)
    | none => .abort
  else .keep cell

def compareRule (cell : CompareCell) : Outcome :=
  let swapped := !CompareCell.isFullyConst cell.b
  let cmp := if swapped then mirror cell.type else cell.type
  let var := if swapped then cell.b else cell.a
  match constantOf (if swapped then cell.a else cell.b) with
  | some c => if c.isFullyDef then compareConstant cell cmp var c else .keep cell
  | none => .keep cell

def replaceCompare (map : SigBit → SigBit) (lt : SigBit → SigBit → Bool) (doFine : Bool)
    (cell : CompareCell) : Outcome :=
  if cell.type ∈ [CellType.eq, .ne, .eqx, .nex] then replaceEqual map lt doFine cell
  else if doFine then compareRule cell
  else .keep cell

inductive Operands
  | any
  | constantB (varWidth : Nat) (c : Const)
  | constantA (varWidth : Nat) (c : Const)

/-- Comparison cells of one type, signedness, output width and shape of operands. -/
structure CompareKind where
  type : CellType
  signedA : Bool
  signedB : Bool
  yWidth : Nat
  operands : Operands

namespace CompareKind

def HasOperands (cell : CompareCell) : Operands → Prop
  | .any => True
  | .constantB varWidth c => cell.b = SigSpec.ofConst c ∧ cell.a.length = varWidth
  | .constantA varWidth c => cell.a = SigSpec.ofConst c ∧ cell.b.length = varWidth ∧
      CompareCell.isFullyConst cell.b = false

variable (kind : CompareKind)

structure Holds (cell : CompareCell) : Prop where
  type : cell.type = kind.type
  signedA : cell.signedA = kind.signedA
  signedB : cell.signedB = kind.signedB
  yWidth : cell.yWidth = kind.yWidth
  operands : HasOperands cell kind.operands

/-- A fully defined constant, beside a signal with at least one bit when the constant is at A. -/
def HasConstant : Operands → Prop
  | .any => False
  | .constantB _ c => c.isFullyDef = true
  | .constantA varWidth c => c.isFullyDef = true ∧ varWidth ≠ 0

def Applies : Prop :=
  kind.type ∈ [CellType.eq, .ne, .eqx, .nex] ∨
    (kind.type ∈ [CellType.lt, .le, .gt, .ge] ∧ HasConstant kind.operands)

/-- Every rewriting of every cell of the kind gives Y the evaluator's bits, for all two-valued
operands. -/
def RewritesRight : Prop :=
  ∀ cell, kind.Holds cell → ∀ (map : SigBit → SigBit) (lt : SigBit → SigBit → Bool)
    (doFine : Bool) (r : Reading), CompareCell.Respects map r → cell.TwoValued r →
      (replaceCompare map lt doFine cell).Right cell r

/-- The comparisons of a signal with a constant that are rewritten rightly. -/
def ConstantExact (cmp : CellType) (varWidth : Nat) (c : Const) : Prop :=
  if kind.signedA = false then kind.yWidth ≠ 0 ∨ constantBit cmp varWidth c = none
  else c.isFullyZero = true →
    (cmp = .lt → varWidth ≠ 0 ∧ kind.yWidth ≠ 0 ∧ kind.signedB = true) ∧
    (cmp = .ge → varWidth ≠ 0 ∧ (kind.yWidth = 0 ∨ (kind.yWidth = 1 ∧ kind.signedB = true)))

/-- The kinds that are rewritten rightly: all equality cells, and these comparisons. -/
def Exact : Prop :=
  match kind.operands with
  | .any => True
  | .constantB varWidth c =>
    kind.type ∈ [CellType.lt, .le, .gt, .ge] → kind.ConstantExact kind.type varWidth c
  | .constantA varWidth c =>
    kind.type ∈ [CellType.lt, .le, .gt, .ge] → kind.ConstantExact (mirror kind.type) varWidth c

end CompareKind

def relation : CellType → Int → Int → Bool
  | .lt => fun a b => a < b
  | .le => fun a b => a ≤ b
  | .gt => fun a b => a > b
  | _ => fun a b => a ≥ b

theorem relation_mirror {type : CellType} (order : type ∈ [CellType.lt, .le, .gt, .ge]) (a b : Int) :
    relation (mirror type) b a = relation type a b := by
  simp only [mem_cons, not_mem_nil, or_false] at order
  obtain rfl | rfl | rfl | rfl := order <;> simp [mirror, relation]

variable {w v : Nat} {y : BitVec v}

private theorem value_order (cell : CompareCell) {r : Reading} {x : BitVec w}
    (order : cell.type ∈ [CellType.lt, .le, .gt, .ge]) (valueA : r.sig cell.a = toConst x)
    (valueB : r.sig cell.b = toConst y) :
    Shows (cell.value r) cell.yWidth
      (relation cell.type (intOf cell.bothSigned x) (intOf cell.bothSigned y)) := by
  have compare (rel : Int → Int → Bool) :
      (constCompare rel (toConst x) (toConst y) cell.bothSigned cell.bothSigned
        cell.yWidth).take cell.yWidth =
      truthBits cell.yWidth (rel (intOf cell.bothSigned x) (intOf cell.bothSigned y)) := by
    apply CompareCell.take_truthBits
    intro positive
    exact constCompare_defined x y rel _ _ positive
  have member := order
  simp only [mem_cons, not_mem_nil, or_false] at member
  obtain type | type | type | type := member <;>
    refine ⟨_, ?_, compare (relation cell.type)⟩ <;>
    simp [CompareCell.value, valueA, valueB, type, eval, keepsOwnSign, evalTable, relation,
      CompareCell.bothSigned, constLt, constLe, constGt, constGe]

private theorem highestHotLoop_bit {l : List State} {i : Nat} (hot : highestHotLoop l = i) :
    l.reverse[i]? = some .S1 := by
  induction l with
  | nil =>
    unfold highestHotLoop at hot
    omega
  | cons s rest ih =>
    rw [reverse_cons]
    unfold highestHotLoop at hot
    split at hot
    · omega
    · rename_i equal
      obtain ⟨-, rfl⟩ := List.cons.inj equal
      have found := ih hot
      rw [List.getElem?_append_left (List.getElem?_eq_some_iff.mp found).1]
      exact found
    · rename_i equal
      obtain ⟨rfl, rfl⟩ := cons.inj equal
      have index : i = rest.reverse.length := by
        rw [length_reverse]
        omega
      rw [index, getElem?_concat_length]
    · omega

/-- A constant with a bit at or above the width of the operand exceeds every operand. -/
theorem two_pow_le_of_highestHot (hot : highestHotIndex (toConst y) ≥ w) : 2 ^ w ≤ y.toNat := by
  obtain ⟨i, index⟩ := Int.eq_ofNat_of_zero_le (Int.le_trans (Int.natCast_nonneg w) hot)
  have set := highestHotLoop_bit index
  rw [reverse_reverse] at set
  have bit : y.toNat.testBit i = true := by
    rw [← magnitude_toConst, magnitude_testBit, set]
    rfl
  have power := Nat.ge_two_pow_of_testBit bit
  have wider : w ≤ i := by omega
  exact Nat.le_trans (Nat.pow_le_pow_right (by decide) wider) power

theorem getLsbD_of_all {b : Bool} (all : (toConst y).all (· == State.ofBool b) = true) {i : Nat}
    (inside : i < v) : y.getLsbD i = b := by
  have bit := all_eq_true.mp all _ (getElem_mem (by simpa using inside))
  rw [beq_iff_eq, toConst_getElem] at bit
  exact State.ofBool_injective bit

private theorem toNat_of_isFullyZero (zero : (toConst y).isFullyZero = true) : y.toNat = 0 := by
  have none : y = 0#(v) := BitVec.eq_of_getLsbD_eq fun i inside => by
    rw [getLsbD_of_all (b := false) zero inside, BitVec.getLsbD_zero]
  rw [none, BitVec.toNat_zero]

theorem toNat_of_isFullyOnes (ones : (toConst y).isFullyOnes = true) : y.toNat = 2 ^ v - 1 := by
  have all : y = BitVec.allOnes v := BitVec.eq_of_getLsbD_eq fun i inside => by
    rw [getLsbD_of_all (b := true) ones inside]
    simp [inside]
  rw [all, BitVec.toNat_allOnes]

private theorem constantBit_value {cmp : CellType} (x : BitVec w) {bit : State}
    (rule : constantBit cmp w (toConst y) = some bit) :
    bit = State.ofBool (relation cmp x.toNat y.toNat) := by
  have oneBits (ones : (toConst y).length = w ∧ (toConst y).isFullyOnes = true) :
      x.toNat ≤ y.toNat := by
    have top := toNat_of_isFullyOnes ones.2
    have width := ones.1
    rw [toConst_length] at width
    subst width
    omega
  unfold constantBit at rule
  split_ifs at rule with above below onesLe onesGt zeroGe zeroLt <;> cases rule
  · have high := two_pow_le_of_highestHot above.1
    obtain rfl | rfl := above.2 <;> simp [relation, State.ofBool] <;> omega
  · have high := two_pow_le_of_highestHot below.1
    obtain rfl | rfl := below.2 <;> simp [relation, State.ofBool] <;> omega
  · obtain ⟨width, ones, rfl⟩ := onesLe
    simpa [relation, State.ofBool] using oneBits ⟨width, ones⟩
  · obtain ⟨width, ones, rfl⟩ := onesGt
    simpa [relation, State.ofBool] using oneBits ⟨width, ones⟩
  · obtain ⟨zero, rfl⟩ := zeroGe
    simp [relation, toNat_of_isFullyZero zero, State.ofBool]
  · obtain ⟨zero, rfl⟩ := zeroLt
    simp [relation, toNat_of_isFullyZero zero, State.ofBool]

private theorem toConst_drop (x : BitVec w) (k : Nat) :
    (toConst x).drop k = toConst ((x >>> k).setWidth (w - k)) := by
  apply eq_toConst
  · simp
  · intro i inside short
    simp [short]

private theorem high_eq_zero_iff {k : Nat} (x : BitVec w) :
    (x >>> k).setWidth (w - k) = 0#(w - k) ↔ x.toNat < 2 ^ k := by
  have low := x.isLt
  have quotient : x.toNat / 2 ^ k < 2 ^ (w - k) := by
    rw [Nat.div_lt_iff_lt_mul (Nat.two_pow_pos k), ← Nat.pow_add]
    exact Nat.lt_of_lt_of_le low (Nat.pow_le_pow_right (by decide) (by omega))
  rw [← BitVec.toNat_inj, BitVec.toNat_setWidth, BitVec.toNat_ushiftRight, BitVec.toNat_zero,
    Nat.shiftRight_eq_div_pow, Nat.mod_eq_of_lt quotient, Nat.div_eq_zero_iff]
  have positive := Nat.two_pow_pos k
  omega

theorem highTest_value {cmp : CellType} {var : SigSpec} {r : Reading} {n : Nat} {x : BitVec w}
    {test : Circuit} (operand : r.sig var = toConst x)
    (rule : highTest cmp var (toConst y) n = some test) :
    Shows (test.value r) n (relation cmp x.toNat y.toNat) := by
  unfold highTest at rule
  split at rule
  · rename_i hot onehot
    have value := (isOnehot_value onehot).2
    rw [magnitude_toConst] at value
    have high : r.sig (var.drop hot) = toConst ((x >>> hot).setWidth (w - hot)) := by
      rw [Reading.sig, map_drop]
      change drop hot (r.sig var) = _
      rw [operand, toConst_drop]
    split at rule
    · split at rule
      · rename_i type
        obtain rfl := some.inj rule
        refine ⟨constLogicNot (toConst ((x >>> hot).setWidth (w - hot))) false n, ?_, ?_⟩
        · rw [Circuit.value_unary rfl, high]
          simp [eval, evalTable]
        · apply CompareCell.take_truthBits
          intro positive
          rw [constLogicNot_defined _ _ positive, truthBits, type, relation]
          congr 2
          rw [Bool.eq_iff_iff, beq_iff_eq, high_eq_zero_iff, decide_eq_true_eq, value]
          norm_cast
      · split at rule
        · rename_i type
          obtain rfl := some.inj rule
          refine ⟨constReduceOr (toConst ((x >>> hot).setWidth (w - hot))) n, ?_, ?_⟩
          · rw [Circuit.value_unary rfl, high]
            simp [eval, evalTable]
          · apply CompareCell.take_truthBits
            intro positive
            rw [constReduceOr_defined _ positive, truthBits, type]
            congr 2
            rw [Bool.eq_iff_iff, bne_iff_ne, Ne, high_eq_zero_iff]
            simp only [relation, value, ge_iff_le, decide_eq_true_eq, not_lt]
            norm_cast
        · cases rule
    · cases rule
  · cases rule

variable {cell : CompareCell} {cmp : CellType} {var : SigSpec} {r : Reading} {x : BitVec w}

private theorem driveLow_value {bit : SigBit} {b : Bool} {n : Nat} (positive : n ≠ 0)
    (value : r.bit bit = State.ofBool b) : Shows ((driveLow bit n).value r) n b := by
  rw [driveLow, if_neg positive]
  refine ⟨_, rfl, ?_⟩
  rw [← CompareCell.extendU0_ofBool]
  have zero : r.bit (.const .S0) = .S0 := rfl
  simp [extendU0, Reading.sig, value, zero]

private theorem exists_sign (nonempty : var.length ≠ 0) : ∃ sign, var.getLast? = some sign :=
  ⟨_, getLast?_eq_some_getLast (by rintro rfl; exact nonempty rfl)⟩

private theorem sign_value {sign : SigBit} (operand : r.sig var = toConst x)
    (last : var.getLast? = some sign) : r.bit sign = State.ofBool x.msb := by
  have top := congrArg getLast? operand
  rw [Reading.sig, getLast?_map, last, toConst_getLast?, map_some] at top
  split at top
  · cases top
  · exact some.inj top

theorem inverter_value {sign : SigBit} {b : Bool} (value : r.bit sign = State.ofBool b) (n : Nat) :
    (Outcome.drive (.unary .not false (.sig [sign]) n)).value r =
      some (toConst (~~~ extendTo false n (boolBits 1 b))) := by
  have bit : r.sig [sign] = toConst (boolBits 1 b) := by
    rw [← truthBits, CompareCell.truthBits_one, ← value]
    rfl
  rw [Outcome.value, Circuit.value_unary rfl, bit]
  simp [eval, evalTable, constNot_defined]

variable {truth : Bool}

private theorem right_of_value {out : Outcome} (expected : Shows (cell.value r) cell.yWidth truth)
    (driven : Shows (out.value r) cell.yWidth truth) : out.Right cell r := by
  obtain ⟨e, value, bits⟩ := expected
  obtain ⟨y, value', bits'⟩ := driven
  exact ⟨e, y, value, value', bits'.trans bits.symm⟩

private theorem right_keep (expected : Shows (cell.value r) cell.yWidth truth) :
    (Outcome.keep cell).Right cell r :=
  right_of_value expected expected

section

variable (expected : Shows (cell.value r) cell.yWidth
  (relation cmp (intOf cell.bothSigned x) (intOf cell.bothSigned y))) (operand : r.sig var = toConst x)

include expected operand

private theorem compareUnsigned_right (unsigned : cell.signedA = false)
    (exact : cell.yWidth ≠ 0 ∨ constantBit cmp var.length (toConst y) = none) :
    (compareConstant cell cmp var (toConst y)).Right cell r := by
  have length : var.length = w := by
    have := congrArg length operand
    simpa using this
  have plain : cell.bothSigned = false := by simp [CompareCell.bothSigned, unsigned]
  rw [plain, intOf_false, intOf_false] at expected
  rw [compareConstant, if_pos unsigned]
  cases constant : constantBit cmp var.length (toConst y) with
  | some bit =>
    have positive : cell.yWidth ≠ 0 := by simpa [constant] using exact
    rw [length] at constant
    have value := constantBit_value x constant
    exact right_of_value expected (driveLow_value positive value)
  | none =>
    cases tested : highTest cmp var (toConst y) cell.yWidth with
    | some test => exact right_of_value expected (highTest_value operand tested)
    | none => exact right_keep expected

private theorem compareSigned_right (signed : cell.signedA = true)
    (exact : (toConst y).isFullyZero = true →
      (cmp = .lt → var.length ≠ 0 ∧ cell.yWidth ≠ 0 ∧ cell.signedB = true) ∧
      (cmp = .ge → var.length ≠ 0 ∧
        (cell.yWidth = 0 ∨ (cell.yWidth = 1 ∧ cell.signedB = true)))) :
    (compareConstant cell cmp var (toConst y)).Right cell r := by
  rw [compareConstant, if_neg (by simp [signed])]
  split
  · rename_i rule
    obtain ⟨zero, rfl⟩ := rule
    obtain ⟨nonempty, positive, signedB⟩ := (exact zero).1 rfl
    obtain ⟨sign, last⟩ := exists_sign nonempty
    rw [last]
    apply right_of_value expected
    apply driveLow_value positive
    have both : cell.bothSigned = true := by simp [CompareCell.bothSigned, signed, signedB]
    have none : y = 0#(v) := BitVec.eq_of_toNat_eq (toNat_of_isFullyZero zero)
    rw [sign_value operand last, both, none, BitVec.msb_eq_toInt]
    simp [relation]
  · split
    · rename_i rule
      obtain ⟨zero, rfl⟩ := rule
      obtain ⟨nonempty, width⟩ := (exact zero).2 rfl
      obtain ⟨sign, last⟩ := exists_sign nonempty
      rw [last]
      apply right_of_value expected
      refine ⟨_, inverter_value (sign_value operand last) _, ?_⟩
      obtain empty | ⟨one, signedB⟩ := width
      · rw [empty]
        simp [truthBits]
      · have both : cell.bothSigned = true := by simp [CompareCell.bothSigned, signed, signedB]
        have none : y = 0#(v) := BitVec.eq_of_toNat_eq (toNat_of_isFullyZero zero)
        have inverted : ∀ b, ~~~ extendTo false 1 (boolBits 1 b) = boolBits 1 !b := by decide
        rw [one, inverted, both, none, take_of_length_le (by simp), truthBits, BitVec.msb_eq_toInt]
        congr 2
        by_cases negative : x.toInt < 0
        · simp [relation, negative]
        · simp [relation, Int.not_lt.mp negative]
    · exact right_keep expected

end

/-- A signal of wire bits, with values for them. -/
def varWire (w : Nat) : Wire := { name := "x", width := w }

def varReading {w : Nat} (x : BitVec w) : Reading := fun _ offset => State.ofBool (x.getLsbD offset)

private theorem sig_varWire {w : Nat} (x : BitVec w) :
    (varReading x).sig (SigSpec.ofWire (varWire w)) = toConst x := by
  apply eq_toConst
  · simp [varWire]
  · simp [Reading.sig, SigSpec.ofWire, Reading.bit, varReading]

private theorem isFullyConst_varWire {w : Nat} (nonempty : w ≠ 0) :
    CompareCell.isFullyConst (SigSpec.ofWire (varWire w)) = false := by
  have inside : 0 < (SigSpec.ofWire (varWire w)).length := by
    rw [SigSpec.ofWire_length]
    exact Nat.pos_of_ne_zero nonempty
  refine all_eq_false.mpr ⟨_, getElem_mem inside, ?_⟩
  simp [SigSpec.ofWire]

private theorem constantOf_ofConst (c : Const) : constantOf (SigSpec.ofConst c) = some c := by
  unfold constantOf SigSpec.ofConst
  induction c with
  | nil => rfl
  | cons s c ih =>
    rw [map_cons, mapM_cons, ih]
    rfl

theorem isFullyConst_ofConst (c : Const) : CompareCell.isFullyConst (SigSpec.ofConst c) = true := by
  simp [CompareCell.isFullyConst, SigSpec.ofConst]

variable {c : Const}

private theorem compareRule_constantB (constant : cell.b = SigSpec.ofConst c)
    (defined : c.isFullyDef = true) :
    compareRule cell = compareConstant cell cell.type cell.a c := by
  simp [compareRule, constant, isFullyConst_ofConst, constantOf_ofConst, defined]

private theorem compareRule_constantA (constant : cell.a = SigSpec.ofConst c)
    (var : CompareCell.isFullyConst cell.b = false) (defined : c.isFullyDef = true) :
    compareRule cell = compareConstant cell (mirror cell.type) cell.b c := by
  simp [compareRule, constant, var, constantOf_ofConst, defined]

namespace CompareKind

variable {kind : CompareKind}

private theorem compareConstant_right {cmp : CellType} {var : SigSpec} {w v : Nat} {x : BitVec w}
    {y : BitVec v} (holds : kind.Holds cell) (operand : r.sig var = toConst x)
    (expected : Shows (cell.value r) cell.yWidth
      (relation cmp (intOf cell.bothSigned x) (intOf cell.bothSigned y)))
    (exact : kind.ConstantExact cmp var.length (toConst y)) :
    (compareConstant cell cmp var (toConst y)).Right cell r := by
  unfold ConstantExact at exact
  rw [← holds.signedA, ← holds.signedB, ← holds.yWidth] at exact
  cases signed : cell.signedA with
  | false =>
    rw [if_pos signed] at exact
    exact compareUnsigned_right expected operand signed exact
  | true =>
    rw [if_neg (by simp [signed])] at exact
    exact compareSigned_right expected operand signed exact

private theorem compareRule_right (holds : kind.Holds cell)
    (order : kind.type ∈ [CellType.lt, .le, .gt, .ge]) (constant : HasConstant kind.operands)
    (exact : kind.Exact) (two : cell.TwoValued r) : (compareRule cell).Right cell r := by
  obtain ⟨w, x, valueA⟩ := exists_toConst two.a
  obtain ⟨v, y, valueB⟩ := exists_toConst two.b
  have cellOrder : cell.type ∈ [CellType.lt, .le, .gt, .ge] := holds.type ▸ order
  have expected := value_order cell cellOrder valueA valueB
  have shape := holds.operands
  unfold Exact at exact
  cases operands : kind.operands with
  | any => rw [operands] at constant; exact constant.elim
  | constantB varWidth c =>
    rw [operands] at constant exact shape
    obtain ⟨atB, length⟩ := shape
    rw [compareRule_constantB atB constant]
    rw [atB, Reading.sig_ofConst] at valueB
    have bound := exact order
    rw [← length, ← holds.type, valueB] at bound
    rw [valueB]
    exact compareConstant_right holds valueA expected bound
  | constantA varWidth c =>
    rw [operands] at constant exact shape
    obtain ⟨atA, length, var⟩ := shape
    rw [compareRule_constantA atA var constant.1]
    rw [atA, Reading.sig_ofConst] at valueA
    have bound := exact order
    rw [← length, ← holds.type, valueA] at bound
    rw [← relation_mirror cellOrder] at expected
    rw [valueA]
    exact compareConstant_right holds valueB expected bound

private theorem truthBits_inj {n : Nat} (positive : n ≠ 0) {b c : Bool}
    (equal : truthBits n b = truthBits n c) : b = c := by
  have bit := congrArg (BitVec.getLsbD · 0) (toConst_injective equal)
  simp only [boolBits_getLsbD, Nat.pos_of_ne_zero positive, decide_true, Bool.true_and] at bit
  exact bit

private theorem value_of_right {out : Outcome} {driven : Const} (right : out.Right cell r)
    (expected : Shows (cell.value r) cell.yWidth truth) (value : out.value r = some driven) :
    driven.take cell.yWidth = truthBits cell.yWidth truth := by
  obtain ⟨e, y, known, value', bits⟩ := right
  obtain ⟨e', known', bits'⟩ := expected
  obtain rfl := some.inj (known.symm.trans known')
  obtain rfl := some.inj (value.symm.trans value')
  exact bits.trans bits'

private theorem abort_not_right : ¬ Outcome.abort.Right cell r := by
  rintro ⟨e, y, -, value, -⟩
  cases value

section Necessary

variable (length : var.length = w) (operand : ∀ x : BitVec w, (varReading x).sig var = toConst x)
  (expected : ∀ x : BitVec w, Shows (cell.value (varReading x)) cell.yWidth
    (relation cmp (intOf cell.bothSigned x) (intOf cell.bothSigned y)))
  (right : ∀ x : BitVec w, (compareConstant cell cmp var (toConst y)).Right cell (varReading x))

include right in
private theorem unsigned_necessary (unsigned : cell.signedA = false) (length : var.length = w) :
    cell.yWidth ≠ 0 ∨ constantBit cmp w (toConst y) = none := by
  by_contra wrong
  simp only [not_or, not_not] at wrong
  obtain ⟨bit, constant⟩ := ne_none_iff_exists'.mp wrong.2
  have aborted := right 0
  rw [compareConstant, if_pos unsigned, length, constant] at aborted
  simp only [driveLow, if_pos wrong.1] at aborted
  exact abort_not_right aborted

include length operand expected right in
theorem signLow_necessary (signed : cell.signedA = true) (zero : (toConst y).isFullyZero = true)
    (less : cmp = .lt) : w ≠ 0 ∧ cell.yWidth ≠ 0 ∧ cell.signedB = true := by
  have outcome (x : BitVec w) := right x
  rw [compareConstant, if_neg (by simp [signed]), if_pos ⟨zero, less⟩] at outcome
  have nonempty : w ≠ 0 := by
    intro none
    obtain rfl := eq_nil_of_length_eq_zero (length.trans none)
    exact abort_not_right (outcome 0)
  obtain ⟨sign, last⟩ := exists_sign (length ▸ nonempty)
  simp only [last] at outcome
  have positive : cell.yWidth ≠ 0 := by
    intro none
    have aborted := outcome 0
    rw [driveLow, if_pos none] at aborted
    exact abort_not_right aborted
  refine ⟨nonempty, positive, ?_⟩
  by_contra unsigned
  have plain : cell.bothSigned = false := by
    rw [CompareCell.bothSigned, Bool.eq_false_of_not_eq_true unsigned, Bool.and_false]
  obtain ⟨driven, value, bits⟩ := driveLow_value positive
    (sign_value (operand (BitVec.allOnes w)) last)
  have equal := value_of_right (outcome (BitVec.allOnes w)) (expected (BitVec.allOnes w)) value
  rw [bits, BitVec.msb_allOnes (Nat.pos_of_ne_zero nonempty), plain, less] at equal
  have truth := (truthBits_inj positive equal).symm
  simp only [relation, intOf_false, toNat_of_isFullyZero zero, decide_eq_true_eq] at truth
  omega

include length operand expected right in
private theorem signInverted_necessary (signed : cell.signedA = true)
    (zero : (toConst y).isFullyZero = true) (geq : cmp = .ge) :
    w ≠ 0 ∧ (cell.yWidth = 0 ∨ (cell.yWidth = 1 ∧ cell.signedB = true)) := by
  have outcome (x : BitVec w) := right x
  rw [compareConstant, if_neg (by simp [signed]), if_neg (by simp [geq]), if_pos ⟨zero, geq⟩]
    at outcome
  have nonempty : w ≠ 0 := by
    intro none
    obtain rfl := eq_nil_of_length_eq_zero (length.trans none)
    exact abort_not_right (outcome 0)
  obtain ⟨sign, last⟩ := exists_sign (length ▸ nonempty)
  simp only [last] at outcome
  have bits (x : BitVec w) := value_of_right (outcome x) (expected x)
    (inverter_value (sign_value (operand x) last) _)
  simp only [take_of_length_le (Nat.le_of_eq (toConst_length _)), truthBits, toConst_inj] at bits
  refine ⟨nonempty, ?_⟩
  by_contra wrong
  simp only [not_or, not_and] at wrong
  by_cases one : cell.yWidth = 1
  · have plain : cell.bothSigned = false := by
      rw [CompareCell.bothSigned, Bool.eq_false_of_not_eq_true (wrong.2 one), Bool.and_false]
    have low := congrArg (BitVec.getLsbD · 0) (bits (BitVec.allOnes w))
    have above : relation .ge (intOf false (BitVec.allOnes w)) (intOf false y) = true := by
      simp only [relation, intOf_false, toNat_of_isFullyZero zero, decide_eq_true_eq]
      omega
    rw [BitVec.msb_allOnes (Nat.pos_of_ne_zero nonempty), plain, geq, above] at low
    simp only [BitVec.getLsbD_not, boolBits_getLsbD, extendTo_getLsbD, one] at low
    cases low
  · -- the bits above the lowest one are inverted zeros
    have second := congrArg (BitVec.getLsbD · 1) (bits 0)
    have inside : 1 < cell.yWidth := by omega
    simp only [BitVec.getLsbD_not, boolBits_getLsbD, inside, extendTo_false,
      BitVec.getLsbD_setWidth] at second
    cases second

variable (cell) in
include length operand expected right in
private theorem constantExact_of_right (signed : cell.signedA = kind.signedA)
    (signedB : cell.signedB = kind.signedB) (width : cell.yWidth = kind.yWidth) :
    kind.ConstantExact cmp w (toConst y) := by
  unfold ConstantExact
  rw [← signed, ← signedB, ← width]
  cases sign : cell.signedA with
  | false =>
    exact unsigned_necessary right sign length
  | true =>
    intro zero
    exact ⟨signLow_necessary length operand expected right sign zero,
      signInverted_necessary length operand expected right sign zero⟩

end Necessary

/-- A kind whose rewriting is right is exact: its constant and the wire bits of the other operand
make up a cell of the kind. -/
private theorem exact_of_rewritesRight (applies : kind.Applies) (right : kind.RewritesRight) :
    kind.Exact := by
  have plain (order : kind.type ∈ [CellType.lt, .le, .gt, .ge]) :
      kind.type ∉ [CellType.eq, .ne, .eqx, .nex] := by
    simp only [mem_cons, not_mem_nil, or_false] at order
    obtain type | type | type | type := order <;> simp [type]
  unfold Exact
  cases operands : kind.operands with
  | any => trivial
  | constantB w c =>
    intro order
    have constant := (applies.resolve_left (plain order)).2
    rw [operands] at constant
    obtain ⟨v, y, rfl⟩ := exists_toConst constant
    let cell : CompareCell := ⟨kind.type, kind.signedA, kind.signedB,
      SigSpec.ofWire (varWire w), SigSpec.ofConst (toConst y), kind.yWidth⟩
    have holds : kind.Holds cell :=
      ⟨rfl, rfl, rfl, rfl, by rw [operands]; exact ⟨rfl, by simp [cell, varWire]⟩⟩
    have two (x : BitVec w) : cell.TwoValued (varReading x) :=
      ⟨by rw [sig_varWire]; exact toConst_isFullyDef x,
        by rw [Reading.sig_ofConst]; exact toConst_isFullyDef y⟩
    have expected (x : BitVec w) := value_order cell order (sig_varWire x)
      (Reading.sig_ofConst _ (toConst y))
    refine constantExact_of_right cell (by simp [varWire]) sig_varWire expected ?_ rfl rfl rfl
    intro x
    have outcome := right cell holds id (fun _ _ => false) true _ (fun _ => rfl) (two x)
    rw [replaceCompare, if_neg (plain order), if_pos rfl, compareRule_constantB rfl constant]
      at outcome
    exact outcome
  | constantA w c =>
    intro order
    have constant := (applies.resolve_left (plain order)).2
    rw [operands] at constant
    obtain ⟨defined, nonempty⟩ := constant
    obtain ⟨v, y, rfl⟩ := exists_toConst defined
    let cell : CompareCell := ⟨kind.type, kind.signedA, kind.signedB,
      SigSpec.ofConst (toConst y), SigSpec.ofWire (varWire w), kind.yWidth⟩
    have wires : CompareCell.isFullyConst cell.b = false := isFullyConst_varWire nonempty
    have holds : kind.Holds cell :=
      ⟨rfl, rfl, rfl, rfl, by rw [operands]; exact ⟨rfl, by simp [cell, varWire], wires⟩⟩
    have two (x : BitVec w) : cell.TwoValued (varReading x) :=
      ⟨by rw [Reading.sig_ofConst]; exact toConst_isFullyDef y,
        by rw [sig_varWire]; exact toConst_isFullyDef x⟩
    have expected (x : BitVec w) := value_order cell order
      (Reading.sig_ofConst _ (toConst y)) (sig_varWire x)
    refine constantExact_of_right cell (by simp [varWire]) sig_varWire ?_ ?_ rfl rfl rfl
    · intro x
      rw [relation_mirror order]
      exact expected x
    · intro x
      have outcome := right cell holds id (fun _ _ => false) true _ (fun _ => rfl) (two x)
      rw [replaceCompare, if_neg (plain order), if_pos rfl,
        compareRule_constantA rfl wires defined] at outcome
      exact outcome

/-- The rewriting of comparison cells is right exactly for these kinds of cells. -/
theorem rewritesRight_iff (applies : kind.Applies) : kind.RewritesRight ↔ kind.Exact := by
  constructor
  · exact exact_of_rewritesRight applies
  · intro exact cell holds map lt doFine r respects two
    unfold replaceCompare
    split
    · rename_i equality
      exact replaceEqual_right equality respects two
    · rename_i order
      obtain ⟨member, constant⟩ := applies.resolve_left (holds.type ▸ order)
      split
      · exact compareRule_right holds member constant exact two
      · obtain ⟨w, x, valueA⟩ := exists_toConst two.a
        obtain ⟨v, y, valueB⟩ := exists_toConst two.b
        exact right_keep (value_order cell (holds.type ▸ member) valueA valueB)

/-- A signed test of two bits against zero, with an output of two bits: the inverter of the sign
also inverts the zero that fills the upper bit. -/
theorem signed_test_fills_upper_bit :
    (replaceCompare id (fun _ _ => false) true
      ⟨.ge, true, true, SigSpec.ofWire (varWire 2), SigSpec.ofConst [.S0, .S0], 2⟩).value
        (fun _ _ => .S0) = some [.S1, .S1] ∧
    CompareCell.value ⟨.ge, true, true, SigSpec.ofWire (varWire 2), SigSpec.ofConst [.S0, .S0], 2⟩
      (fun _ _ => .S0) = some [.S1, .S0] := by
  decide +kernel

theorem rewritesRight_less_than_four :
    RewritesRight ⟨.lt, false, false, 3, .constantB 4 [.S0, .S0, .S1, .S0]⟩ := by
  have applies : Applies ⟨.lt, false, false, 3, .constantB 4 [.S0, .S0, .S1, .S0]⟩ :=
    Or.inr ⟨by decide, rfl⟩
  apply (rewritesRight_iff applies).mpr
  intro _
  exact Or.inl (by decide)

end CompareKind

end ManticoreFrontend.Passes.OptExprCompare
