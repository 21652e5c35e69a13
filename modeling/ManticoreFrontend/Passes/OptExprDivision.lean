/- source: passes/opt/opt_expr.cc (replace_const_cells: identity of $div, div_shift, mod_mask),
           kernel/rtlil.cc (Const::is_onehot, SigSpec::extract)
   digest: Division by a constant replaced by shifts, masks and corrections, and exactly when the
           replacement is right. -/

import ManticoreFrontend.Foundation.PowerDivision
import ManticoreFrontend.Passes.OptExprShift

namespace ManticoreFrontend.Passes.OptExprDivision

open Foundation BitWord PowerDivision Kernel Constants Calc CellTypes Circuits DefinedArithmetic
open DefinedValues InformationOrder Nets Signals UndefinedBits List

/-- The loop of `Const::is_onehot` from position `i`, with the position found so far. -/
def onehotLoop : Option Nat → Nat → Const → Option Nat
  | found, _, [] => found
  | found, i, bit :: bits =>
    if bit ≠ .S0 ∧ bit ≠ .S1 then none
    else if bit = .S1 then
      if found.isSome then none else onehotLoop (some i) (i + 1) bits
    else onehotLoop found (i + 1) bits

def isOnehot (b : Const) : Option Nat := onehotLoop none 0 b

/-- `SigSpec::extract(0, length)`; `none` stands for a read past the end of the signal. -/
def extractLow (sig : SigSpec) (length : Nat) : Option SigSpec :=
  if length ≤ sig.length then some (sig.take length) else none

inductive Rewrite
  | keep
  | outOfBounds
  | replaced (circuit : Circuit)

structure DivCell where
  type : CellType
  signedA : Bool
  signedB : Bool
  aWidth : Nat
  b : Const
  yWidth : Nat

namespace DivCell

variable (cell : DivCell)

structure Applies : Prop where
  type : cell.type ∈ [CellType.div, .mod, .divfloor, .modfloor]
  matched : cell.signedA = cell.signedB
  defined : cell.b.isFullyDef = true
  nonzero : cell.b.asBool = true
  bWidth : cell.b.length ≤ 2147483647

def identity (consumeX : Bool) : Prop :=
  consumeX = true ∧ cell.type = .div ∧ cell.b.length ≤ 32 ∧ cell.b.asInt = 1

instance (cell : DivCell) (consumeX : Bool) : Decidable (cell.identity consumeX) :=
  inferInstanceAs (Decidable (_ ∧ _))

def power (keepdc : Bool) : Option Nat :=
  if keepdc then none
  else match isOnehot cell.b with
    | some exp => if cell.signedB = true ∧ exp + 1 = cell.b.length then none else some exp
    | none => none

/-- The last bit of A and-ed with the disjunction of its low bits. -/
def correction (a low : SigSpec) : Circuit :=
  .cell .and false false (.sig [a.getLastD (.const .Sx)]) (.unary .reduceOr false (.sig low) 1) 1

/-- Whether the truncating operation differs from the flooring one. -/
def corrected (truncating : CellType) (a : SigSpec) (exp : Nat) : Prop :=
  cell.type = truncating ∧ cell.signedA = true ∧ a.length ≠ 0 ∧ exp ≠ 0

instance (cell : DivCell) (truncating : CellType) (a : SigSpec) (exp : Nat) :
    Decidable (cell.corrected truncating a exp) :=
  inferInstanceAs (Decidable (_ ∧ _))

def divShift (a : SigSpec) (exp : Nat) : Rewrite :=
  let newB := SigSpec.ofConst (Const.ofInt exp 32)
  let shifted := Circuit.cell .sshr cell.signedA false (.sig a) (.sig newB) cell.yWidth
  if cell.corrected .div a exp then
    match extractLow a exp with
    | none => .outOfBounds
    | some low => .replaced (.cell .add false false shifted (correction a low) cell.yWidth)
  else .replaced shifted

def modMask (a : SigSpec) (exp : Nat) : Rewrite :=
  if cell.corrected .mod a exp then
    match extractLow a exp with
    | none => .outOfBounds
    | some low =>
      .replaced (.unary .pos true (.append (.sig low) (correction a low)) cell.yWidth)
  else
    let newB := List.replicate exp .S1 ++ if cell.signedB = true ∨ exp = 0 then [.S0] else []
    .replaced (.cell .and cell.signedA cell.signedB (.sig a) (.sig (SigSpec.ofConst newB))
      cell.yWidth)

/-- The rules for a division by a constant that is not zero, in their order. -/
def replace (consumeX keepdc : Bool) (a : SigSpec) : Rewrite :=
  if cell.identity consumeX then .replaced (.unary .pos cell.signedA (.sig a) cell.yWidth)
  else match cell.power keepdc with
    | none => .keep
    | some exp =>
      if cell.type = .div ∨ cell.type = .divfloor then cell.divShift a exp
      else cell.modMask a exp

/-- A replacement has the value of the cell for every value of the wires: the bits the evaluator
defines, which are all bits when A is two-valued. -/
def ReplacedBy (a : SigSpec) : Rewrite → Prop
  | .keep => True
  | .outOfBounds => False
  | .replaced circuit => ∀ r : Reading, ∃ e y,
      eval cell.type (r.sig a) cell.b cell.signedA cell.signedB cell.yWidth = some e ∧
        circuit.value r = some y ∧ RefinesAll e y

def RewriteRight (consumeX keepdc : Bool) : Prop :=
  ∀ a : SigSpec, a.length = cell.aWidth → cell.ReplacedBy a (cell.replace consumeX keepdc a)

/-- The divisors and widths the rules are right for. -/
def Exact (consumeX keepdc : Bool) : Prop :=
  if cell.identity consumeX then
    ¬ (cell.signedB = true ∧ cell.b.length = 1) ∨ cell.yWidth ≤ 1 ∨ cell.aWidth = 0
  else ∀ exp, cell.power keepdc = some exp → cell.signedA = true →
    (cell.aWidth = 0 → cell.type = .div ∨ cell.type = .divfloor → cell.yWidth = 0) ∧
    (cell.aWidth ≠ 0 → cell.type = .div ∨ cell.type = .mod → exp ≤ cell.aWidth)

end DivCell

theorem onehotLoop_some {p q i : Nat} {b : Const} (result : onehotLoop (some q) i b = some p) :
    p = q ∧ magnitude .S1 b = 0 := by
  induction b generalizing i with
  | nil => exact ⟨(Option.some.inj result).symm, rfl⟩
  | cons bit bits ih =>
    unfold onehotLoop at result
    split at result
    · cases result
    · split at result
      · simp at result
      · rename_i notOne
        obtain ⟨same, zero⟩ := ih result
        exact ⟨same, by simp [magnitude, notOne, zero]⟩

private theorem onehotLoop_none {p i : Nat} {b : Const} (result : onehotLoop none i b = some p) :
    ∃ k, p = i + k ∧ k < b.length ∧ magnitude .S1 b = 2 ^ k := by
  induction b generalizing i with
  | nil => cases result
  | cons bit bits ih =>
    unfold onehotLoop at result
    split at result
    · cases result
    · split at result
      · rename_i one
        obtain ⟨rfl, zero⟩ := onehotLoop_some result
        exact ⟨0, rfl, by simp, by simp [magnitude, one, zero]⟩
      · rename_i notOne
        obtain ⟨k, rfl, short, value⟩ := ih result
        refine ⟨k + 1, by omega, by simpa using short, ?_⟩
        simp only [magnitude, notOne, if_false, value]
        ring

theorem isOnehot_value {b : Const} {exp : Nat} (onehot : isOnehot b = some exp) :
    exp < b.length ∧ magnitude .S1 b = 2 ^ exp := by
  obtain ⟨k, rfl, short, value⟩ := onehotLoop_none onehot
  rw [Nat.zero_add]
  exact ⟨short, value⟩

private theorem intOf_two_pow {w exp : Nat} {y : BitVec w} (s : Bool) (value : y.toNat = 2 ^ exp)
    (below : ¬ (s = true ∧ exp + 1 = w)) : intOf s y = 2 ^ exp := by
  cases s with
  | false => simp [value]
  | true =>
    have short : exp < w := (Nat.pow_lt_pow_iff_right (by decide)).mp (value ▸ y.isLt)
    have lower : exp ≠ w - 1 := by
      intro top
      exact below ⟨rfl, by omega⟩
    have positive : y.msb = false := by
      rw [BitVec.msb_eq_getLsbD_last, BitVec.getLsbD, value, Nat.testBit_two_pow]
      simpa using lower
    rw [intOf_true, BitVec.toInt_eq_toNat_of_msb positive, value]
    rfl

namespace DivCell

variable {cell : DivCell}

def operation : CellType → Int → Int → Int
  | .div => Int.tdiv
  | .mod => Int.tmod
  | .divfloor => Int.fdiv
  | _ => Int.fmod

def divisor (cell : DivCell) : Int := (const2big cell.b cell.signedA (-1)).1

private theorem divisor_ne_zero (applies : cell.Applies) : cell.divisor ≠ 0 := by
  rw [divisor, Ne, const2big_eq_zero, not_not]
  obtain ⟨one, mem, value⟩ := any_eq_true.mp applies.nonzero
  rwa [beq_iff_eq.mp value] at mem

variable {w : Nat}

private theorem eval_defined_operand (applies : cell.Applies) (x : BitVec w) :
    eval cell.type (toConst x) cell.b cell.signedA cell.signedB cell.yWidth =
      some (toConst (BitVec.ofInt cell.yWidth
        (operation cell.type (intOf cell.signedA x) cell.divisor))) := by
  have nonzero := divisor_ne_zero applies
  have member := applies.type
  have signs := applies.matched
  obtain ⟨v, y, value⟩ := exists_toConst applies.defined
  rw [divisor, value, const2big_toConst] at nonzero ⊢
  rw [← signs]
  simp only [mem_cons, not_mem_nil, or_false] at member nonzero ⊢
  obtain type | type | type | type := member <;>
    simp [type, eval, evalTable, constDiv_defined, constMod_defined, constDivfloor_defined,
      constModfloor_defined, divideTo, nonzero, operation]

private theorem eval_undefined_operand (applies : cell.Applies) {arg : Const}
    (undefined : arg.isFullyDef = false) :
    eval cell.type arg cell.b cell.signedA cell.signedB cell.yWidth =
      some (Const.ofState .Sx cell.yWidth) := by
  have member := applies.type
  have like (op : Int → Int → Int) (s t : Bool) :
      constDivLike op arg cell.b s t cell.yWidth = Const.ofState .Sx cell.yWidth :=
    constDivLike_undefined (undefined_position (by simp [undefined]) s t) op cell.yWidth
  simp only [mem_cons, not_mem_nil, or_false] at member
  obtain type | type | type | type := member <;>
    simp [type, eval, evalTable, constDiv, constMod, constDivfloor, constModfloor, like]

private theorem replacedBy_of_value (applies : cell.Applies) {a : SigSpec} {circuit : Circuit}
    (values : ∀ r : Reading, ∃ y, circuit.value r = some y ∧ y.length = cell.yWidth ∧
      ∀ x : BitVec a.length, r.sig a = toConst x → y = toConst (BitVec.ofInt cell.yWidth
        (operation cell.type (intOf cell.signedA x) cell.divisor))) :
    cell.ReplacedBy a (.replaced circuit) := by
  intro r
  obtain ⟨y, value, length, right⟩ := values r
  cases defined : (r.sig a).isFullyDef with
  | true =>
    obtain ⟨w, x, operand⟩ := exists_toConst defined
    obtain rfl : w = a.length := by simpa using (congrArg List.length operand).symm
    refine ⟨_, y, by rw [operand]; exact eval_defined_operand applies x, value, ?_⟩
    rw [right x operand]
    exact RefinesAll.refl _
  | false =>
    exact ⟨_, y, eval_undefined_operand applies defined, value, RefinesAll.undef length⟩

variable {exp : Nat}

theorem shifted_value (cell : DivCell) (r : Reading) (a : SigSpec) (small : exp ≤ 2147483647) :
    ∃ y, (Circuit.cell .sshr cell.signedA false (.sig a)
        (.sig (SigSpec.ofConst (Const.ofInt exp 32))) cell.yWidth).value r = some y ∧
      y.length = cell.yWidth ∧ ∀ x : BitVec a.length, r.sig a = toConst x →
        (cell.signedA = true → 0 < a.length) →
          y = toConst (BitVec.ofInt cell.yWidth (intOf cell.signedA x / 2 ^ exp)) := by
  have amount : (BitVec.ofInt 32 (exp : Int)).toNat = exp := by
    rw [BitVec.toNat_ofInt]
    omega
  rw [Circuit.value_cell rfl rfl, Reading.sig_ofConst, ofInt_eq_toConst]
  cases signedA : cell.signedA with
  | false =>
    refine ⟨constShr (r.sig a) (toConst (BitVec.ofInt 32 (exp : Int))) false cell.yWidth, ?_, ?_, ?_⟩
    · simp [eval, evalTable]
    · simp [constShr, OptExprShift.constShiftWorker_eq, toConst_isFullyDef]
    · intro x operand _
      rw [operand, constShr_defined, shiftRightTo_eq_ofInt, amount, intOf_extendTo false (by omega)]
  | true =>
    refine ⟨constSshr (r.sig a) (toConst (BitVec.ofInt 32 (exp : Int))) true cell.yWidth, ?_, ?_, ?_⟩
    · simp [eval, keepsOwnSign, evalTable]
    · simp [constSshr, OptExprShift.constShiftWorker_eq, toConst_isFullyDef]
    · intro x operand nonempty
      rw [operand, constSshr_defined _ _ _ _ nonempty, shiftRightTo_eq_ofInt, amount]

private theorem toConst_boolBits_one (b : Bool) : toConst (boolBits 1 b) = [State.ofBool b] := by
  rw [← padResult_ofBool b Nat.one_pos]
  rfl

private theorem sig_take {r : Reading} {a : SigSpec} {x : BitVec w} (operand : r.sig a = toConst x)
    (short : exp ≤ w) : r.sig (a.take exp) = toConst (x.setWidth exp) := by
  have taken : r.sig (a.take exp) = (toConst x).take exp := by
    rw [← operand, Reading.sig, Reading.sig, map_take]
  rw [taken]
  apply eq_toConst
  · simpa using short
  · intro i inside below
    simp [below]

private theorem toConst_cons (b : Bool) (x : BitVec w) :
    toConst (BitVec.cons b x) = toConst x ++ [State.ofBool b] := by
  symm
  apply eq_toConst
  · simp
  · intro i inside below
    rw [BitVec.getLsbD_cons, getElem_append]
    by_cases top : i = w
    · simp [top]
    · have low : i < w := by omega
      simp [top, low]

private theorem correction_value (exp : Nat) (r : Reading) (a : SigSpec) :
    ∃ c, (correction a (a.take exp)).value r = some [c] ∧ ∀ x : BitVec a.length,
      r.sig a = toConst x → a.length ≠ 0 → exp ≤ a.length →
        c = State.ofBool (decide (intOf true x < 0 ∧ ¬ (2 : Int) ^ exp ∣ intOf true x)) := by
  refine ⟨logicAnd (r.bit (a.getLastD (.const .Sx))) ((r.sig (a.take exp)).foldl logicOr .S0),
    ?_, ?_⟩
  · have reduced : (Circuit.unary .reduceOr false (.sig (a.take exp)) 1).value r =
        some [(r.sig (a.take exp)).foldl logicOr .S0] := by
      rw [Circuit.value_unary rfl]
      simp [eval, evalTable, constReduceOr, logicReduceWrapper, padResult]
    rw [correction, Circuit.value_cell rfl reduced]
    simp [eval, evalTable, constAnd, logicWrapper, resultLenOr, extendU0, Reading.sig]
  · intro x operand nonempty short
    have sign : r.bit (a.getLastD (.const .Sx)) = State.ofBool x.msb := by
      have last := congrArg getLast? operand
      rw [toConst_getLast?, if_neg nonempty, Reading.sig, getLast?_map] at last
      cases top : a.getLast? with
      | none => simp [top] at last
      | some b => simpa [top] using last
    have lowBits := sig_take operand short
    have nonzero : (r.sig (a.take exp)).foldl logicOr .S0 =
        State.ofBool (x.setWidth exp != 0#(exp)) := by
      have reduced := constReduceOr_defined (x.setWidth exp) Nat.one_pos
      rw [toConst_boolBits_one, ← lowBits] at reduced
      simpa [constReduceOr, logicReduceWrapper, padResult] using reduced
    have divides := extendTo_eq_zero_iff true exp x
    rw [extendTo_of_le true short] at divides
    rw [sign, nonzero, logicAnd_ofBool]
    congr 1
    rw [Bool.eq_iff_iff]
    simp only [Bool.and_eq_true, bne_iff_ne, ne_eq, divides, decide_eq_true_eq, intOf_true,
      BitVec.msb_eq_toInt]
    exact decide_eq_true_iff.symm

private theorem mask_value (exp : Nat) (s : Bool) (n : Nat) :
    extendU0 (List.replicate exp .S1 ++ if s = true ∨ exp = 0 then [.S0] else []) n s =
      toConst ((BitVec.allOnes exp).setWidth n) := by
  have padding : (if s then (replicate exp State.S1 ++
      if s = true ∨ exp = 0 then [State.S0] else []).getLast?.getD .S0 else .S0) = .S0 := by
    cases s <;> simp
  apply eq_toConst
  · simp
  · intro i inside below
    rw [OptExprShift.extendU0_getElem, padding, getD_eq_getElem?_getD, getElem?_append,
      length_replicate]
    by_cases low : i < exp
    · simp [low, below, State.ofBool]
    · rw [if_neg low]
      split <;> cases i - exp <;> simp [low, State.ofBool]

theorem no_remainder {exp w : Nat} {s : Bool} (x : BitVec w) (plain : s = false ∨ w = 0 ∨ exp = 0) :
    ¬ (intOf s x < 0 ∧ ¬ (2 : Int) ^ exp ∣ intOf s x) := by
  rintro ⟨negative, remainder⟩
  obtain rfl | rfl | rfl := plain
  · simp at negative
    omega
  · simp [(intOf_eq_zero x s).mpr (BitVec.of_length_zero)] at negative
  · simp at remainder

private theorem no_remainder_of_plain {truncating : CellType} {a : SigSpec} {exp : Nat}
    (type : cell.type = truncating) (plain : ¬ cell.corrected truncating a exp)
    (x : BitVec a.length) :
    ¬ (intOf cell.signedA x < 0 ∧ ¬ (2 : Int) ^ exp ∣ intOf cell.signedA x) := by
  apply no_remainder
  unfold corrected at plain
  cases signedA : cell.signedA with
  | false => exact Or.inl rfl
  | true =>
    simp only [type, signedA, true_and, not_and, not_not, ne_eq] at plain
    by_cases zero : a.length = 0
    · exact Or.inr (Or.inl zero)
    · exact Or.inr (Or.inr (plain zero))

private theorem power_value (applies : cell.Applies) {keepdc : Bool} {exp : Nat}
    (power : cell.power keepdc = some exp) : cell.divisor = 2 ^ exp ∧ exp ≤ 2147483647 := by
  unfold DivCell.power at power
  split at power
  · cases power
  · split at power
    · rename_i k onehot
      split at power
      · cases power
      · rename_i below
        obtain rfl := Option.some.inj power
        obtain ⟨short, value⟩ := isOnehot_value onehot
        have bWidth := applies.bWidth
        obtain ⟨w, y, word⟩ := exists_toConst applies.defined
        rw [word, magnitude_toConst] at value
        rw [word, toConst_length, ← applies.matched] at below
        refine ⟨?_, by omega⟩
        rw [divisor, word, const2big_toConst]
        exact intOf_two_pow cell.signedA value below
    · cases power

section Rules

variable {keepdc : Bool} {a : SigSpec} (applies : cell.Applies)
  (power : cell.power keepdc = some exp)

private theorem eq_of_no_bits {y : Const} (length : y.length = cell.yWidth) (empty : cell.yWidth = 0)
    (v : BitVec cell.yWidth) : y = toConst v := by
  have bits : (toConst v).length = 0 := by rw [toConst_length, empty]
  rw [eq_nil_of_length_eq_zero bits, eq_nil_of_length_eq_zero (length.trans empty)]

include applies power in
private theorem plainShift_right (division : cell.type = .div ∨ cell.type = .divfloor)
    (plain : ¬ cell.corrected .div a exp)
    (nonempty : cell.signedA = true → a.length = 0 → cell.yWidth = 0) :
    cell.ReplacedBy a (.replaced (.cell .sshr cell.signedA false (.sig a)
      (.sig (SigSpec.ofConst (Const.ofInt exp 32))) cell.yWidth)) := by
  obtain ⟨value, small⟩ := power_value applies power
  apply replacedBy_of_value applies
  intro r
  obtain ⟨y, shifted, length, right⟩ := shifted_value cell r a small
  refine ⟨y, shifted, length, ?_⟩
  intro x operand
  by_cases empty : cell.yWidth = 0
  · exact eq_of_no_bits length empty _
  · rw [right x operand (by intro signedA; have := nonempty signedA; omega), value]
    obtain type | type := division
    · rw [type, operation, tdiv_two_pow, if_neg (no_remainder_of_plain type plain x), add_zero]
    · rw [type, operation, Int.fdiv_eq_ediv_of_nonneg _ (by positivity)]

include applies power in
theorem correctedShift_right (corrected : cell.corrected .div a exp) (short : exp ≤ a.length) :
    cell.ReplacedBy a (.replaced (.cell .add false false
      (.cell .sshr cell.signedA false (.sig a) (.sig (SigSpec.ofConst (Const.ofInt exp 32)))
        cell.yWidth) (correction a (a.take exp)) cell.yWidth)) := by
  obtain ⟨type, signedA, nonempty, -⟩ := corrected
  obtain ⟨value, small⟩ := power_value applies power
  apply replacedBy_of_value applies
  intro r
  obtain ⟨q, shifted, length, quotient⟩ := shifted_value cell r a small
  obtain ⟨c, corrects, bit⟩ := correction_value exp r a
  refine ⟨constAdd q [c] false false cell.yWidth, ?_, ?_, ?_⟩
  · rw [Circuit.value_cell shifted corrects]
    simp [eval, evalTable]
  · simp [constAdd, constArith]
  · intro x operand
    rw [quotient x operand (by omega), bit x operand nonempty short,
      ← toConst_boolBits_one, constAdd_defined, extendTo_self, value, type, operation,
      tdiv_two_pow, signedA, BitVec.ofInt_add]
    congr 2
    rw [extendTo_eq_ofInt]
    congr 1
    by_cases remainder : intOf true x < 0 ∧ ¬ (2 : Int) ^ exp ∣ intOf true x
    · rw [if_pos remainder, decide_eq_true remainder]
      decide
    · rw [if_neg remainder, decide_eq_false remainder]
      decide

include applies power in
theorem correctedMask_right (corrected : cell.corrected .mod a exp) (short : exp ≤ a.length) :
    cell.ReplacedBy a (.replaced (.unary .pos true
      (.append (.sig (a.take exp)) (correction a (a.take exp))) cell.yWidth)) := by
  obtain ⟨type, signedA, nonempty, -⟩ := corrected
  obtain ⟨value, -⟩ := power_value applies power
  apply replacedBy_of_value applies
  intro r
  obtain ⟨c, corrects, bit⟩ := correction_value exp r a
  refine ⟨constPos (r.sig (a.take exp) ++ [c]) true cell.yWidth, ?_, ?_, ?_⟩
  · rw [Circuit.value_unary (Circuit.value_append rfl corrects)]
    simp [eval, keepsOwnSign, evalTable]
  · simp [constPos]
  · intro x operand
    have low : ((x.setWidth exp).toNat : Int) = intOf true x % 2 ^ exp := by
      rw [← extendTo_toNat, extendTo_of_le true short]
    rw [bit x operand nonempty short, sig_take operand short, ← toConst_cons,
      constPos_defined, extendTo_eq_ofInt, intOf_true, toInt_cons, low, value, type, operation,
      tmod_two_pow, signedA]
    simp only [decide_eq_true_eq]

include applies power in
private theorem plainMask_right (remainder : cell.type = .mod ∨ cell.type = .modfloor)
    (plain : ¬ cell.corrected .mod a exp) :
    cell.ReplacedBy a (.replaced (.cell .and cell.signedA cell.signedB (.sig a)
      (.sig (SigSpec.ofConst (List.replicate exp .S1 ++
        if cell.signedB = true ∨ exp = 0 then [.S0] else []))) cell.yWidth)) := by
  obtain ⟨value, -⟩ := power_value applies power
  apply replacedBy_of_value applies
  intro r
  refine ⟨constAnd (r.sig a) (replicate exp .S1 ++
    if cell.signedB = true ∨ exp = 0 then [.S0] else []) cell.signedA cell.signedA cell.yWidth,
    ?_, ?_, ?_⟩
  · rw [Circuit.value_cell rfl rfl, Reading.sig_ofConst, ← applies.matched]
    simp [eval, evalTable]
  · simp [constAnd, logicWrapper]
  · intro x operand
    have masked : constAnd (toConst x) (replicate exp .S1 ++
        if cell.signedB = true ∨ exp = 0 then [.S0] else []) cell.signedA cell.signedA cell.yWidth =
        constAnd (toConst x) (toConst ((BitVec.allOnes exp).setWidth cell.yWidth)) cell.signedA
          false cell.yWidth := by
      simp only [constAnd, logicWrapper, resultLenOr_natCast]
      rw [applies.matched, mask_value, extendU0_toConst, extendU0_toConst, extendTo_self]
    rw [operand, masked, constAnd_defined, extendTo_self, and_mask_eq_ofInt, value]
    obtain type | type := remainder
    · rw [type, operation, tmod_two_pow, if_neg (no_remainder_of_plain type plain x), sub_zero]
    · have floor : operation .modfloor = Int.fmod := rfl
      rw [type, floor, Int.fmod_eq_emod_of_nonneg _ (by positivity)]

end Rules

section Identity

variable {consumeX : Bool} (applies : cell.Applies) (identity : cell.identity consumeX)

include applies identity in
private theorem divisor_of_identity :
    cell.divisor = if cell.signedB = true ∧ cell.b.length = 1 then -1 else 1 := by
  obtain ⟨-, -, short, pattern⟩ := identity
  obtain ⟨w, y, word⟩ := exists_toConst applies.defined
  have one : y.toNat = 2 ^ 0 := by
    have read : cell.b.asInt = OptExprShift.asIntAs cell.b false := rfl
    rw [read, word, OptExprShift.asIntAs_toConst, intOf_false, Int.bmod_def] at pattern
    rw [word, toConst_length] at short
    have bound : y.toNat < 2 ^ 32 := Nat.lt_of_lt_of_le y.isLt (Nat.pow_le_pow_right (by decide) short)
    split at pattern <;> omega
  rw [divisor, word, const2big_toConst, toConst_length, applies.matched]
  by_cases sign : cell.signedB = true ∧ w = 1
  · rw [if_pos sign, sign.1]
    obtain ⟨-, rfl⟩ := sign
    rw [intOf_true, BitVec.toInt_eq_toNat_cond, one]
    decide
  · rw [if_neg sign]
    exact intOf_two_pow cell.signedB one fun top => sign ⟨top.1, by omega⟩

private theorem pos_value (r : Reading) (a : SigSpec) :
    (Circuit.unary .pos cell.signedA (.sig a) cell.yWidth).value r =
      some (constPos (r.sig a) cell.signedA cell.yWidth) := by
  rw [Circuit.value_unary rfl]
  simp [eval, keepsOwnSign, evalTable]

include applies identity in
private theorem identity_right {a : SigSpec} (length : a.length = cell.aWidth)
    (exact : ¬ (cell.signedB = true ∧ cell.b.length = 1) ∨ cell.yWidth ≤ 1 ∨ cell.aWidth = 0) :
    cell.ReplacedBy a (.replaced (.unary .pos cell.signedA (.sig a) cell.yWidth)) := by
  have value := divisor_of_identity applies identity
  apply replacedBy_of_value applies
  intro r
  refine ⟨_, pos_value r a, by simp [constPos], ?_⟩
  intro x operand
  have type : operation cell.type = Int.tdiv := by rw [identity.2.1, operation]
  rw [operand, constPos_defined, extendTo_eq_ofInt, type, value]
  congr 1
  by_cases sign : cell.signedB = true ∧ cell.b.length = 1
  · rw [if_pos sign, Int.tdiv_neg, Int.tdiv_one, BitVec.ofInt_neg]
    obtain positive | narrow | empty := exact
    · exact absurd sign positive
    · have negate : ∀ m, m ≤ 1 → ∀ z : BitVec m, z = -z := by decide
      exact negate _ narrow _
    · have zero : intOf cell.signedA x = 0 := by
        apply (intOf_eq_zero x _).mpr
        have none : a.length = 0 := length.trans empty
        exact BitVec.eq_of_zero_length none
      rw [zero]
      simp
  · rw [if_neg sign, Int.tdiv_one]

include applies identity in
theorem identity_wrong (sign : cell.signedB = true ∧ cell.b.length = 1) (wide : 2 ≤ cell.yWidth)
    (nonempty : cell.aWidth ≠ 0) :
    ¬ cell.ReplacedBy (SigSpec.ofConst (toConst (BitVec.allOnes cell.aWidth)))
      (.replaced (.unary .pos cell.signedA
        (.sig (SigSpec.ofConst (toConst (BitVec.allOnes cell.aWidth)))) cell.yWidth)) := by
  intro right
  obtain ⟨e, y, value, result, refines⟩ := right fun _ _ => .S0
  have ones : intOf true (BitVec.allOnes cell.aWidth) = -1 := by
    rw [intOf_true, BitVec.toInt_allOnes, if_pos (by omega)]
  have quotient : operation .div (-1) (-1) = 1 := rfl
  rw [Reading.sig_ofConst, eval_defined_operand applies, divisor_of_identity applies identity,
    if_pos sign, identity.2.1, applies.matched, sign.1, ones, quotient] at value
  rw [pos_value, Reading.sig_ofConst, constPos_defined, applies.matched, sign.1] at result
  rw [← Option.some.inj value, ← Option.some.inj result] at refines
  have equal := toConst_injective (refines.eq_of_isFullyDef (toConst_isFullyDef _))
  -- the second bit of Y is the sign on the one side and zero on the other
  have bit := congrArg (BitVec.getLsbD · 1) equal
  have filled : (extendTo true cell.yWidth (BitVec.allOnes cell.aWidth)).getLsbD 1 = true := by
    have inside : 1 < cell.yWidth := by omega
    have positive : 0 < cell.aWidth := by omega
    rw [extendTo_getLsbD]
    by_cases own : 1 < cell.aWidth <;> simp [inside, BitVec.msb_allOnes positive]
  have clear : (BitVec.ofInt cell.yWidth 1).getLsbD 1 = false := by
    rw [show (1 : Int) = ((1 : Nat) : Int) from rfl, BitVec.ofInt_natCast, BitVec.getLsbD_ofNat]
    have second : Nat.testBit 1 1 = false := by decide
    rw [second, Bool.and_false]
  simp only [filled, clear] at bit
  cases bit

end Identity

private theorem plainShift_wrong (applies : cell.Applies) {exp : Nat} (signedA : cell.signedA = true)
    (positive : cell.yWidth ≠ 0) :
    ¬ cell.ReplacedBy [] (.replaced (.cell .sshr cell.signedA false (.sig [])
      (.sig (SigSpec.ofConst (Const.ofInt exp 32))) cell.yWidth)) := by
  intro right
  obtain ⟨e, y, value, result, refines⟩ := right fun _ _ => .S0
  have zeros : e = toConst (BitVec.ofInt cell.yWidth 0) := by
    have member := applies.type
    have zero : operation cell.type 0 cell.divisor = 0 := by
      simp only [mem_cons, not_mem_nil, or_false] at member
      obtain type | type | type | type := member <;> simp [type, operation]
    have empty : Reading.sig (fun _ _ => State.S0) [] = toConst (BitVec.ofNat 0 0) := rfl
    rw [empty, eval_defined_operand applies, (intOf_eq_zero _ _).mpr rfl, zero] at value
    exact (Option.some.inj value).symm
  have undefined : y = replicate cell.yWidth .Sx := by
    rw [Circuit.value_cell rfl rfl, Reading.sig_ofConst, signedA, ofInt_eq_toConst] at result
    have shifted := OptExprShift.constShiftWorker_eq []
      (toConst (BitVec.ofInt 32 (exp : Int))) true false 1 cell.yWidth .S0 (toConst_isFullyDef _)
    simp only [eval, keepsOwnSign, evalTable, constSshr, Reading.sig, map_nil, reduceCtorEq,
      Bool.true_eq_false, and_false, if_false, if_true, shifted, Option.some.injEq] at result
    rw [← result, eq_replicate_iff]
    refine ⟨by simp, ?_⟩
    intro s mem
    obtain ⟨i, -, rfl⟩ := mem_map.mp mem
    rw [OptExprShift.stateAt_signed, if_neg]
    · rfl
    · rw [const2big_toConst, intOf_false]
      omega
  rw [zeros] at refines
  have equal := refines.eq_of_isFullyDef (toConst_isFullyDef _)
  have defined := toConst_isFullyDef (BitVec.ofInt cell.yWidth 0)
  rw [← equal, undefined] at defined
  simp [Const.isFullyDef, State.isDef, positive] at defined

section Powers

variable {keepdc : Bool} (applies : cell.Applies) (power : cell.power keepdc = some exp)

include applies power in
private theorem divShift_right {a : SigSpec} (division : cell.type = .div ∨ cell.type = .divfloor)
    (nonempty : cell.signedA = true → a.length = 0 → cell.yWidth = 0)
    (short : cell.corrected .div a exp → exp ≤ a.length) :
    cell.ReplacedBy a (cell.divShift a exp) := by
  unfold divShift extractLow
  by_cases corrected : cell.corrected .div a exp
  · rw [if_pos corrected, if_pos (short corrected)]
    exact correctedShift_right applies power corrected (short corrected)
  · rw [if_neg corrected]
    exact plainShift_right applies power division corrected nonempty

include applies power in
private theorem modMask_right {a : SigSpec} (remainder : cell.type = .mod ∨ cell.type = .modfloor)
    (short : cell.corrected .mod a exp → exp ≤ a.length) :
    cell.ReplacedBy a (cell.modMask a exp) := by
  unfold modMask extractLow
  by_cases corrected : cell.corrected .mod a exp
  · rw [if_pos corrected, if_pos (short corrected)]
    exact correctedMask_right applies power corrected (short corrected)
  · rw [if_neg corrected]
    exact plainMask_right applies power remainder corrected

theorem corrected_wrong (cell : DivCell) {exp : Nat} (a : SigSpec) (long : ¬ exp ≤ a.length) :
    (cell.corrected .div a exp → ¬ cell.ReplacedBy a (cell.divShift a exp)) ∧
      (cell.corrected .mod a exp → ¬ cell.ReplacedBy a (cell.modMask a exp)) := by
  unfold divShift modMask extractLow
  constructor <;> intro corrected <;> rw [if_pos corrected, if_neg long] <;> exact id

include applies power in
private theorem power_right_iff :
    (∀ a : SigSpec, a.length = cell.aWidth → cell.ReplacedBy a
      (if cell.type = .div ∨ cell.type = .divfloor then cell.divShift a exp
        else cell.modMask a exp)) ↔
    (cell.signedA = true →
      (cell.aWidth = 0 → cell.type = .div ∨ cell.type = .divfloor → cell.yWidth = 0) ∧
      (cell.aWidth ≠ 0 → cell.type = .div ∨ cell.type = .mod → exp ≤ cell.aWidth)) := by
  have member := applies.type
  simp only [mem_cons, not_mem_nil, or_false] at member
  constructor
  · intro right signedA
    constructor
    · intro empty division
      by_contra positive
      have plain : ¬ cell.corrected .div [] exp := fun corrected => corrected.2.2.1 rfl
      have wrong := right [] (by simp [empty])
      rw [if_pos division, divShift, if_neg plain] at wrong
      exact plainShift_wrong applies signedA positive wrong
    · intro nonempty truncating
      by_contra long
      have length : (replicate cell.aWidth (SigBit.const .S0)).length = cell.aWidth := by simp
      have wrong := corrected_wrong cell (replicate cell.aWidth (SigBit.const .S0))
        (by rwa [length])
      have result := right _ length
      obtain type | type := truncating
      · rw [if_pos (Or.inl type)] at result
        exact wrong.1 ⟨type, signedA, by rwa [length], by omega⟩ result
      · rw [if_neg (by simp [type])] at result
        exact wrong.2 ⟨type, signedA, by rwa [length], by omega⟩ result
  · intro exact a length
    by_cases division : cell.type = .div ∨ cell.type = .divfloor
    · rw [if_pos division]
      apply divShift_right applies power division
      · intro signedA empty
        exact (exact signedA).1 (by omega) division
      · rintro ⟨type, signedA, nonempty, -⟩
        have bound := (exact signedA).2 (by omega) (Or.inl type)
        omega
    · rw [if_neg division]
      apply modMask_right applies power (by tauto)
      rintro ⟨type, signedA, nonempty, -⟩
      have bound := (exact signedA).2 (by omega) (Or.inr type)
      omega

end Powers

/-- The rewriting of a division by a constant is right exactly for these divisors and widths. -/
theorem rewriteRight_iff (applies : cell.Applies) (consumeX keepdc : Bool) :
    cell.RewriteRight consumeX keepdc ↔ cell.Exact consumeX keepdc := by
  unfold RewriteRight Exact replace
  by_cases identity : cell.identity consumeX
  · simp only [if_pos identity]
    constructor
    · intro right
      by_contra inexact
      simp only [not_or, not_not, not_le] at inexact
      exact identity_wrong applies identity inexact.1 inexact.2.1 inexact.2.2
        (right _ (by simp [SigSpec.ofConst]))
    · intro exact a length
      exact identity_right applies identity length exact
  · simp only [if_neg identity]
    cases power : cell.power keepdc with
    | none => simp [ReplacedBy]
    | some exp =>
      simp only [Option.some.injEq, forall_eq']
      exact power_right_iff applies power

/-- A signed one-bit divisor is minus one and is treated as one; a divisor of four reads past the
end of a one-bit dividend. -/
theorem rewrite_minus_one_and_past_end :
    (∃ circuit, replace ⟨.div, true, true, 2, [.S1], 2⟩ true false [.const .S1, .const .S0] =
        .replaced circuit ∧ circuit.value (fun _ _ => .S0) = some [.S1, .S0] ∧
      eval .div [.S1, .S0] [.S1] true true 2 = some [.S1, .S1]) ∧
    replace ⟨.div, true, true, 1, [.S0, .S0, .S1, .S0], 4⟩ true false [.const .S1] =
      .outOfBounds := by
  have minusOne : identity ⟨.div, true, true, 2, [.S1], 2⟩ true := by decide +kernel
  refine ⟨⟨_, if_pos minusOne, by decide +kernel, by decide +kernel⟩, ?_⟩
  rfl

theorem rewriteRight_div_four :
    RewriteRight ⟨.div, true, true, 4, [.S0, .S0, .S1, .S0], 4⟩ true false := by
  have applies : Applies ⟨.div, true, true, 4, [.S0, .S0, .S1, .S0], 4⟩ :=
    ⟨by decide, rfl, by decide, by decide, by decide⟩
  apply (rewriteRight_iff applies true false).mpr
  intro exp power signedA
  have two : exp = 2 := (Option.some.inj power).symm
  subst two
  exact ⟨by decide, fun _ _ => by decide⟩

end DivCell

end ManticoreFrontend.Passes.OptExprDivision
