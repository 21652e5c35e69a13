/- source: passes/opt/opt_expr.cc (replace_const_cells, constshift), kernel/calc.cc,
           kernel/rtlil.cc (Const::as_int)
   digest: A shift by a constant replaced by fixed wiring, and exactly when the wiring is right. -/

import ManticoreFrontend.Kernel.Circuits
import ManticoreFrontend.Kernel.UndefinedBits

namespace ManticoreFrontend.Passes.OptExprShift

open Foundation.BitWord Kernel Constants Calc CellTypes Circuits List DefinedValues InformationOrder
open Nets Signals UndefinedBits

/-- `Const::as_int(is_signed)`: the low 32 bits as a C `int`, a shorter signed constant extended
by its last bit. -/
def asIntAs (c : Const) (isSigned : Bool) : Int :=
  (extendTo isSigned 32 (BitVec.ofBoolListLE ((c.take 32).map (· == .S1)))).toInt

/-- The result of an `int` operation; `none` stands for an overflow. -/
def intResult (value : Int) : Option Int :=
  if -2147483648 ≤ value ∧ value ≤ 2147483647 then some value else none

private theorem mapM_eq_some_map {α β : Type} {f : α → Option β} {g : α → β} {l : List α}
    (each : ∀ x ∈ l, f x = some (g x)) : l.mapM f = some (l.map g) := by
  induction l with
  | nil => rfl
  | cons x l ih =>
    have rest := ih fun y mem => each y (mem_cons_of_mem x mem)
    rw [mapM_cons, each x mem_cons_self, rest]
    rfl

private theorem of_mapM_eq_some {α β : Type} {f : α → Option β} {l : List α} {ys : List β}
    (all : l.mapM f = some ys) : ∀ x ∈ l, ∃ y, f x = some y := by
  induction l generalizing ys with
  | nil => simp
  | cons x l ih =>
    simp only [mapM_cons, Option.bind_eq_bind, Option.bind_eq_some_iff] at all
    obtain ⟨y, head, zs, tail, -⟩ := all
    intro z mem
    obtain rfl | mem := mem_cons.mp mem
    · exact ⟨y, head⟩
    · exact ih tail z mem

structure ShiftCell where
  type : CellType
  signedA : Bool
  signedB : Bool
  aWidth : Nat
  b : Const
  yWidth : Nat

namespace ShiftCell

variable (cell : ShiftCell)

/-- The cells the rule is applied to. Widths are `int` parameters. -/
structure Applies : Prop where
  type : cell.type ∈ [CellType.shl, .shr, .sshl, .sshr, .shift, .shiftx]
  defined : cell.b.isFullyDef = true
  aWidth : cell.aWidth ≤ 2147483647
  yWidth : cell.yWidth ≤ 2147483647

def signExt : Bool := cell.type = .sshr && cell.signedA

def isLeft : Bool := cell.type = .shl || cell.type = .sshl

def amountSigned : Bool :=
  (cell.type = .shift || cell.type = .shiftx) && cell.signedB

def vacant : State := if cell.type = .shiftx then .Sx else .S0

/-- The value of `shift_bits` that the wiring is computed with, as an integer. -/
def shiftBits : Int :=
  let bits := asIntAs cell.b cell.amountSigned
  if cell.isLeft then -bits else bits

def wireBit (sigA : SigSpec) (shiftBits : Int) (i : Nat) : Option SigBit := do
  let idx ← intResult (i + shiftBits)
  return if 0 ≤ idx ∧ idx < sigA.length then sigA.getD idx.toNat (.const .Sx)
    else if sigA.length ≤ idx ∧ cell.signExt = true then sigA.getLast?.getD (.const .Sx)
    else .const cell.vacant

/-- The wiring that replaces the cell, for the signal `a` at its A port. -/
def wiring (cell : ShiftCell) (a : SigSpec) : Option SigSpec := do
  let shiftBits ← intResult cell.shiftBits
  let sigA := if a.length < cell.yWidth then extendSig a cell.yWidth cell.signedA else a
  (List.range cell.yWidth).mapM (cell.wireBit sigA shiftBits)

/-- The wiring is computed for every signal at A, and agrees with the evaluator for every value
of the wires wherever the evaluator is defined. -/
def WiringRight : Prop :=
  ∀ a : SigSpec, a.length = cell.aWidth → ∃ y, cell.wiring a = some y ∧
    ∀ r : Reading, ∃ e,
      eval cell.type (r.sig a) cell.b cell.signedA cell.signedB cell.yWidth = some e ∧
        RefinesAll e (r.sig y)

/-- The amount by which the evaluator shifts to the right. -/
def amount : Int :=
  let value := (const2big cell.b cell.amountSigned (-1)).1
  if cell.isLeft then -value else value

def NoOverflow : Prop :=
  cell.shiftBits ≤ 2147483647 ∧ (cell.yWidth = 0 ∨ cell.yWidth - 1 + cell.shiftBits ≤ 2147483647)

/-- The number of bits of A, extended to the width of Y when A is signed. -/
def reach : Nat :=
  if cell.signedA then max cell.aWidth cell.yWidth else cell.aWidth

def ReadsOperand : Prop :=
  ∃ i : Nat, i < cell.yWidth ∧ 0 ≤ i + cell.shiftBits ∧ i + cell.shiftBits < cell.reach

/-- The amount as a C `int` is the amount of the constant, or the difference cannot be seen. -/
def AmountFits : Prop :=
  cell.type = .shiftx ∨
  (cell.shiftBits = cell.amount ∧
    (cell.aWidth ≠ 0 ∨ cell.signedA = false ∨ cell.type = .sshl ∨ cell.type = .sshr)) ∨
  (cell.signExt = false ∧ ¬ cell.ReadsOperand) ∨
  (cell.signExt = true ∧
    (cell.aWidth = 0 ∨ cell.yWidth = 0 ∨ cell.aWidth - 1 ≤ cell.shiftBits))

end ShiftCell

theorem asIntAs_toConst {w : Nat} (y : BitVec w) (s : Bool) :
    asIntAs (toConst y) s = (intOf s y).bmod 4294967296 := by
  have bit (j : Nat) (below : j < 32) : (BitVec.ofBoolListLE
      (((toConst y).take 32).map (· == .S1))).getLsbD j = y.getLsbD j := by
    rw [BitVec.getLsbD_ofBoolListLE, toConst_eq_map]
    by_cases short : j < w
    · have read (b : Bool) : (State.ofBool b == .S1) = b := by cases b <;> rfl
      simp [short, below, read]
    · have past : y.getLsbD j = false := BitVec.getLsbD_of_ge y j (by omega)
      simp [short, past]
  have length : (((toConst y).take 32).map (· == State.S1)).length = min 32 w := by simp
  rw [asIntAs]
  generalize ((toConst y).take 32).map (· == State.S1) = low at bit length
  have word : extendTo s 32 (BitVec.ofBoolListLE low) = extendTo s 32 y := by
    apply BitVec.eq_of_getLsbD_eq
    intro i inside
    rw [extendTo_getLsbD, extendTo_getLsbD, BitVec.msb_eq_getLsbD_last, BitVec.msb_eq_getLsbD_last,
      bit i inside, bit _ (by omega)]
    by_cases short : i < w
    · have both : i < low.length := by omega
      rw [if_pos short, if_pos both]
    · have whole : low.length = w := by omega
      rw [whole]
  rw [word, extendTo_eq_ofInt, BitVec.toInt_ofInt]

namespace ShiftCell

variable {cell : ShiftCell}

/-- The `int` amount is the amount itself, or the amount is out of the range of every width. -/
private theorem shiftBits_eq_or_far (applies : cell.Applies) :
    cell.shiftBits = cell.amount ∨ 2147483648 ≤ cell.amount ∨ cell.amount ≤ -2147483648 := by
  obtain ⟨w, y, value⟩ := exists_toConst applies.defined
  have word := asIntAs_toConst y cell.amountSigned
  unfold shiftBits amount
  rw [value, const2big_toConst, word]
  have wrap (v : Int) : v.bmod 4294967296 = v ∨ 2147483648 ≤ v ∨ v < -2147483648 := by
    rw [Int.bmod_def]
    split <;> omega
  have fits := wrap (intOf cell.amountSigned y)
  cases cell.isLeft <;> simp only [Bool.false_eq_true, if_false, if_true] <;> omega

private theorem amount_of_isLeft (left : cell.isLeft = true) : cell.amount ≤ 0 := by
  have unsigned : cell.amountSigned = false := by
    unfold isLeft at left
    unfold amountSigned
    simp only [Bool.or_eq_true, decide_eq_true_eq] at left
    obtain type | type := left <;> simp [type]
  unfold amount
  rw [unsigned, if_pos left]
  simp [const2big]

private theorem amount_of_signExt (signExt : cell.signExt = true) : 0 ≤ cell.amount := by
  have type : cell.type = .sshr := by
    unfold ShiftCell.signExt at signExt
    simp only [Bool.and_eq_true, decide_eq_true_eq] at signExt
    exact signExt.1
  have unsigned : cell.amountSigned = false := by simp [amountSigned, type]
  have right : cell.isLeft = false := by simp [isLeft, type]
  unfold amount
  rw [unsigned, right]
  simp [const2big]

end ShiftCell

/-- The state at position `pos` of an operand that is continued by vacant bits below, and by
vacant or sign bits above. -/
def stateAt (signExt : Bool) (vacant : State) (arg : Const) (pos : Int) : State :=
  if pos < 0 then vacant
  else if pos ≥ arg.length then if signExt then arg.getLast?.getD .Sx else vacant
  else arg.getD pos.toNat .Sx

variable {signExt : Bool} {vacant : State} {arg : Const} {pos : Int}

theorem stateAt_neg (below : pos < 0) : stateAt signExt vacant arg pos = vacant := if_pos below

private theorem stateAt_inside (i : Nat) (inside : i < arg.length) :
    stateAt signExt vacant arg i = arg[i] := by
  have above : ¬ ((i : Int) < 0) := by omega
  have short : ¬ ((i : Int) ≥ arg.length) := by omega
  rw [stateAt, if_neg above, if_neg short, Int.toNat_natCast, getD_eq_getElem _ _ inside]

private theorem stateAt_past (past : (arg.length : Int) ≤ pos) :
    stateAt signExt vacant arg pos = if signExt then arg.getLast?.getD .Sx else vacant := by
  have above : ¬ (pos < 0) := by omega
  rw [stateAt, if_neg above, if_pos past]

theorem stateAt_replicate (n : Nat) : stateAt false vacant (List.replicate n vacant) pos = vacant := by
  by_cases below : pos < 0
  · exact stateAt_neg below
  · obtain ⟨i, rfl⟩ := Int.eq_ofNat_of_zero_le (Int.not_lt.mp below)
    by_cases inside : i < n
    · rw [stateAt_inside i (by simpa using inside), getElem_replicate]
    · rw [stateAt_past (by simp; omega)]
      rfl

@[simp] theorem length_extendU0 (arg : Const) (width : Nat) (isSigned : Bool) :
    (extendU0 arg width isSigned).length = width := by
  simp [extendU0]
  omega

theorem extendU0_getElem (width : Nat) (isSigned : Bool) (i : Nat)
    (inside : i < (extendU0 arg width isSigned).length) :
    (extendU0 arg width isSigned)[i] =
      arg.getD i (if isSigned then arg.getLast?.getD .S0 else .S0) := by
  by_cases own : i < arg.length
  · simp [extendU0, own]
  · rw [getD_eq_default _ _ (by omega)]
    simp only [extendU0, getElem_take]
    rw [getElem_append_right (by omega), getElem_replicate]

private theorem stateAt_extendU0 (width : Nat) (isSigned : Bool) :
    stateAt false .S0 (extendU0 arg width isSigned) pos =
      if 0 ≤ pos ∧ pos < width then
        arg.getD pos.toNat (if isSigned then arg.getLast?.getD .S0 else .S0)
      else .S0 := by
  by_cases below : pos < 0
  · rw [stateAt_neg below, if_neg (by omega)]
  · obtain ⟨i, rfl⟩ := Int.eq_ofNat_of_zero_le (Int.not_lt.mp below)
    by_cases inside : i < width
    · have both : 0 ≤ (i : Int) ∧ (i : Int) < width := by omega
      rw [stateAt_inside i (by simpa using inside), extendU0_getElem, if_pos both,
        Int.toNat_natCast]
    · have outside : ¬ (0 ≤ (i : Int) ∧ (i : Int) < width) := by omega
      rw [stateAt_past (by simp; omega), if_neg outside]
      rfl

theorem stateAt_signed :
    stateAt true vacant arg pos =
      if pos < 0 then vacant else arg.getD pos.toNat (arg.getLast?.getD .Sx) := by
  by_cases below : pos < 0
  · rw [stateAt_neg below, if_pos below]
  · obtain ⟨i, rfl⟩ := Int.eq_ofNat_of_zero_le (Int.not_lt.mp below)
    rw [if_neg below, Int.toNat_natCast]
    by_cases inside : i < arg.length
    · rw [stateAt_inside i inside, getD_eq_getElem _ _ inside]
    · rw [stateAt_past (by omega), getD_eq_default _ _ (by omega)]
      rfl

private theorem getLast?_extendU0 {width : Nat} (bits : arg ≠ []) (long : arg.length ≤ width) :
    (extendU0 arg width true).getLast? = arg.getLast? := by
  have positive := length_pos_of_ne_nil bits
  rw [getLast?_eq_getElem?, length_extendU0,
    getElem?_eq_getElem (by simp; omega), extendU0_getElem, getLast?_eq_some_getLast bits]
  by_cases same : arg.length = width
  · rw [getD_eq_getElem _ _ (by omega), getLast_eq_getElem]
    simp [same]
  · rw [getD_eq_default _ _ (by omega)]
    rfl

private theorem stateAt_signed_extendU0 {width : Nat} (bits : arg ≠ []) (long : arg.length ≤ width) :
    stateAt true vacant (extendU0 arg width true) pos = stateAt true vacant arg pos := by
  rw [stateAt_signed, stateAt_signed, getLast?_extendU0 bits long]
  by_cases below : pos < 0
  · rw [if_pos below, if_pos below]
  · by_cases inside : pos.toNat < width
    · rw [getD_eq_getElem _ _ (by simpa using inside), extendU0_getElem,
        getLast?_eq_some_getLast bits]
      rfl
    · rw [getD_eq_default _ _ (by simpa using inside), getD_eq_default _ _ (by omega)]

theorem constShiftWorker_eq (arg b : Const) (signExt signed2 : Bool) (direction : Int) (n : Nat)
    (vacant : State) (defined : b.isFullyDef = true) :
    constShiftWorker arg b signExt signed2 direction n vacant = (List.range n).map fun i : Nat =>
      stateAt signExt vacant arg (i + (const2big b signed2 (-1)).1 * direction) := by
  obtain ⟨w, y, rfl⟩ := exists_toConst defined
  unfold constShiftWorker
  rw [const2big_toConst]
  simp [stateAt]

namespace ShiftCell

variable {cell : ShiftCell}

/-- Whether the evaluator continues A by its last bit. -/
def evalSignExt : Bool :=
  (cell.type = .sshl || cell.type = .sshr) && cell.signedA

def operand (arg : Const) : Const :=
  if cell.evalSignExt || cell.type = .shiftx then arg
  else if cell.isLeft then extendU0 arg cell.yWidth cell.signedA
  else extendU0 arg (max cell.yWidth arg.length) cell.signedA

def evalBit (arg : Const) (i : Nat) : State :=
  stateAt cell.evalSignExt cell.vacant (cell.operand arg) (i + cell.amount)

private theorem eval_eq (applies : cell.Applies) (arg : Const) :
    eval cell.type arg cell.b cell.signedA cell.signedB cell.yWidth =
      some ((List.range cell.yWidth).map (cell.evalBit arg)) := by
  obtain ⟨type, signedA, signedB, aWidth, b, yWidth⟩ := cell
  have member := applies.type
  have defined := applies.defined
  simp only [mem_cons, not_mem_nil, or_false] at member defined
  have shifted (arg b : Const) (signExt signed2 : Bool) (direction : Int) (vacant : State) :=
    constShiftWorker_eq arg b signExt signed2 direction yWidth vacant
  obtain rfl | rfl | rfl | rfl | rfl | rfl := member <;> cases signedA <;>
    simp [eval, keepsOwnSign, evalTable, constShl, constShr, constSshl, constSshr, constShift,
      constShiftx, shifted, defined, evalBit, evalSignExt, operand, isLeft, amount, amountSigned, vacant]

def wired (arg : Const) : Const :=
  if arg.length < cell.yWidth then extendStates arg cell.yWidth cell.signedA else arg

def wiredBit (arg : Const) (i : Nat) : State :=
  stateAt cell.signExt cell.vacant (cell.wired arg) (i + cell.shiftBits)

private theorem le_shiftBits : -2147483648 ≤ cell.shiftBits := by
  unfold shiftBits asIntAs
  generalize extendTo cell.amountSigned 32 _ = bits
  have low := bits.le_toInt
  have high := bits.toInt_lt
  cases cell.isLeft <;> simp only [Bool.false_eq_true, if_false, if_true] <;> omega

/-- The wiring without the overflow checks. -/
def plainBit (sigA : SigSpec) (i : Nat) : SigBit :=
  let idx := i + cell.shiftBits
  if 0 ≤ idx ∧ idx < sigA.length then sigA.getD idx.toNat (.const .Sx)
  else if sigA.length ≤ idx ∧ cell.signExt = true then sigA.getLast?.getD (.const .Sx)
  else .const cell.vacant

private theorem bit_plainBit (r : Reading) (sigA : SigSpec) (i : Nat) :
    r.bit (cell.plainBit sigA i) =
      stateAt cell.signExt cell.vacant (r.sig sigA) (i + cell.shiftBits) := by
  unfold plainBit stateAt
  simp only [Reading.sig_length]
  generalize (i : Int) + cell.shiftBits = idx
  by_cases below : idx < 0
  · have outside : ¬ (0 ≤ idx ∧ idx < sigA.length) := by omega
    have lower : ¬ ((sigA.length : Int) ≤ idx ∧ cell.signExt = true) := by omega
    rw [if_pos below, if_neg outside, if_neg lower]
    rfl
  · by_cases past : (sigA.length : Int) ≤ idx
    · have outside : ¬ (0 ≤ idx ∧ idx < sigA.length) := by omega
      rw [if_neg below, if_pos past, if_neg outside]
      cases cell.signExt with
      | false => simp [Reading.bit]
      | true =>
        simp only [past, and_self, if_true]
        rw [Reading.sig, getLast?_map]
        cases sigA.getLast? <;> rfl
    · have inside : 0 ≤ idx ∧ idx < sigA.length := by omega
      have index : idx.toNat < sigA.length := by omega
      rw [if_neg below, if_neg past, if_pos inside, getD_eq_getElem _ _ index,
        getD_eq_getElem _ _ (by simpa using index)]
      simp [Reading.sig]

theorem wireBit_eq (sigA : SigSpec) (i : Nat) (fits : (i : Int) + cell.shiftBits ≤ 2147483647) :
    cell.wireBit sigA cell.shiftBits i = some (cell.plainBit sigA i) := by
  have low := cell.le_shiftBits
  have range : -2147483648 ≤ (i : Int) + cell.shiftBits ∧
      (i : Int) + cell.shiftBits ≤ 2147483647 := by omega
  simp [wireBit, intResult, range, plainBit]

private theorem wiring_eq_some (noOverflow : cell.NoOverflow) (a : SigSpec) :
    ∃ y, cell.wiring a = some y ∧
      ∀ r : Reading, r.sig y = (List.range cell.yWidth).map (cell.wiredBit (r.sig a)) := by
  obtain ⟨fits, last⟩ := noOverflow
  have range : -2147483648 ≤ cell.shiftBits ∧ cell.shiftBits ≤ 2147483647 :=
    ⟨cell.le_shiftBits, fits⟩
  let sigA := if a.length < cell.yWidth then extendSig a cell.yWidth cell.signedA else a
  have steps : (List.range cell.yWidth).mapM (cell.wireBit sigA cell.shiftBits) =
      some ((List.range cell.yWidth).map (cell.plainBit sigA)) := by
    apply mapM_eq_some_map
    intro i mem
    have inside := List.mem_range.mp mem
    apply wireBit_eq
    omega
  have whole : cell.wiring a = some ((List.range cell.yWidth).map (cell.plainBit sigA)) := by
    simp only [wiring, intResult, range, and_self, if_true, Option.bind_eq_bind, Option.bind_some]
    exact steps
  refine ⟨_, whole, ?_⟩
  intro r
  have operand : r.sig sigA = cell.wired (r.sig a) := by
    simp only [sigA, wired, Reading.sig_length]
    split
    · exact sig_extendSig r a _ _
    · rfl
  rw [Reading.sig, map_map]
  apply map_congr_left
  intro i _
  rw [Function.comp_apply, bit_plainBit, operand, wiredBit]

private theorem noOverflow_of_wiring {a y : SigSpec} (computed : cell.wiring a = some y) :
    cell.NoOverflow := by
  simp only [wiring, Option.bind_eq_bind, Option.bind_eq_some_iff] at computed
  obtain ⟨bits, negated, steps⟩ := computed
  have inRange {v w : Int} (result : intResult v = some w) : v ≤ 2147483647 ∧ w = v := by
    unfold intResult at result
    split at result
    · rename_i range
      exact ⟨range.2, (Option.some.inj result).symm⟩
    · cases result
  obtain ⟨fits, rfl⟩ := inRange negated
  refine ⟨fits, ?_⟩
  by_cases empty : cell.yWidth = 0
  · exact Or.inl empty
  · obtain ⟨b, last⟩ := of_mapM_eq_some steps (cell.yWidth - 1) (by simp; omega)
    simp only [wireBit, Option.bind_eq_bind, Option.bind_eq_some_iff] at last
    obtain ⟨idx, index, -⟩ := last
    have top := (inRange index).1
    omega

/-- The rule is right when no operation overflows and each bit agrees for all values of A. -/
private theorem wiringRight_iff_bits (applies : cell.Applies) :
    cell.WiringRight ↔ cell.NoOverflow ∧ ∀ arg : Const, arg.length = cell.aWidth →
      ∀ i, i < cell.yWidth → Refines (cell.evalBit arg i) (cell.wiredBit arg i) := by
  have lists (f g : Nat → State) : RefinesAll ((range cell.yWidth).map f)
      ((range cell.yWidth).map g) ↔ ∀ i, i < cell.yWidth → Refines (f i) (g i) := by
    simp [RefinesAll]
  constructor
  · intro right
    constructor
    · obtain ⟨y, computed, -⟩ := right (replicate cell.aWidth (.const .S0)) (by simp)
      exact noOverflow_of_wiring computed
    · intro arg length
      obtain ⟨y, computed, values⟩ := right (SigSpec.ofConst arg) (by simpa [SigSpec.ofConst])
      obtain ⟨y', computed', wires⟩ := wiring_eq_some (noOverflow_of_wiring computed)
        (SigSpec.ofConst arg)
      obtain rfl := Option.some.inj (computed.symm.trans computed')
      obtain ⟨e, value, refines⟩ := values fun _ _ => .S0
      rw [eval_eq applies, Reading.sig_ofConst] at value
      rw [← Option.some.inj value, wires, Reading.sig_ofConst] at refines
      exact (lists _ _).mp refines
  · rintro ⟨noOverflow, bits⟩ a length
    obtain ⟨y, computed, wires⟩ := wiring_eq_some noOverflow a
    refine ⟨y, computed, ?_⟩
    intro r
    refine ⟨_, eval_eq applies (r.sig a), ?_⟩
    rw [wires]
    exact (lists _ _).mpr (bits (r.sig a) (by simpa using length))

@[simp] theorem length_wired (arg : Const) :
    (cell.wired arg).length = max cell.yWidth arg.length := by
  unfold wired
  split
  · simp [extendStates]
    omega
  · omega

variable {i : Nat}

private theorem wired_eq (bits : arg ≠ [] ∨ cell.signedA = false) :
    cell.wired arg = extendU0 arg (max cell.yWidth arg.length) cell.signedA := by
  unfold wired
  split
  · rename_i short
    rw [extendStates_eq bits, Nat.max_eq_left (Nat.le_of_lt short)]
  · rename_i long
    rw [Nat.max_eq_right (Nat.le_of_not_lt long)]
    simp [extendU0]

private theorem vacant_eq (shift : cell.type ≠ .shiftx) : cell.vacant = .S0 := if_neg shift

private theorem evalSignExt_of_signExt (signExt : cell.signExt = true) :
    cell.type = .sshr ∧ cell.signedA = true ∧ cell.evalSignExt = true := by
  simp only [ShiftCell.signExt, Bool.and_eq_true, decide_eq_true_eq] at signExt
  simp [evalSignExt, signExt.1, signExt.2]

private theorem evalBit_eq (shift : cell.type ≠ .shiftx) (bits : arg ≠ [] ∨ cell.signedA = false)
    (inside : i < cell.yWidth) :
    cell.evalBit arg i = stateAt cell.signExt .S0 (cell.wired arg) (i + cell.amount) := by
  rw [evalBit, vacant_eq shift, wired_eq bits]
  cases ext : cell.signExt with
  | true =>
    obtain ⟨-, signedA, evalExt⟩ := evalSignExt_of_signExt ext
    have nonempty : arg ≠ [] := by simpa [signedA] using bits
    rw [evalExt, operand, evalExt, signedA, stateAt_signed_extendU0 nonempty (by omega)]
    rfl
  | false =>
    cases evalExt : cell.evalSignExt with
    | true =>
      have left : cell.isLeft = true ∧ cell.signedA = true := by
        simp only [evalSignExt, Bool.and_eq_true, Bool.or_eq_true, decide_eq_true_eq] at evalExt
        simp only [ShiftCell.signExt, evalExt.2, Bool.and_true, decide_eq_false_iff_not] at ext
        simp [isLeft, evalExt.1.resolve_right ext, evalExt.2]
      have nonempty : arg ≠ [] := by simpa [left.2] using bits
      have low := amount_of_isLeft left.1
      rw [operand, evalExt, left.2, stateAt_extendU0]
      simp only [Bool.true_or, if_true, stateAt_signed, getLast?_eq_some_getLast nonempty,
        Option.getD_some]
      by_cases below : (i : Int) + cell.amount < 0
      · rw [if_pos below, if_neg (by omega)]
      · rw [if_neg below, if_pos (by omega)]
    | false =>
      rw [operand, evalExt]
      simp only [shift, decide_false, Bool.or_self, Bool.false_eq_true, if_false]
      cases left : cell.isLeft with
      | false => rfl
      | true =>
        have low := amount_of_isLeft left
        simp only [if_true, stateAt_extendU0]
        have same : (0 ≤ (i : Int) + cell.amount ∧ (i : Int) + cell.amount < cell.yWidth) ↔
            (0 ≤ (i : Int) + cell.amount ∧
              (i : Int) + cell.amount < (max cell.yWidth arg.length : Nat)) := by omega
        simp only [same]

private theorem evalBit_far (applies : cell.Applies) (shift : cell.type ≠ .shiftx)
    (length : arg.length = cell.aWidth) (inside : i < cell.yWidth)
    (differ : cell.shiftBits ≠ cell.amount) :
    cell.evalBit arg i = if cell.signExt then arg.getLast?.getD .Sx else .S0 := by
  have aWidth := applies.aWidth
  have yWidth := applies.yWidth
  have far := (shiftBits_eq_or_far applies).resolve_left differ
  rw [evalBit, vacant_eq shift]
  cases ext : cell.signExt with
  | true =>
    have low := amount_of_signExt ext
    obtain ⟨-, -, evalExt⟩ := evalSignExt_of_signExt ext
    have whole : cell.operand arg = arg := by simp [operand, evalExt]
    rw [evalExt, whole, stateAt_past (by omega)]
  | false =>
    have short : (cell.operand arg).length ≤ 2147483647 := by
      unfold operand
      split
      · omega
      · split
        · simpa using yWidth
        · simp
          omega
    obtain high | low := far
    · have right : cell.evalSignExt = false := by
        by_contra evalExt
        simp only [evalSignExt, Bool.not_eq_false, Bool.and_eq_true, Bool.or_eq_true,
          decide_eq_true_eq] at evalExt
        simp only [ShiftCell.signExt, evalExt.2, Bool.and_true, decide_eq_false_iff_not] at ext
        have left : cell.amount ≤ 0 :=
          amount_of_isLeft (by simp [isLeft, evalExt.1.resolve_right ext])
        omega
      rw [right, stateAt_past (by omega)]
      rfl
    · rw [stateAt_neg (by omega)]
      rfl

theorem evalBit_nil_eq (shift : cell.type ≠ .shiftx) (evalExt : cell.evalSignExt = false) (i : Nat) :
    cell.evalBit [] i = .S0 := by
  have zeros (width : Nat) : extendU0 [] width cell.signedA = replicate width .S0 := by
    cases cell.signedA <;> simp [extendU0]
  rw [evalBit, vacant_eq shift, evalExt, operand, evalExt]
  simp only [shift, decide_false, Bool.or_self, Bool.false_eq_true, if_false, zeros]
  split <;> exact stateAt_replicate _

private theorem refines_of_signed_nil (evalExt : cell.evalSignExt = true)
    (above : 0 ≤ (i : Int) + cell.amount) (t : State) : Refines (cell.evalBit [] i) t := by
  rw [evalBit, evalExt, stateAt_signed, if_neg (by omega)]
  simp [operand, evalExt, Refines, State.isDef]

theorem evalBit_nil (shift : cell.type ≠ .shiftx) (i : Nat) : Refines (cell.evalBit [] i) .S0 := by
  cases evalExt : cell.evalSignExt with
  | true =>
    by_cases above : 0 ≤ (i : Int) + cell.amount
    · exact refines_of_signed_nil evalExt above _
    · rw [evalBit, stateAt_neg (by omega), vacant_eq shift]
      exact Refines.refl _
  | false =>
    rw [evalBit_nil_eq shift evalExt]
    exact Refines.refl _

private theorem wiredBit_of_not_readsOperand (shift : cell.type ≠ .shiftx)
    (length : arg.length = cell.aWidth) (inside : i < cell.yWidth) (ext : cell.signExt = false)
    (unread : ¬ cell.ReadsOperand) : cell.wiredBit arg i = .S0 := by
  have outside : ¬ (0 ≤ (i : Int) + cell.shiftBits ∧ (i : Int) + cell.shiftBits < cell.reach) := by
    intro read
    exact unread ⟨i, inside, read⟩
  rw [wiredBit, vacant_eq shift, ext]
  unfold reach at outside
  cases signedA : cell.signedA with
  | true =>
    rw [signedA, if_pos rfl] at outside
    by_cases below : (i : Int) + cell.shiftBits < 0
    · exact stateAt_neg below
    · rw [stateAt_past (by simp; omega)]
      rfl
  | false =>
    rw [signedA, if_neg Bool.false_ne_true] at outside
    rw [wired_eq (Or.inr signedA), stateAt_extendU0, signedA]
    split
    · rw [getD_eq_default _ _ (by omega)]
      rfl
    · rfl

/-- `$shiftx`: bits outside of A are undefined, so only the bits inside have to agree. -/
private theorem refines_of_shiftx (applies : cell.Applies) (shiftx : cell.type = .shiftx)
    (length : arg.length = cell.aWidth) (inside : i < cell.yWidth) :
    Refines (cell.evalBit arg i) (cell.wiredBit arg i) := by
  have aWidth := applies.aWidth
  have yWidth := applies.yWidth
  have evalExt : cell.evalSignExt = false := by simp [evalSignExt, shiftx]
  have vacant : cell.vacant = .Sx := if_pos shiftx
  have whole : cell.operand arg = arg := by simp [operand, shiftx]
  rw [evalBit, evalExt, vacant, whole]
  by_cases read : 0 ≤ (i : Int) + cell.amount ∧ (i : Int) + cell.amount < arg.length
  · have same : cell.shiftBits = cell.amount := by
      have fits := shiftBits_eq_or_far applies
      omega
    obtain ⟨p, index⟩ := Int.eq_ofNat_of_zero_le read.1
    have bit : (cell.wired arg)[p]? = arg[p]? := by
      unfold wired
      split
      · rw [extendStates, getElem?_take_of_lt (by omega), getElem?_append_left (by omega)]
      · rfl
    rw [wiredBit, same, index, stateAt_inside p (by omega),
      stateAt_inside p (by rw [length_wired]; omega), ← getD_eq_getElem _ .Sx,
      ← getD_eq_getElem _ .Sx, getD_eq_getElem?_getD, getD_eq_getElem?_getD, bit]
    exact Refines.refl _
  · have undefined : stateAt false .Sx arg (i + cell.amount) = .Sx := by
      by_cases below : (i : Int) + cell.amount < 0
      · exact stateAt_neg below
      · rw [stateAt_past (by omega)]
        rfl
    rw [undefined]
    intro defined
    cases defined

section Agreement

variable (applies : cell.Applies) (shift : cell.type ≠ .shiftx) (length : arg.length = cell.aWidth)
  (inside : i < cell.yWidth)

include shift inside in
/-- With the same amount on both sides, only a signed operand without bits is read differently. -/
private theorem refines_of_equal (equal : cell.shiftBits = cell.amount)
    (covered : arg ≠ [] ∨ cell.signedA = false ∨ cell.evalSignExt = true) :
    Refines (cell.evalBit arg i) (cell.wiredBit arg i) := by
  by_cases bits : arg ≠ [] ∨ cell.signedA = false
  · rw [evalBit_eq shift bits inside, wiredBit, vacant_eq shift, equal]
    exact Refines.refl _
  · have evalExt : cell.evalSignExt = true := by tauto
    obtain rfl : arg = [] := by tauto
    by_cases above : 0 ≤ (i : Int) + cell.amount
    · exact refines_of_signed_nil evalExt above _
    · rw [evalBit, wiredBit, equal, stateAt_neg (by omega), stateAt_neg (by omega)]
      exact Refines.refl _

include applies shift length inside in
private theorem refines_of_unread (ext : cell.signExt = false) (unread : ¬ cell.ReadsOperand) :
    Refines (cell.evalBit arg i) (cell.wiredBit arg i) := by
  by_cases equal : cell.shiftBits = cell.amount
  · by_cases bits : arg = []
    · subst bits
      rw [wiredBit_of_not_readsOperand shift length inside ext unread]
      exact evalBit_nil shift i
    · exact refines_of_equal shift inside equal (Or.inl bits)
  · rw [wiredBit_of_not_readsOperand shift length inside ext unread,
      evalBit_far applies shift length inside equal, ext]
    exact Refines.refl _

private theorem wiredBit_of_top (ext : cell.signExt = true) (bits : arg ≠ [])
    (top : arg.length - 1 ≤ cell.shiftBits) : cell.wiredBit arg i = arg.getLast?.getD .Sx := by
  have positive := length_pos_of_ne_nil bits
  obtain ⟨-, signedA, -⟩ := evalSignExt_of_signExt ext
  rw [wiredBit, ext, wired_eq (Or.inl bits), signedA, stateAt_signed_extendU0 bits (by omega),
    stateAt_signed, if_neg (by omega), getD_eq_getElem?_getD]
  by_cases own : ((i : Int) + cell.shiftBits).toNat < arg.length
  · have index : ((i : Int) + cell.shiftBits).toNat = arg.length - 1 := by omega
    rw [index, ← getLast?_eq_getElem?, getLast?_eq_some_getLast bits]
    rfl
  · rw [getElem?_eq_none (by omega)]
    rfl

include applies shift length inside in
private theorem refines_of_top (ext : cell.signExt = true)
    (top : arg = [] ∨ cell.aWidth - 1 ≤ cell.shiftBits) :
    Refines (cell.evalBit arg i) (cell.wiredBit arg i) := by
  by_cases empty : arg = []
  · subst empty
    obtain ⟨-, -, evalExt⟩ := evalSignExt_of_signExt ext
    have low := amount_of_signExt ext
    exact refines_of_signed_nil evalExt (by omega) _
  · by_cases equal : cell.shiftBits = cell.amount
    · exact refines_of_equal shift inside equal (Or.inl empty)
    · have past := top.resolve_left empty
      rw [evalBit_far applies shift length inside equal, ext, wiredBit_of_top ext empty (by omega)]
      exact Refines.refl _

end Agreement

private theorem refines_of_amountFits (applies : cell.Applies) (length : arg.length = cell.aWidth)
    (inside : i < cell.yWidth) (fits : cell.AmountFits) :
    Refines (cell.evalBit arg i) (cell.wiredBit arg i) := by
  have empty_iff : arg = [] ↔ cell.aWidth = 0 := by rw [← length, length_eq_zero_iff]
  by_cases shift : cell.type = .shiftx
  · exact refines_of_shiftx applies shift length inside
  · obtain shiftx | ⟨equal, covered⟩ | ⟨ext, unread⟩ | ⟨ext, rest⟩ := fits
    · exact absurd shiftx shift
    · apply refines_of_equal shift inside equal
      cases signedA : cell.signedA <;> simp_all [evalSignExt]
    · exact refines_of_unread applies shift length inside ext unread
    · apply refines_of_top applies shift length inside ext
      rw [empty_iff]
      obtain empty | empty | top := rest
      · exact Or.inl empty
      · omega
      · exact Or.inr top

private theorem wiredBit_ones
    (read : 0 ≤ (i : Int) + cell.shiftBits ∧ (i : Int) + cell.shiftBits < cell.reach) :
    cell.wiredBit (List.replicate cell.aWidth .S1) i ≠ .S0 := by
  obtain ⟨p, index⟩ := Int.eq_ofNat_of_zero_le read.1
  unfold reach at read
  cases signedA : cell.signedA with
  | true =>
    rw [signedA, if_pos rfl] at read
    rw [wiredBit, index, stateAt_inside p (by simp; omega)]
    have entries : ∀ t ∈ cell.wired (replicate cell.aWidth .S1), t = .S1 ∨ t = .Sx := by
      intro t mem
      unfold wired at mem
      split at mem
      · simp only [extendStates, signedA, if_true, getLast?_replicate] at mem
        obtain own | padding := mem_append.mp (mem_of_mem_take mem)
        · exact Or.inl (eq_of_mem_replicate own)
        · have value := eq_of_mem_replicate padding
          split at value
          · exact Or.inr value
          · exact Or.inl value
      · exact Or.inl (eq_of_mem_replicate mem)
    obtain one | undef := entries _ (getElem_mem _)
    · rw [one]
      decide
    · rw [undef]
      decide
  | false =>
    rw [signedA, if_neg Bool.false_ne_true] at read
    rw [wiredBit, index, stateAt_inside p (by simp; omega)]
    simp only [wired_eq (Or.inr signedA)]
    rw [extendU0_getElem, getD_eq_getElem _ _ (by simp; omega), getElem_replicate]
    decide

/-- On an operand with the top bit alone set, an arithmetic right shift that stays below the top
bit does not read it. -/
theorem wiredBit_top_alone (ext : cell.signExt = true) (low : cell.shiftBits < cell.aWidth - 1) :
    cell.wiredBit (List.replicate (cell.aWidth - 1) .S0 ++ [.S1]) 0 = .S0 := by
  obtain ⟨type, signedA, -⟩ := evalSignExt_of_signExt ext
  have vacant : cell.vacant = .S0 := by simp [ShiftCell.vacant, type]
  rw [wiredBit, ext, vacant, wired_eq (Or.inl (by simp)), signedA,
    stateAt_signed_extendU0 (by simp) (by omega), stateAt_signed]
  split
  · rfl
  · have index : ((0 : Nat) + cell.shiftBits).toNat < cell.aWidth - 1 := by omega
    rw [getD_eq_getElem _ _ (by simp; omega), getElem_append_left (by simpa using index),
      getElem_replicate]

private theorem amountFits_of_refines (applies : cell.Applies)
    (bits : ∀ arg : Const, arg.length = cell.aWidth →
      ∀ i, i < cell.yWidth → Refines (cell.evalBit arg i) (cell.wiredBit arg i)) :
    cell.AmountFits := by
  by_cases shift : cell.type = .shiftx
  · exact Or.inl shift
  right
  cases ext : cell.signExt with
  | true =>
    by_cases top : cell.aWidth = 0 ∨ cell.yWidth = 0 ∨ cell.aWidth - 1 ≤ cell.shiftBits
    · exact Or.inr (Or.inr ⟨rfl, top⟩)
    · simp only [not_or, not_le] at top
      have equal : cell.shiftBits = cell.amount := by
        by_contra differ
        have length : (replicate (cell.aWidth - 1) State.S0 ++ [State.S1]).length =
            cell.aWidth := by
          simp
          omega
        have refines := bits _ length 0 (by omega)
        rw [evalBit_far applies shift length (by omega) differ, ext,
          wiredBit_top_alone ext top.2.2] at refines
        simp [Refines, State.isDef] at refines
      exact Or.inl ⟨equal, Or.inl top.1⟩
  | false =>
    by_cases read : cell.ReadsOperand
    · left
      obtain ⟨i, inside, idx⟩ := read
      have length : (replicate cell.aWidth State.S1).length = cell.aWidth := by simp
      have telling : cell.evalBit (replicate cell.aWidth .S1) i ≠ .S0 := by
        intro zero
        have refines := bits _ length i inside
        rw [zero] at refines
        exact wiredBit_ones idx (refines rfl)
      have equal : cell.shiftBits = cell.amount := by
        by_contra differ
        exact telling (by rw [evalBit_far applies shift length inside differ, ext]; rfl)
      refine ⟨equal, ?_⟩
      by_contra uncovered
      simp only [not_or, not_not] at uncovered
      have evalExt : cell.evalSignExt = false := by
        simp [evalSignExt, uncovered.2.2.1, uncovered.2.2.2]
      rw [uncovered.1] at telling
      exact telling (evalBit_nil_eq shift evalExt i)
    · exact Or.inr (Or.inl ⟨rfl, read⟩)

/-- The wiring that replaces a constant shift is right exactly when no `int` overflows and the
amount, read as an `int`, fits. -/
theorem wiringRight_iff (applies : cell.Applies) :
    cell.WiringRight ↔ cell.NoOverflow ∧ cell.AmountFits := by
  rw [wiringRight_iff_bits applies]
  constructor
  · rintro ⟨noOverflow, bits⟩
    exact ⟨noOverflow, amountFits_of_refines applies bits⟩
  · rintro ⟨noOverflow, fits⟩
    exact ⟨noOverflow, fun arg length i inside => refines_of_amountFits applies length inside fits⟩

end ShiftCell

/-- A logical right shift of one bit by the 33-bit constant with the top bit alone set. -/
def wideShift : ShiftCell :=
  { type := .shr, signedA := false, signedB := false, aWidth := 1
    b := List.replicate 32 .S0 ++ [.S1], yWidth := 1 }

/-- The amount is read as zero, so Y is wired to A, where the shift leaves nothing of A. -/
theorem wideShift_wired_to_operand :
    wideShift.wiring [.const .S1] = some [.const .S1] ∧
      eval .shr [.S1] wideShift.b false false 1 = some [.S0] := by
  decide +kernel

theorem wiringRight_sshr_one :
    ShiftCell.WiringRight ⟨.sshr, true, false, 3, [.S1, .S0], 3⟩ := by
  have applies : ShiftCell.Applies ⟨.sshr, true, false, 3, [.S1, .S0], 3⟩ :=
    ⟨by decide, by decide, by decide, by decide⟩
  have bits : ShiftCell.shiftBits ⟨.sshr, true, false, 3, [.S1, .S0], 3⟩ = 1 := by decide +kernel
  have amount : ShiftCell.amount ⟨.sshr, true, false, 3, [.S1, .S0], 3⟩ = 1 := by decide +kernel
  apply (ShiftCell.wiringRight_iff applies).mpr
  refine ⟨⟨?_, Or.inr ?_⟩, Or.inr (Or.inl ⟨bits.trans amount.symm, Or.inl (by decide)⟩)⟩
  · decide
  · decide

end ManticoreFrontend.Passes.OptExprShift
