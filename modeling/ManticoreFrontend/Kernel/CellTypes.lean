/- source: kernel/celltypes.h (CellTypes::eval), kernel/constids.inc
   digest: Cell types, port and parameter identifiers, and the reference evaluator of operator cells. -/

import ManticoreFrontend.Kernel.Calc

namespace ManticoreFrontend.Kernel.CellTypes

open Constants Calc

abbrev IdString := String

/-- The internal cell types the passes test for; every other type is an identifier, among them
the user modules. -/
inductive CellType
  | not | pos | neg
  | and | or | xor | xnor
  | reduceAnd | reduceOr | reduceXor | reduceXnor | reduceBool
  | logicNot | logicAnd | logicOr
  | shl | shr | sshl | sshr | shift | shiftx
  | lt | le | eq | ne | eqx | nex | ge | gt
  | add | sub | mul | div | mod | divfloor | modfloor | pow
  | mux | pmux | dff
  | memrd | memrdV2 | memwr | memwrV2 | memV2
  | manticore
  | other (id : IdString)
  deriving DecidableEq, Repr

/-- Port identifiers used by name in the passes. -/
inductive PortId
  | A | B | Y | S | D | Q | EN | ADDR | DATA | CLK | ARST | SRST
  | other (id : IdString)
  deriving DecidableEq, Repr

inductive ParamId
  | A_SIGNED | B_SIGNED | A_WIDTH | B_WIDTH | Y_WIDTH | WIDTH | S_WIDTH | ABITS
  | MEMID | PORTID | PRIORITY_MASK | CLK_ENABLE | CLK_POLARITY | TRANSPARENCY_MASK
  | COLLISION_X_MASK | CE_OVER_SRST | ARST_VALUE | SRST_VALUE | INIT_VALUE
  | other (id : IdString)
  deriving DecidableEq, Repr

/-- `INIT` is the attribute of a flip-flop, `init` the one of a wire. -/
inductive AttrId
  | INIT | init
  | other (id : IdString)
  deriving DecidableEq, Repr

def keepsOwnSign : CellType → Bool
  | .sshr | .sshl | .shr | .shl | .shift | .shiftx | .pos | .neg | .not => true
  | _ => false

def evalNot (v : Const) : Const :=
  v.map fun bit => match bit with
    | .S0 => .S1
    | .S1 => .S0
    | bit => bit

/-- The gate types, which have one-bit ports and ignore the signs and the result length. -/
def evalGate (id : IdString) (arg1 arg2 : Const) : Option Const :=
  if id = "$_BUF_" then some arg1
  else if id = "$_NOT_" then some (evalNot arg1)
  else if id = "$_AND_" then some (constAnd arg1 arg2 false false 1)
  else if id = "$_NAND_" then some (evalNot (constAnd arg1 arg2 false false 1))
  else if id = "$_OR_" then some (constOr arg1 arg2 false false 1)
  else if id = "$_NOR_" then some (evalNot (constOr arg1 arg2 false false 1))
  else if id = "$_XOR_" then some (constXor arg1 arg2 false false 1)
  else if id = "$_XNOR_" then some (constXnor arg1 arg2 false false 1)
  else if id = "$_ANDNOT_" then some (constAnd arg1 (evalNot arg2) false false 1)
  else if id = "$_ORNOT_" then some (constOr arg1 (evalNot arg2) false false 1)
  else none

variable (type : CellType) (arg1 arg2 : Const) (signed1 signed2 : Bool) (resultLen : Int)

/-- The table of folding functions, for types already redirected by `eval`. -/
def evalTable :
    Option Const :=
  match type with
  | .not => some (constNot arg1 signed1 resultLen)
  | .and => some (constAnd arg1 arg2 signed1 signed2 resultLen)
  | .or => some (constOr arg1 arg2 signed1 signed2 resultLen)
  | .xor => some (constXor arg1 arg2 signed1 signed2 resultLen)
  | .xnor => some (constXnor arg1 arg2 signed1 signed2 resultLen)
  | .reduceAnd => some (constReduceAnd arg1 resultLen)
  | .reduceOr => some (constReduceOr arg1 resultLen)
  | .reduceXor => some (constReduceXor arg1 resultLen)
  | .reduceXnor => some (constReduceXnor arg1 resultLen)
  | .reduceBool => some (constReduceBool arg1 resultLen)
  | .logicNot => some (constLogicNot arg1 signed1 resultLen)
  | .logicAnd => some (constLogicAnd arg1 arg2 signed1 signed2 resultLen)
  | .logicOr => some (constLogicOr arg1 arg2 signed1 signed2 resultLen)
  | .shl => some (constShl arg1 arg2 signed1 resultLen)
  | .shr => some (constShr arg1 arg2 signed1 resultLen)
  | .sshl => some (constSshl arg1 arg2 signed1 resultLen)
  | .sshr => some (constSshr arg1 arg2 signed1 resultLen)
  | .shift => some (constShift arg1 arg2 signed1 signed2 resultLen)
  | .shiftx => some (constShiftx arg1 arg2 signed2 resultLen)
  | .lt => some (constLt arg1 arg2 signed1 signed2 resultLen)
  | .le => some (constLe arg1 arg2 signed1 signed2 resultLen)
  | .eq => some (constEq arg1 arg2 signed1 signed2 resultLen)
  | .ne => some (constNe arg1 arg2 signed1 signed2 resultLen)
  | .eqx => some (constEqx arg1 arg2 signed1 signed2 resultLen)
  | .nex => some (constNex arg1 arg2 signed1 signed2 resultLen)
  | .ge => some (constGe arg1 arg2 signed1 signed2 resultLen)
  | .gt => some (constGt arg1 arg2 signed1 signed2 resultLen)
  | .add => some (constAdd arg1 arg2 signed1 signed2 resultLen)
  | .sub => some (constSub arg1 arg2 signed1 signed2 resultLen)
  | .mul => some (constMul arg1 arg2 signed1 signed2 resultLen)
  | .div => some (constDiv arg1 arg2 signed1 signed2 resultLen)
  | .mod => some (constMod arg1 arg2 signed1 signed2 resultLen)
  | .divfloor => some (constDivfloor arg1 arg2 signed1 signed2 resultLen)
  | .modfloor => some (constModfloor arg1 arg2 signed1 signed2 resultLen)
  | .pow => some (constPow arg1 arg2 signed1 signed2 resultLen)
  | .pos => some (constPos arg1 signed1 resultLen)
  | .neg => some (constNeg arg1 signed1 resultLen)
  | .other id => evalGate id arg1 arg2
  | _ => none

/-- The reference evaluator. Unsigned arithmetic shifts become logical ones, and the symmetric
operators are signed only when both operands are. `none` is the abort on a type without an
evaluator. -/
def eval :
    Option Const :=
  let type := if type = .sshr ∧ signed1 = false then .shr else type
  let type := if type = .sshl ∧ signed1 = false then .shl else type
  if keepsOwnSign type then evalTable type arg1 arg2 signed1 signed2 resultLen
  else evalTable type arg1 arg2 (signed1 && signed2) (signed1 && signed2) resultLen

/-- Product term `i` of a sum of products: whether it matches, and whether it may still match
under some value of the undefined bits. -/
def sopTerm (table : Const) (width : Nat) (arg1 : Const) (i : Nat) : Bool × Bool :=
  let literal := fun j k => table.getD (2 * width * i + 2 * j + k) .S0 == .S1
  ((List.range width).all fun j =>
      (!literal j 0 || arg1.getD j .Sx == .S0) && (!literal j 1 || arg1.getD j .Sx == .S1),
    (List.range width).all fun j =>
      (!literal j 0 || arg1.getD j .Sx != .S1) && (!literal j 1 || arg1.getD j .Sx != .S0))

/-- The sum of products: one as soon as a term matches, undefined when one may match. -/
def evalSop (table : Const) (width depth : Nat) (arg1 : Const) : State :=
  let terms := (List.range depth).map (sopTerm table width arg1)
  if terms.any Prod.fst then .S1 else if terms.any Prod.snd then .Sx else .S0

/-- Evaluation of a cell with two operands; `none` is the abort on a missing parameter or an access
outside an operand. -/
def evalCell (type : CellType) (parameters : ParamId → Option Const) (arg1 arg2 : Const) :
    Option Const :=
  if type = .other "$slice" then do
    let width := (← parameters .Y_WIDTH).asInt
    let offset := (← parameters (.other "OFFSET")).asInt
    guard (0 ≤ offset ∧ 0 ≤ width ∧ offset + width ≤ arg1.length)
    return (arg1.drop offset.toNat).take width.toNat
  else if type = .other "$concat" then some (arg1 ++ arg2)
  else if type = .other "$bmux" then some (constBmux arg1 arg2)
  else if type = .other "$demux" then some (constDemux arg1 arg2)
  else if type = .other "$lut" then do
    let width := (← parameters .WIDTH).asInt
    let lut ← parameters (.other "LUT")
    guard (0 ≤ width ∧ width < 31)
    return constBmux (extendU0 lut (2 ^ width.toNat) false) arg1
  else if type = .other "$sop" then do
    let width := (← parameters .WIDTH).asInt
    let depth := (← parameters (.other "DEPTH")).asInt
    let table ← parameters (.other "TABLE")
    guard (depth ≤ 0 ∨ width ≤ arg1.length)
    return [evalSop table width.toNat depth.toNat arg1]
  else
    let signedA := ((parameters .A_SIGNED).map Const.asBool).getD false
    let signedB := ((parameters .B_SIGNED).map Const.asBool).getD false
    let resultLen := ((parameters .Y_WIDTH).map Const.asInt).getD (-1)
    eval type arg1 arg2 signedA signedB resultLen

end ManticoreFrontend.Kernel.CellTypes
