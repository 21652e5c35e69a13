/- source: passes/manticore/manticore_writer.cc (CellSanityChecker, mkSeq, mkCompare,
     convertBinaryOperands, ManticoreAssemblyWorker::convert of cells)
   digest: Instruction selection for one cell. -/

import ManticoreFrontend.Kernel.CellChecker
import ManticoreFrontend.Writer.Generator

namespace ManticoreFrontend.Writer.Cells

open Kernel Constants CellTypes Signals Assembly Generator

variable (cell : Cell)

def getParam (name : ParamId) : Emit Const := liftM (cell.getParam name)

def getPort (name : PortId) : Emit SigSpec := liftM (cell.getPort name)

/-- A parameter read as a width. Checked cells have the width of a port there, so the value is
not negative. -/
def getWidth (name : ParamId) : Emit Nat := do
  let c ← getParam cell name
  pure c.asInt.toNat

def getBool (name : ParamId) : Emit Bool := do
  let c ← getParam cell name
  pure c.asBool

def convertPort (name : PortId) : Emit Name := do
  let sig ← getPort cell name
  convertSig sig

def assertEqualSigns : Emit Unit := do
  let a ← getParam cell .A_SIGNED
  let b ← getParam cell .B_SIGNED
  guard (a = b)

def extendPort (name : PortId) (width : Nat) (isSigned : Bool) : Emit Name := do
  let sig ← getPort cell name
  if isSigned then sextConvert sig width else padConvert sig width

/-- `mkSeq`; the comparison is returned to be emitted by the caller. -/
def mkSeq (res : Name) : Emit Instr := do
  assertEqualSigns cell
  let aSigned ← getBool cell .A_SIGNED
  let aWidth ← getWidth cell .A_WIDTH
  let bWidth ← getWidth cell .B_WIDTH
  let w := max aWidth bWidth
  let op1 ← extendPort cell .A w aSigned
  let op2 ← extendPort cell .B w aSigned
  pure (.alu .SEQ res op1 op2)

/-- `mkCompare`; the operands are swapped unless `less`. -/
def mkCompare (res : Name) (less : Bool) : Emit Instr := do
  assertEqualSigns cell
  let aSigned ← getBool cell .A_SIGNED
  let op1Port : PortId := if less then .A else .B
  let op2Port : PortId := if less then .B else .A
  let aWidth ← getWidth cell .A_WIDTH
  let bWidth ← getWidth cell .B_WIDTH
  let w := max aWidth bWidth
  let op1 ← extendPort cell op1Port w aSigned
  let op2 ← extendPort cell op2Port w aSigned
  pure (.alu (if aSigned then .SLTS else .SLT) res op1 op2)

def convertBinaryOperands : Emit (Name × Name) := do
  let yWidth ← getWidth cell .Y_WIDTH
  let aSigned ← getBool cell .A_SIGNED
  assertEqualSigns cell
  let a ← getPort cell .A
  let first ← extendOrSlice a yWidth aSigned
  let b ← getPort cell .B
  let second ← extendOrSlice b yWidth aSigned
  pure (first, second)

structure UnaryHeader where
  aWidth : Nat
  yWidth : Nat
  aName : Name
  yName : Name

def unaryHeader : Emit UnaryHeader := do
  let aWidth ← getWidth cell .A_WIDTH
  let yWidth ← getWidth cell .Y_WIDTH
  let aName ← convertPort cell .A
  let yName ← convertPort cell .Y
  pure ⟨aWidth, yWidth, aName, yName⟩

/-- A one-bit result: written to `Y` directly when `Y` has one bit, else padded from a temporary. -/
def boolResult (yName : Name) (yWidth : Nat) (op : Name → Emit Instr) : Emit Instr :=
  if yWidth = 1 then op yName
  else do
    let tmp ← temp 1
    let i ← op tmp
    emit i
    pure (.PADZERO yName tmp yWidth)

def bitResult (yName : Name) (yWidth : Nat) (bit : Name) : Instr :=
  if yWidth = 1 then .MOV yName bit else .PADZERO yName bit yWidth

def selectNot : Emit Instr := do
  let width ← getWidth cell .A_WIDTH
  let yWidth ← getWidth cell .Y_WIDTH
  guard (width = yWidth)
  let yName ← convertPort cell .Y
  let aName ← convertPort cell .A
  let ones ← constGet (Const.ofState .S1 width)
  pure (.alu .XOR yName aName ones)

/-- The sign of a narrow signed operand is taken from bit 0, as the source has it. -/
def selectPos : Emit Instr := do
  let h ← unaryHeader cell
  let aSigned ← getBool cell .A_SIGNED
  if aSigned ∧ h.aWidth < h.yWidth then do
    let aSign ← temp 1
    emit (.SLICE aSign h.aName 0 1)
    let extension ← temp h.yWidth
    let none ← constGet (Const.ofState .S0 h.yWidth)
    let mask ← constGet
      (Const.ofState .S0 h.aWidth ++ Const.ofState .S1 (h.yWidth - h.aWidth))
    emit (.MUX extension aSign none mask)
    let padded ← temp h.yWidth
    emit (.PADZERO padded h.aName h.yWidth)
    pure (.alu .OR h.yName padded extension)
  else if h.yWidth < h.aWidth then pure (.SLICE h.yName h.aName 0 h.yWidth)
  else pure (.MOV h.yName h.aName)

/-- Negation sign extends its operand whatever `A_SIGNED` says. -/
def selectNeg : Emit Instr := do
  let yWidth ← getWidth cell .Y_WIDTH
  let aWidth ← getWidth cell .A_WIDTH
  guard (aWidth ≤ yWidth)
  let a ← getPort cell .A
  let aName ← sextConvert a yWidth
  let yName ← convertPort cell .Y
  let bitsFlipped ← temp yWidth
  let ones ← constGet (Const.ofState .S1 yWidth)
  emit (.alu .XOR bitsFlipped aName ones)
  let one ← constGet (Const.ofInt 1 yWidth)
  pure (.alu .ADD yName bitsFlipped one)

def selectReduceAnd : Emit Instr := do
  let h ← unaryHeader cell
  let allOnes ← constGet (Const.ofState .S1 h.aWidth)
  boolResult h.yName h.yWidth (fun rd => pure (.alu .SEQ rd h.aName allOnes))

def selectReduceOr : Emit Instr := do
  let h ← unaryHeader cell
  let b0 ← temp 1
  let zeros ← constGet (Const.ofState .S0 h.aWidth)
  emit (.alu .SEQ b0 h.aName zeros)
  let constTrue ← constGet (Const.ofState .S1 1)
  boolResult h.yName h.yWidth (fun rd => pure (.alu .XOR rd b0 constTrue))

/-- The parity loop over `left` further bits from bit `i`. -/
def xorLoop (aName : Name) : (i left : Nat) → (prevres : Name) → Emit Name
  | _, 0, prevres => pure prevres
  | i, left + 1, prevres => do
    let thisbit ← temp 1
    emit (.SLICE thisbit aName i 1)
    let thisres ← temp 1
    emit (.alu .XOR thisres prevres thisbit)
    xorLoop aName (i + 1) left thisres

def selectReduceXor : Emit Instr := do
  let h ← unaryHeader cell
  let prevres ← temp 1
  emit (.SLICE prevres h.aName 0 1)
  let parity ← xorLoop h.aName 1 (h.aWidth - 1) prevres
  pure (bitResult h.yName h.yWidth parity)

/-- The loop that inverts after every bit. -/
def xnorLoop (aName constTrue : Name) : (i left : Nat) → (prevres : Name) → Emit Name
  | _, 0, prevres => pure prevres
  | i, left + 1, prevres => do
    let thisbit ← temp 1
    emit (.SLICE thisbit aName i 1)
    let tmp ← temp 1
    emit (.alu .XOR tmp thisbit prevres)
    let thisres ← temp 1
    emit (.alu .XOR thisres tmp constTrue)
    xnorLoop aName constTrue (i + 1) left thisres

/-- The starting polarity depends on the operand width being odd. -/
def xnorStart (h : UnaryHeader) (prevres constTrue : Name) : Emit Unit :=
  if h.aWidth % 2 = 1 then do
    let prevbit ← temp 1
    emit (.SLICE prevbit h.aName 0 1)
    emit (.alu .XOR prevres prevbit constTrue)
  else emit (.SLICE prevres h.aName 0 1)

def selectReduceXnor : Emit Instr := do
  let h ← unaryHeader cell
  let prevres ← temp 1
  let constTrue ← constGet (Const.ofState .S1 1)
  xnorStart h prevres constTrue
  let parity ← xnorLoop h.aName constTrue 1 (h.aWidth - 1) prevres
  pure (bitResult h.yName h.yWidth parity)

def selectLogicNot : Emit Instr := do
  let h ← unaryHeader cell
  boolResult h.yName h.yWidth (fun rd => do
    let zeros ← constGet (Const.ofState .S0 h.aWidth)
    pure (.alu .SEQ rd h.aName zeros))

/-- `$and`, `$or`, `$xor`, `$add`, `$sub` and `$mul` differ in the instruction only. -/
def selectBinary (op : AluOp) (cell : Cell) : Emit Instr := do
  let operands ← convertBinaryOperands cell
  let yName ← convertPort cell .Y
  pure (.alu op yName operands.1 operands.2)

def selectXnor : Emit Instr := do
  let operands ← convertBinaryOperands cell
  let yWidth ← getWidth cell .Y_WIDTH
  let tmp ← temp yWidth
  emit (.alu .XOR tmp operands.1 operands.2)
  let yName ← convertPort cell .Y
  let ones ← constGet (Const.ofState .S1 yWidth)
  pure (.alu .XOR yName tmp ones)

def selectEq : Emit Instr := do
  let yWidth ← getWidth cell .Y_WIDTH
  let yName ← convertPort cell .Y
  boolResult yName yWidth (mkSeq cell)

def selectNe : Emit Instr := do
  let yWidth ← getWidth cell .Y_WIDTH
  let yName ← convertPort cell .Y
  let seqRes ← temp 1
  let seq ← mkSeq cell seqRes
  emit seq
  let constTrue ← constGet (Const.ofState .S1 1)
  boolResult yName yWidth (fun rd => pure (.alu .XOR rd seqRes constTrue))

def selectStrict (less : Bool) : Emit Instr := do
  let yName ← convertPort cell .Y
  let yWidth ← getWidth cell .Y_WIDTH
  boolResult yName yWidth (fun rd => mkCompare cell rd less)

/-- `$le` and `$ge`: the disjunction of equality and the strict comparison. -/
def selectWeak (less : Bool) : Emit Instr := do
  let yName ← convertPort cell .Y
  let yWidth ← getWidth cell .Y_WIDTH
  let equal ← temp 1
  let comp ← temp 1
  let seq ← mkSeq cell equal
  emit seq
  let slt ← mkCompare cell comp less
  emit slt
  boolResult yName yWidth (fun rd => pure (.alu .OR rd comp equal))

def selectLogic (op : AluOp) (cell : Cell) : Emit Instr := do
  let aZero ← temp 1
  let bZero ← temp 1
  let aNonzero ← temp 1
  let bNonzero ← temp 1
  let aName ← convertPort cell .A
  let bName ← convertPort cell .B
  let aWidth ← getWidth cell .A_WIDTH
  let bWidth ← getWidth cell .B_WIDTH
  let aZeros ← constGet (Const.ofState .S0 aWidth)
  emit (.alu .SEQ aZero aName aZeros)
  let bZeros ← constGet (Const.ofState .S0 bWidth)
  emit (.alu .SEQ bZero bName bZeros)
  let constTrue ← constGet (Const.ofState .S1 1)
  emit (.alu .XOR aNonzero aZero constTrue)
  emit (.alu .XOR bNonzero bZero constTrue)
  let yWidth ← getWidth cell .Y_WIDTH
  let yName ← convertPort cell .Y
  boolResult yName yWidth (fun rd => pure (.alu op rd aNonzero bNonzero))

def selectMux : Emit Instr := do
  let aName ← convertPort cell .A
  let bName ← convertPort cell .B
  let yName ← convertPort cell .Y
  let sName ← convertPort cell .S
  pure (.MUX yName sName aName bName)

/-- The case loop of `$pmux`: `data` are the bits of the cases not yet converted. -/
def convertCases (width : Nat) : SigSpec → SigSpec → Emit (List (Name × Name))
  | _, [] => pure []
  | data, cond :: conds => do
    guard (width ≤ data.length)
    let choice ← convertSig (data.take width)
    let condName ← convertSig [cond]
    let rest ← convertCases width (data.drop width) conds
    pure ((condName, choice) :: rest)

def selectPmux : Emit Instr := do
  let aName ← convertPort cell .A
  let width ← getWidth cell .WIDTH
  let numCases ← getWidth cell .S_WIDTH
  let dataBits ← getPort cell .B
  let condBits ← getPort cell .S
  guard (numCases ≤ condBits.length)
  let cases ← convertCases width dataBits (condBits.take numCases)
  let yName ← convertPort cell .Y
  pure (.PARMUX yName cases aName)

/-- `$shl` and `$sshl`, and `$shr`: the operand is extended to the wider of `A` and `Y`. -/
def selectShift (op : AluOp) (cell : Cell) : Emit Instr := do
  let bSigned ← getBool cell .B_SIGNED
  guard (bSigned = false)
  let aSigned ← getBool cell .A_SIGNED
  let aWidth ← getWidth cell .A_WIDTH
  let yWidth ← getWidth cell .Y_WIDTH
  let w := max aWidth yWidth
  let yName ← convertPort cell .Y
  let aName ← extendPort cell .A w aSigned
  let bName ← convertPort cell .B
  pure (.alu op yName aName bName)

def selectSshr : Emit Instr := do
  let bSigned ← getBool cell .B_SIGNED
  guard (bSigned = false)
  let aSigned ← getBool cell .A_SIGNED
  let aWidth ← getWidth cell .A_WIDTH
  let yWidth ← getWidth cell .Y_WIDTH
  let yName ← convertPort cell .Y
  let w := max aWidth yWidth
  if aSigned then
    if yWidth < w then do
      let widened ← temp w
      let aName ← convertPort cell .A
      let bName ← convertPort cell .B
      emit (.alu .SRA widened aName bName)
      pure (.SLICE yName widened 0 yWidth)
    else do
      let aName ← extendPort cell .A w true
      let bName ← convertPort cell .B
      pure (.alu .SRA yName aName bName)
  else do
    let aName ← extendPort cell .A w false
    let bName ← convertPort cell .B
    pure (.alu .SRL yName aName bName)

/-- The instruction that writes `Y`, once everything it reads has been emitted. The types that
end in `log_error`, or that write no `Y`, have none. -/
def selectCell : Emit Instr :=
  match cell.type with
  | .not => selectNot cell
  | .pos => selectPos cell
  | .neg => selectNeg cell
  | .reduceAnd => selectReduceAnd cell
  | .reduceOr | .reduceBool => selectReduceOr cell
  | .reduceXor => selectReduceXor cell
  | .reduceXnor => selectReduceXnor cell
  | .logicNot => selectLogicNot cell
  | .and => selectBinary .AND cell
  | .or => selectBinary .OR cell
  | .xor => selectBinary .XOR cell
  | .xnor => selectXnor cell
  | .add => selectBinary .ADD cell
  | .sub => selectBinary .SUB cell
  | .mul => selectBinary .MUL cell
  | .eq => selectEq cell
  | .ne => selectNe cell
  | .lt => selectStrict cell true
  | .gt => selectStrict cell false
  | .le => selectWeak cell true
  | .ge => selectWeak cell false
  | .logicAnd => selectLogic .AND cell
  | .logicOr => selectLogic .OR cell
  | .mux => selectMux cell
  | .pmux => selectPmux cell
  | .sshl | .shl => selectShift .SLL cell
  | .shr => selectShift .SRL cell
  | .sshr => selectSshr cell
  | _ => failure

/-- The printed initial value: the attribute goes before the parameter. -/
def registerInit : Option Const :=
  match cell.attributes.lookup .INIT with
  | some value => some (definedBits value)
  | none => (cell.getParam .INIT_VALUE).map definedBits

/-- `tryCreateState` with `getCurrent` and `getNext`: the current and next names of a register. -/
def getState : Emit (Name × Name) := do
  let st ← get
  match st.states.lookup cell with
  | some names => pure names
  | none =>
    let width ← getWidth cell .WIDTH
    let rName ← next .r
    let qName ← next .i
    let dName ← next .o
    modify (fun st => { st with
      regs := st.regs ++ [⟨rName, width, qName, registerInit cell, dName⟩]
      states := st.states ++ [(cell, qName, dName)] })
    pure (qName, dName)

def convertDff : Emit Unit := do
  let (current, nextState) ← getState cell
  let q ← convertPort cell .Q
  emit (.MOV q current)
  let d ← convertPort cell .D
  emit (.MOV nextState d)

/-- The byte of up to eight bits, the first of them the least significant. -/
def byteOf (bits : Const) : Nat :=
  bits.zipIdx.foldl (fun ch e => if e.1 = .S1 then ch + 2 ^ e.2 else ch) 0

/-- `Const::decode_string`: the characters are stored from the last one on, zero bytes skipped. -/
def decodeString (c : Const) : IdString :=
  let bytes := (List.range ((c.length + 7) / 8)).map (fun k => byteOf ((c.drop (8 * k)).take 8))
  String.ofList ((bytes.filter (· ≠ 0)).map Char.ofNat).reverse

def pushBack (entries : List (IdString × List Cell)) (key : IdString) (cell : Cell) :
    List (IdString × List Cell) :=
  if entries.any (·.1 == key) then
    entries.map (fun e => if e.1 = key then (e.1, e.2 ++ [cell]) else e)
  else entries ++ [(key, [cell])]

/-- Convert one cell into instructions. Memory ports and system calls are only collected. -/
def convertCell : Emit Unit :=
  match cell.type with
  | .memwrV2 => do
    let memid ← getParam cell .MEMID
    modify (fun st => { st with memoryWrites := pushBack st.memoryWrites (decodeString memid) cell })
  | .memrdV2 => do
    let memid ← getParam cell .MEMID
    modify (fun st => { st with memoryReads := pushBack st.memoryReads (decodeString memid) cell })
  | .dff => convertDff cell
  | .manticore => modify (fun st => { st with syscalls := st.syscalls ++ [cell] })
  | _ => do
    let last ← selectCell cell
    emit last

def convertCells : List Cell → Emit Unit
  | [] => pure ()
  | cell :: cells => do
    convertCell cell
    convertCells cells

end ManticoreFrontend.Writer.Cells
