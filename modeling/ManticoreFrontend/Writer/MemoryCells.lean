/- source: passes/manticore/manticore_writer.cc (bitLength, WireBuilder::getMemory,
     ManticoreAssemblyWorker::convertMemoryCell)
   digest: The loads and stores emitted for the ports of one memory. -/

import ManticoreFrontend.Kernel.Netlist
import ManticoreFrontend.Passes.Repeats
import ManticoreFrontend.Writer.Cells
import Mathlib.Data.List.Sort

namespace ManticoreFrontend.Writer.MemoryCells

open Kernel Constants CellTypes Signals SigTools Netlist Passes.Repeats Assembly Generator Cells

/-- The loop of `bitLength`; an `unsigned int` has 32 bits, so 32 rounds are enough. -/
def bitLengthLoop : (fuel v len : Nat) → Nat
  | 0, _, len => len
  | fuel + 1, v, len => if v = 0 then len else bitLengthLoop fuel (v / 2) (len + 1)

def bitLength (value : Int) : Nat :=
  let v := (value % 2 ^ 32).toNat
  if v = 0 then 1 else bitLengthLoop 32 v 0

/-- The C `int` expression `1 << n`. C++ leaves the shift undefined from 32 on; that it keeps 32 bits
there is the reading of this model. -/
def oneShl (n : Nat) : Int := (BitVec.ofNat 32 (2 ^ n)).toInt

variable (mem : Memory)

def memAddrBits : Nat := bitLength ((mem.size : Int) + mem.startOffset - 1)

/-- `hasUpperBoundCheck` for a port with `sigAddrBits` address bits. -/
def hasUpperBoundCheck (sigAddrBits : Nat) : Bool :=
  decide ((mem.size : Int) ≠ oneShl (memAddrBits mem)) ||
    decide (oneShl sigAddrBits > oneShl (memAddrBits mem))

def getMemory : Emit Name := fun st =>
  match st.memories.lookup mem with
  | some name => some (name, st)
  | none =>
    let name : Name := ⟨.m, st.wireIndex⟩
    some (name, { st with
      wireIndex := st.wireIndex + 1
      memories := st.memories ++ [(mem, name)] })

/-- The address relative to the first word, modulo the width of the port's address. -/
def addrFromLowerBound (cell : Cell) : Emit Name := do
  let addr ← getPort cell .ADDR
  let cellAddr ← convertSig addr
  if mem.startOffset ≠ 0 then do
    let realAddr ← temp addr.length
    let offset ← constGet (Const.ofInt mem.startOffset addr.length)
    emit (.alu .SUB realAddr cellAddr offset)
    pure realAddr
  else pure cellAddr

def createBoundOk (realAddr : Name) (sigAddrBits : Nat) : Emit Name := do
  let maxWidth := max sigAddrBits (memAddrBits mem)
  let addrPadded ← temp (maxWidth + 1)
  let boundOk ← temp 1
  emit (.PADZERO addrPadded realAddr (maxWidth + 1))
  let size ← constGet (Const.ofInt mem.size (maxWidth + 1))
  emit (.alu .SLT boundOk addrPadded size)
  pure boundOk

def checkedPredicate (cell : Cell) (addrName : Name) (sigAddrBits : Nat)
    (predicate : Name) : Emit Name := do
  let addr ← getPort cell .ADDR
  if hasUpperBoundCheck mem addr.length then do
    let boundOk ← createBoundOk mem addrName sigAddrBits
    let checked ← temp 1
    emit (.alu .AND checked predicate boundOk)
    pure checked
  else pure predicate

variable (mem : Memory) (memName : Name) (cell : Cell) (addrName : Name) (sigAddrBits : Nat)

def storeFull (bit : SigBit) (order : Nat) : Emit (List MemInstr × Nat) := do
  let predicate ← convertSig [bit]
  let wdataName ← convertPort cell .DATA
  let checked ← checkedPredicate mem cell addrName sigAddrBits predicate
  pure ([.LST wdataName addrName checked memName order], order + 1)

/-- `createMask`: the bits of a run, or all the others. -/
def createMask (width : Nat) (p : RepeatPattern) (writeDataMask : Bool) : Const :=
  (List.range width).map (fun i =>
    if p.offset ≤ i ∧ i < p.offset + p.width then State.ofBool writeDataMask
    else State.ofBool (!writeDataMask))

/-- The store of one run of a partial write enable. -/
def storePart
    (originalValue writeWord : Name) (p : RepeatPattern) (order : Nat) : Emit MemInstr := do
  let wdata ← temp mem.width
  let rdata ← temp mem.width
  let storeMask ← constGet (createMask mem.width p true)
  emit (.alu .AND wdata writeWord storeMask)
  let loadMask ← constGet (createMask mem.width p false)
  emit (.alu .AND rdata originalValue loadMask)
  let combinedWord ← temp mem.width
  emit (.alu .OR combinedWord wdata rdata)
  let pred ← convertSig [p.bit]
  let checked ← checkedPredicate mem cell addrName sigAddrBits pred
  pure (.LST combinedWord addrName checked memName order)

/-- Runs of constant zero or undefined enable bits store nothing. -/
def stores (p : RepeatPattern) : Bool := p.bit.isWire || p.bit == .const .S1

def storeParts (mem : Memory) (memName : Name) (cell : Cell) (addrName : Name) (sigAddrBits : Nat)
    (originalValue writeWord : Name) : List RepeatPattern → Nat → Emit (List MemInstr × Nat)
  | [], order => pure ([], order)
  | p :: pattern, order =>
    if stores p then do
      let store ← storePart mem memName cell addrName sigAddrBits originalValue writeWord p order
      let rest ← storeParts mem memName cell addrName sigAddrBits originalValue writeWord pattern
        (order + 1)
      pure (store :: rest.1, rest.2)
    else storeParts mem memName cell addrName sigAddrBits originalValue writeWord pattern order

def storeStrobed (pattern : List RepeatPattern) (order : Nat) :
    Emit (List MemInstr × Nat) := do
  let originalValue ← temp mem.width
  let writeWord ← convertPort cell .DATA
  let parts ← storeParts mem memName cell addrName sigAddrBits originalValue writeWord pattern
    (order + 1)
  pure (.LLD originalValue addrName memName order :: parts.1, parts.2)

/-- The instructions of one write port, from the order number `order` on. -/
def convertWrite (sigmap : SigMap) (mem : Memory) (memName : Name) (cell : Cell) (order : Nat) :
    Emit (List MemInstr × Nat) := do
  let clocked ← getBool cell .CLK_ENABLE
  guard (clocked = true)
  let width ← getParam cell .WIDTH
  guard (width.asInt = mem.width)
  let sigAddrBits ← getWidth cell .ABITS
  let enSig ← getPort cell .EN
  let pattern ← liftM (getRepeats enSig sigmap)
  let addrName ← addrFromLowerBound mem cell
  match pattern with
  | [p] => storeFull mem memName cell addrName sigAddrBits p.bit order
  | pattern =>
    if enSig.isFullyOnes then failure
    else storeStrobed mem memName cell addrName sigAddrBits pattern order

/-- The loop over the sorted write ports. It gives the instructions of each port, and records the
order number after each port. -/
def convertWrites (sigmap : SigMap) (mem : Memory) (memName : Name) :
    List Cell → Nat → List Nat → Emit (List (List MemInstr) × List Nat)
  | [], _, writePortOrder => pure ([], writePortOrder)
  | cell :: cells, order, writePortOrder => do
    let port ← convertWrite sigmap mem memName cell order
    let portId ← getParam cell .PORTID
    guard ((writePortOrder.length : Int) = portId.asInt)
    let rest ← convertWrites sigmap mem memName cells port.2 (writePortOrder ++ [port.2])
    pure (port.1 :: rest.1, rest.2)

/-- The registers of a read port with an asynchronous reset. The data is reset at once, and the
reset goes before the enable. -/
def convertAsyncReset (cell : Cell) (dataName current nextState : Name) (arst en : SigSpec)
    (hasDynEn : Bool) (portWidth : Nat) : Emit Name := do
  let loadedValue ← temp portWidth
  let arstName ← convertSig arst
  let arstValue ← getParam cell .ARST_VALUE
  let value ← constGet arstValue
  emit (.MUX dataName arstName current value)
  if hasDynEn then do
    let loadedEn ← temp portWidth
    let enName ← convertSig en
    emit (.MUX loadedEn enName current loadedValue)
    let arstName ← convertSig arst
    let value ← constGet arstValue
    emit (.MUX nextState arstName loadedEn value)
  else do
    let arstName ← convertSig arst
    let value ← constGet arstValue
    emit (.MUX nextState arstName loadedValue value)
  pure loadedValue

/-- The registers of a read port with a synchronous reset, which the enable may override. -/
def convertSyncReset (cell : Cell) (dataName current nextState : Name) (srst en : SigSpec)
    (hasDynEn : Bool) (portWidth : Nat) : Emit Name := do
  emit (.MOV dataName current)
  let loadedValue ← temp portWidth
  let ceParam ← getParam cell .CE_OVER_SRST
  let srstName ← convertSig srst
  let srstParam ← getParam cell .SRST_VALUE
  let srstValue ← constGet srstParam
  if hasDynEn ∧ ceParam.asBool then do
    let loadedRst ← temp portWidth
    emit (.MUX loadedRst srstName loadedValue srstValue)
    let enName ← convertSig en
    emit (.MUX nextState enName current loadedRst)
  else if hasDynEn then do
    let loadedEn ← temp portWidth
    let enName ← convertSig en
    emit (.MUX loadedEn enName current loadedValue)
    emit (.MUX nextState srstName loadedEn srstValue)
  else emit (.MUX nextState srstName loadedValue srstValue)
  pure loadedValue

/-- `convertReadData`: the name that the load of a read port writes. An unclocked port has no
register and loads its data directly. -/
def convertReadData (cell : Cell) : Emit Name := do
  let clocked ← getBool cell .CLK_ENABLE
  let dataName ← convertPort cell .DATA
  let arst ← getPort cell .ARST
  let srst ← getPort cell .SRST
  let en ← getPort cell .EN
  if clocked then do
    let (current, nextState) ← getState cell
    let hasArst := !SigSpec.isFullyZero arst
    let hasRst := !SigSpec.isFullyZero srst
    let hasDynEn := !SigSpec.isFullyOnes en
    guard (¬ (hasArst ∧ hasRst))
    let portWidth ← getWidth cell .WIDTH
    if hasArst then
      convertAsyncReset cell dataName current nextState arst en hasDynEn portWidth
    else if hasRst then
      convertSyncReset cell dataName current nextState srst en hasDynEn portWidth
    else if hasDynEn then do
      emit (.MOV dataName current)
      let loadedValue ← temp portWidth
      let enName ← convertSig en
      emit (.MUX nextState enName current loadedValue)
      pure loadedValue
    else do
      emit (.MOV dataName current)
      pure nextState
  else do
    guard (SigSpec.isFullyOnes en)
    guard (SigSpec.isFullyZero srst)
    guard (SigSpec.isFullyZero arst)
    pure dataName

/-- The largest recorded order number of the transparent ports. A mask bit without a write port
reads past the end of the vector. -/
def transparentOrder (writePortOrder : List Nat) : Const → (portIx order : Nat) → Option Nat
  | [], _, order => some order
  | b :: mask, portIx, order =>
    if b = .S1 then
      match writePortOrder[portIx]? with
      | some after => transparentOrder writePortOrder mask (portIx + 1) (max order after)
      | none => none
    else transparentOrder writePortOrder mask (portIx + 1) order

def convertRead (mem : Memory) (memName : Name) (writePortOrder : List Nat) (cell : Cell) :
    Emit MemInstr := do
  let mask ← getParam cell .TRANSPARENCY_MASK
  let order ← liftM (transparentOrder writePortOrder mask 0 0)
  let collision ← getParam cell .COLLISION_X_MASK
  guard (0 < order → mask.isFullyZero = false ∧ collision.isFullyZero = true)
  let width ← getParam cell .WIDTH
  guard (width.asInt = mem.width)
  let sigAddrBits ← getWidth cell .ABITS
  let addrName ← addrFromLowerBound mem cell
  let rdataName ← convertReadData cell
  let addr ← getPort cell .ADDR
  if hasUpperBoundCheck mem addr.length = false then pure (.LLD rdataName addrName memName order)
  else do
    let rdWidth ← getWidth cell .WIDTH
    let rawName ← temp rdWidth
    let boundOk ← createBoundOk mem addrName sigAddrBits
    let zero ← constGet (Const.ofInt 0 rdWidth)
    emit (.MUX rdataName boundOk zero rawName)
    pure (.LLD rawName addrName memName order)

def convertReads (mem : Memory) (memName : Name) (writePortOrder : List Nat) :
    List Cell → Emit (List MemInstr)
  | [] => pure []
  | cell :: cells => do
    let load ← convertRead mem memName writePortOrder cell
    let rest ← convertReads mem memName writePortOrder cells
    pure (load :: rest)

def portId (cell : Cell) : Int := ((cell.getParam .PORTID).map Const.asInt).getD 0

def writeOperations (st : Worker) (memid : IdString) : List Cell :=
  ((st.memoryWrites.lookup memid).getD []).insertionSort (fun a b => portId a ≤ portId b)

def readOperations (st : Worker) (memid : IdString) : List Cell :=
  (st.memoryReads.lookup memid).getD []

/-- `convertMemoryCell`: the loads and stores of a memory, those of the write ports first. -/
def convertMemoryCell (mod : Module) (memid : IdString) : Emit Unit := do
  let mem ← liftM (mod.memories.find? (·.name = memid))
  let memName ← getMemory mem
  let st ← get
  let writes ← convertWrites (set mod.connections) mem memName (writeOperations st memid) 1 []
  let reads ← convertReads mem memName writes.2 (readOperations st memid)
  modify (fun st => { st with memInstrs := st.memInstrs ++ (writes.1.flatten ++ reads) })

end ManticoreFrontend.Writer.MemoryCells
