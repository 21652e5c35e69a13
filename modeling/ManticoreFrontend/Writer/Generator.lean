/- source: passes/manticore/manticore_writer.cc (WireBuilder, ConstBuilder,
     ManticoreAssemblyWorker::convert of chunks and signals, padConvert, sextConvert)
   digest: The generator state, its naming and emission primitives, and the conversion of signals. -/

import ManticoreFrontend.Foundation.Emission
import ManticoreFrontend.Writer.Assembly

namespace ManticoreFrontend.Writer.Generator

open Foundation.Emission Kernel Constants CellTypes Signals Assembly

/-- A `.reg` declaration: current and next names with the width and the printed initial value. -/
structure RegDef where
  reg : Name
  width : Nat
  input : Name
  init : Option Const
  output : Name
  deriving DecidableEq

/-- The state of `ManticoreAssemblyWorker` with its two builders. Comments, debug symbols and
source attributes of the printed text are left out. -/
structure Worker where
  wireIndex : Nat := 0
  wireDefs : List (Name × Nat) := []
  wires : List (Wire × Name) := []
  states : List (Cell × Name × Name) := []
  regs : List RegDef := []
  memories : List (Memory × Name) := []
  constIndex : Nat := 0
  constDefs : List (Name × Const) := []
  constants : List (Const × Name) := []
  instrs : List Instr := []
  memInstrs : List MemInstr := []
  availableSigs : List (SigSpec × Name) := []
  syscalls : List Cell := []
  memoryWrites : List (IdString × List Cell) := []
  memoryReads : List (IdString × List Cell) := []

/-- A step of the generator; failure stands for `log_assert`, `log_error` and `dict::at`. -/
abbrev Emit (α : Type) := Build Worker α

/-- `namer.next` of the wire builder; one counter serves wires, registers and memories. -/
def next (kind : NameKind) : Emit Name := fun st =>
  some (⟨kind, st.wireIndex⟩, { st with wireIndex := st.wireIndex + 1 })

def temp (width : Nat) : Emit Name := fun st =>
  let name : Name := ⟨.w, st.wireIndex⟩
  some (name, { st with
    wireIndex := st.wireIndex + 1
    wireDefs := st.wireDefs ++ [(name, width)] })

def wireGet (w : Wire) : Emit Name := fun st =>
  match st.wires.lookup w with
  | some name => some (name, st)
  | none =>
    let name : Name := ⟨.w, st.wireIndex⟩
    some (name, { st with
      wireIndex := st.wireIndex + 1
      wireDefs := st.wireDefs ++ [(name, w.width)]
      wires := st.wires ++ [(w, name)] })

/-- Undefined bits of a printed constant or initial value are printed as zero. -/
def definedBits (c : Const) : Const := c.map (fun b => if b.isDef then b else .S0)

def constGet (value : Const) : Emit Name := fun st =>
  match st.constants.lookup value with
  | some name => some (name, st)
  | none =>
    let name : Name := ⟨.c, st.constIndex⟩
    some (name, { st with
      constIndex := st.constIndex + 1
      constDefs := st.constDefs ++ [(name, definedBits value)]
      constants := st.constants ++ [(value, name)] })

def emit (i : Instr) : Emit Unit := fun st =>
  some ((), { st with instrs := st.instrs ++ [i] })

variable (sig : SigSpec)

/-- `available_sigs.emplace`, which keeps an earlier entry. -/
def available (name : Name) : Emit Unit := fun st =>
  match st.availableSigs.lookup sig with
  | some _ => some ((), st)
  | none => some ((), { st with availableSigs := st.availableSigs ++ [(sig, name)] })

def findAvailable : Emit (Option Name) := fun st =>
  some (st.availableSigs.lookup sig, st)

/-- The name of a chunk; a proper part of a wire takes a `SLICE`. -/
def convertChunk (chunk : SigChunk) : Emit Name := do
  match ← findAvailable chunk.bits with
  | some name => pure name
  | none =>
    match chunk with
    | .wire w offset width _ =>
      if w.width = width then do
        let n ← wireGet w
        available chunk.bits n
        pure n
      else do
        let chunkName ← temp width
        let wireName ← wireGet w
        emit (.SLICE chunkName wireName offset width)
        available chunk.bits chunkName
        pure chunkName
    | .data bits => constGet bits

/-- The concatenation loop: `sig` is the signal concatenated so far, under the name `prevRes`. -/
def concatChunks : List SigChunk → SigSpec → Name → Emit Name
  | [], _, prevRes => pure prevRes
  | chunk :: rest, sig, prevRes => do
    let concatSig := sig ++ chunk.bits
    let concatWidth := concatSig.length
    let op1 ← temp concatWidth
    let op2 ← temp concatWidth
    emit (.PADZERO op1 prevRes concatWidth)
    let part ← convertChunk chunk
    emit (.PADZERO op2 part concatWidth)
    let shifted ← temp concatWidth
    let pos ← constGet (Const.ofInt sig.length 32)
    emit (.alu .SLL shifted op2 pos)
    let thisRes ← temp concatWidth
    emit (.alu .OR thisRes shifted op1)
    available concatSig thisRes
    concatChunks rest concatSig thisRes

def convertSig : Emit Name := do
  match ← findAvailable sig with
  | some name => pure name
  | none =>
    match SigSpec.asWire? sig with
    | some w => wireGet w
    | none =>
      match SigSpec.chunks sig with
      | [] => failure
      | front :: rest => do
        let prevRes ← convertChunk front
        concatChunks rest front.bits prevRes

def padConvert (width : Nat) : Emit Name := do
  guard (sig.length ≤ width)
  if sig.length < width then do
    let padded ← temp width
    let name ← convertSig sig
    emit (.PADZERO padded name width)
    pure padded
  else convertSig sig

/-- Sign extension: the sign bit selects between an empty mask and the mask of the new bits. -/
def sextConvert (width : Nat) : Emit Name := do
  guard (sig.length ≤ width)
  if sig.length < width then do
    let sign ← temp 1
    let orig ← convertSig sig
    let amount ← constGet (Const.ofInt ((sig.length : Int) - 1) 32)
    emit (.alu .SRL sign orig amount)
    let resolvedMask ← temp width
    let posMask ← constGet (Const.ofState .S0 width)
    let negMask ← constGet
      (Const.ofState .S0 sig.length ++ Const.ofState .S1 (width - sig.length))
    emit (.MUX resolvedMask sign posMask negMask)
    let sextended ← temp width
    let zextended ← temp width
    emit (.PADZERO zextended orig width)
    emit (.alu .OR sextended zextended resolvedMask)
    pure sextended
  else convertSig sig

def extendOrSlice (width : Nat) (isSigned : Bool) : Emit Name :=
  if sig.length ≤ width ∧ isSigned then sextConvert sig width
  else if sig.length ≤ width ∧ isSigned = false then padConvert sig width
  else convertSig (SigSpec.extract sig 0 width)

theorem temp_total (width : Nat) : Total (temp width) := fun _ => ⟨_, _, rfl⟩

theorem wireGet_total (w : Wire) : Total (wireGet w) := by
  intro st
  unfold wireGet
  split <;> exact ⟨_, _, rfl⟩

theorem constGet_total (c : Const) : Total (constGet c) := by
  intro st
  unfold constGet
  split <;> exact ⟨_, _, rfl⟩

theorem emit_total (i : Instr) : Total (emit i) := fun _ => ⟨_, _, rfl⟩

theorem available_total (n : Name) : Total (available sig n) := by
  intro st
  unfold available
  split <;> exact ⟨_, _, rfl⟩

theorem findAvailable_total : Total (findAvailable sig) := fun _ => ⟨_, _, rfl⟩

theorem convertChunk_total (chunk : SigChunk) : Total (convertChunk chunk) := by
  refine (findAvailable_total _).bind fun found => ?_
  cases found with
  | some name => exact Total.ret name
  | none =>
    cases chunk with
    | data bits => exact constGet_total bits
    | wire w offset width fits =>
      refine Total.ite (fun _ => ?_) fun _ => ?_
      · exact (wireGet_total w).bind (fun n => (available_total _ n).bind fun _ => Total.ret n)
      · refine (temp_total width).bind (fun part => (wireGet_total w).bind (fun n => ?_))
        exact (emit_total _).bind (fun _ => (available_total _ _).bind fun _ => Total.ret part)

theorem concatChunks_total (rest : List SigChunk) :
    ∀ sig prevRes, Total (concatChunks rest sig prevRes) := by
  induction rest with
  | nil => exact fun _ prevRes => Total.ret prevRes
  | cons chunk rest ih =>
    intro sig prevRes
    refine (temp_total _).bind (fun op1 => (temp_total _).bind (fun op2 => ?_))
    refine (emit_total _).bind (fun _ => (convertChunk_total chunk).bind (fun part => ?_))
    refine (emit_total _).bind (fun _ => (temp_total _).bind (fun shifted => ?_))
    refine (constGet_total _).bind (fun pos => (emit_total _).bind (fun _ => ?_))
    refine (temp_total _).bind (fun thisRes => (emit_total _).bind (fun _ => ?_))
    exact (available_total _ _).bind fun _ => ih _ _

variable {sig : SigSpec}

theorem convertSig_total (nonempty : sig ≠ []) : Total (convertSig sig) := by
  refine (findAvailable_total _).bind fun found => ?_
  cases found with
  | some name => exact Total.ret name
  | none =>
    cases wire : SigSpec.asWire? sig with
    | some w => simpa only [wire] using wireGet_total w
    | none =>
      cases chunks : SigSpec.chunks sig with
      | nil => exact absurd chunks (chunks_ne_nil nonempty)
      | cons front rest =>
        exact (convertChunk_total front).bind fun n => concatChunks_total rest _ n

theorem padConvert_total {width : Nat} (nonempty : sig ≠ [])
    (le : sig.length ≤ width) : Total (padConvert sig width) := by
  refine (Total.assert le).bind (fun _ => Total.ite (fun _ => ?_) (fun _ => convertSig_total nonempty))
  refine (temp_total width).bind (fun padded => (convertSig_total nonempty).bind (fun n => ?_))
  exact (emit_total _).bind fun _ => Total.ret padded

theorem sextConvert_total {width : Nat} (nonempty : sig ≠ [])
    (le : sig.length ≤ width) : Total (sextConvert sig width) := by
  refine (Total.assert le).bind (fun _ => Total.ite (fun _ => ?_) (fun _ => convertSig_total nonempty))
  refine (temp_total 1).bind (fun sign => (convertSig_total nonempty).bind (fun orig => ?_))
  refine (constGet_total _).bind (fun amount => (emit_total _).bind (fun _ => ?_))
  refine (temp_total width).bind (fun resolvedMask => (constGet_total _).bind (fun posMask => ?_))
  refine (constGet_total _).bind (fun negMask => (emit_total _).bind (fun _ => ?_))
  refine (temp_total width).bind (fun sextended => (temp_total width).bind (fun zextended => ?_))
  exact (emit_total _).bind (fun _ => (emit_total _).bind fun _ => Total.ret sextended)

end ManticoreFrontend.Writer.Generator
