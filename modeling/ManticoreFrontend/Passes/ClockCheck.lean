/- source: passes/manticore/manticore_clock.cc (checkClock), passes/manticore/manticore_check.cc
   digest: The search for a clock through the module hierarchy, and the checks on the top module. -/

import ManticoreFrontend.Kernel.Netlist

namespace ManticoreFrontend.Passes.ClockCheck

open Kernel CellTypes Signals SigTools Netlist

/-- A design lists its modules; user modules have types that are plain identifiers. -/
structure Design where
  modules : List Module

def Design.module (design : Design) : CellType → Option Module
  | .other id => design.modules.find? (·.name = id)
  | _ => none

/-- A clock that was found. Wires are compared as pointers, so the wire stands with the name of
the module it belongs to. -/
structure Clock where
  owner : IdString
  clk : Wire
  polarity : Bool
  deriving DecidableEq

/-- The reasons to stop, with the names that the messages show. -/
inductive ClockError
  | foundClockDiffers (found used cell mod : IdString)
  | conflictingClock (mod cell clk : IdString)
  | differentClock (mod cell clk : IdString)
  | strandedClock (mod cell clk : IdString)
  | assertionFailed
  | hierarchyTooDeep
  | noClock
  | topHasOutput
  | topInputNotClock
  | topHasSeveralInputs
  | topInputTooWide
  | topWithoutInput
  deriving DecidableEq, Repr

abbrev Check := Except ClockError

def orAbort {α : Type} : Option α → Check α
  | some a => .ok a
  | none => .error .assertionFailed

def sigmap (mod : Module) (sig : SigSpec) : SigSpec := sig.map (apply (set mod.connections))

def isClockedCell (cell : Cell) : Bool :=
  cell.type ∈ [CellType.dff, .memwrV2] ++ ["$dffe", "$sdff", "$sdffe", "$sdffce", "$adff",
    "$adffe", "$dffsr", "$dffsre", "$dffs", "$dlatch", "$adlatch", "$dlatchsr", "$aldff",
    "$aldffe"].map CellType.other

def cellClock (mod : Module) (cell : Cell) : Check Clock := do
  let s ← orAbort (cell.getPort .CLK)
  let p ← orAbort (cell.getParam .CLK_POLARITY)
  let w ← orAbort (SigSpec.asWire? (sigmap mod s))
  return ⟨mod.name, w, p.asBool⟩

def portId (name : IdString) : PortId :=
  (([("\\A", .A), ("\\B", .B), ("\\Y", .Y), ("\\S", .S), ("\\D", .D), ("\\Q", .Q), ("\\EN", .EN),
    ("\\ADDR", .ADDR), ("\\DATA", .DATA), ("\\CLK", .CLK), ("\\ARST", .ARST),
    ("\\SRST", .SRST)] : List (IdString × PortId)).lookup name).getD (.other name)

/-- The checks on the clock `other` that an instance returned while `found` was already known. -/
def compareClocks (mod : Module) (cell : Cell) (found other : Clock) : Check Unit :=
  if other.clk.portOutput then
    throw (.conflictingClock mod.name cell.name other.clk.name)
  else if other.clk.portInput then do
    let sig ← orAbort (cell.getPort (portId other.clk.name))
    let w ← orAbort (SigSpec.asWire? sig)
    if (mod.name, w) ≠ (found.owner, found.clk) then
      throw (.differentClock mod.name cell.name other.clk.name)
  else throw (.strandedClock mod.name cell.name other.clk.name)

/-- The body of the loop over the cells; `check` is the recursive call. -/
def checkCell (design : Design) (check : Module → Option Clock → Check (Option Clock)) (mod : Module)
    (found : Option Clock) (cell : Cell) : Check (Option Clock) :=
  if isClockedCell cell then do
    let used ← cellClock mod cell
    match found with
    | none => return some used
    | some clock =>
      if clock ≠ used then
        throw (.foundClockDiffers clock.clk.name used.clk.name cell.name mod.name)
      return found
  else
    match design.module cell.type with
    | none => return found
    | some other => do
      let otherFound ← check other found
      match found, otherFound with
      | none, _ => return otherFound
      | some clock, some otherClock => do
        compareClocks mod cell clock otherClock
        return found
      | some _, none => return found

/-- The assumed clock in terms of the alias map. Wires of other modules are not in the map. -/
def assumedClock (mod : Module) : Option Clock → Check (Option Clock)
  | none => .ok none
  | some assumed =>
    if assumed.owner = mod.name then do
      let w ← orAbort (SigSpec.asWire? (sigmap mod (SigSpec.ofWire assumed.clk)))
      return some ⟨mod.name, w, assumed.polarity⟩
    else .ok (some assumed)

/-- `checkClock`; `fuel` bounds the depth of the hierarchy. -/
def checkClock (design : Design) : Nat → Module → Option Clock → Check (Option Clock)
  | 0, _, _ => throw .hierarchyTooDeep
  | fuel + 1, mod, assumed => do
    let start ← assumedClock mod assumed
    mod.cells.foldlM (checkCell design (checkClock design fuel) mod) start

/-- The loop over the wires of the top module, with the flag `has_input`. -/
def checkWire (top : Module) (found : Clock) (hasInput : Bool) (w : Wire) : Check Bool :=
  if w.portOutput then throw .topHasOutput
  else if w.portInput then
    if hasInput then throw .topHasSeveralInputs
    else if w.width = 1 then
      if found.owner ≠ top.name ∨
          sigmap top (SigSpec.ofWire found.clk) ≠ sigmap top (SigSpec.ofWire w) then
        throw .topInputNotClock
      else return true
    else throw .topInputTooWide
  else return hasInput

/-- `ManticoreCheck::execute` on a design with a top module. A wire that the check returned from
another module is not in the alias map of the top module. -/
def execute (design : Design) (fuel : Nat) (top : Module) : Check Clock := do
  let found ← checkClock design fuel top none
  match found with
  | none => throw .noClock
  | some clock =>
    let hasInput ← top.wires.foldlM (checkWire top clock) false
    if hasInput then return clock else throw .topWithoutInput

end ManticoreFrontend.Passes.ClockCheck
