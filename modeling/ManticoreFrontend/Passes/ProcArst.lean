/- source: passes/proc/proc_arst.cc
   digest: The pass that turns edge events that decide a process into level-sensitive rules. -/

import ManticoreFrontend.Kernel.Netlist
import ManticoreFrontend.Passes.ProcClean

namespace ManticoreFrontend.Passes.ProcArst

open Kernel Constants CellTypes Signals SigTools Netlist Processes ProcClean

def constBits (sig : SigSpec) : Const :=
  sig.map (fun b => match b with
    | .const data => data
    | .wire _ _ => .Sx)

/-- The operand of a comparison with a constant, and whether the comparison inverts it. -/
def comparedWith (cell : Cell) (invertedBy : Bool) : Option (SigSpec × Bool) := do
  let a ← cell.getPort .A
  let b ← cell.getPort .B
  if isFullyConst a then some (b, (constBits a).asBool == invertedBy)
  else if isFullyConst b then some (a, (constBits b).asBool == invertedBy)
  else none

/-- The cell drives the signal from one other signal: that signal, and whether it is inverted. -/
def drivenFrom (signal : SigSpec) (cell : Cell) : Option (SigSpec × Bool) :=
  if cell.getPort .Y = some signal then
    match cell.type with
    | .reduceOr | .reduceBool => (cell.getPort .A).map (·, false)
    | .logicNot | .not => (cell.getPort .A).map (·, true)
    | .eq | .eqx => comparedWith cell false
    | .ne | .nex => comparedWith cell true
    | _ => none
  else none

/-- `check_signal`: whether the one-bit signal is `ref`, possibly inverted, and its value when `ref`
has the given one. On a chain longer than the number of cells the source does not return. -/
def checkSignal (cells : List Cell) : Nat → SigSpec → SigSpec → Bool → Option Bool
  | fuel, signal, ref, polarity =>
    if signal.length ≠ 1 then none
    else if signal = ref then some polarity
    else
      match fuel with
      | 0 => none
      | fuel + 1 =>
        match cells.findSome? (drivenFrom signal) with
        | none => none
        | some (next, inverts) => checkSignal cells fuel next ref (polarity != inverts)

/-- `SigSpec::replace` for one bit: the last pair whose left side is the wire bit decides. -/
def replaceBit (pairs : List (SigBit × SigBit)) (bit value : SigBit) : SigBit :=
  pairs.foldl (fun value p => if p.1.isWire && bit == p.1 then p.2 else value) value

def takenAt (polarity : Bool) (cs : CaseRule) : Bool :=
  cs.compare.any (· == [.const (State.ofBool polarity)])

variable (test : SigSpec → Option Bool) (bit : SigBit)

/-- An action in `apply_const`: where it is unknown whether it runs, the bit is marked. -/
def applyAction (unknown : Bool) (value : SigBit) (a : Action) : SigBit :=
  replaceBit (if unknown then a.lhs.map (·, .const .Sm) else a.pairs) bit value

mutual

/-- `apply_const` for one bit of `rspec` and the bit of `rval` that holds its value. The test is
`check_signal` against the reset. -/
def applyConst (unknown : Bool) : CaseRule → SigBit → SigBit
  | ⟨_, actions, switches⟩, value =>
    applySwitches unknown switches (actions.foldl (applyAction bit unknown) value)

def applySwitches (unknown : Bool) : List SwitchRule → SigBit → SigBit
  | [], value => value
  | sw :: rest, value => applySwitches unknown rest (applySwitch unknown sw value)

def applySwitch (unknown : Bool) : SwitchRule → SigBit → SigBit
  | ⟨signal, _, _, cases⟩, value =>
    let value := if signal.length = 0 then applyCases unknown cases value else value
    match test signal with
    | some polarity => applyTaken polarity cases value
    | none => applyCases true cases value

def applyCases (unknown : Bool) : List CaseRule → SigBit → SigBit
  | [], value => value
  | cs :: rest, value => applyCases unknown rest (applyConst unknown cs value)

/-- The first case that is taken; it is applied as certain. -/
def applyTaken (polarity : Bool) : List CaseRule → SigBit → SigBit
  | [], value => value
  | cs :: rest, value =>
    if takenAt polarity cs || cs.compare.isEmpty then applyConst false cs value
    else applyTaken polarity rest value

end

/-- The cases left for the other value of the selector: those taken at `polarity` go, and the first
other one becomes the default and the last. -/
def remainingCase (polarity : Bool) (cases : List CaseRule) : List CaseRule :=
  ((cases.find? (fun cs => !takenAt polarity cs)).map
    (fun cs => ({ cs with compare := [] } : CaseRule))).toList

/-- The loop at the end of `eliminate_const`. -/
def cleanTop (cs : CaseRule) : Option CaseRule :=
  (cleanLoop (fun _ => 1) (cs.size + 1) cs).map Prod.fst

mutual

def eliminateConst : CaseRule → Option CaseRule
  | ⟨compare, actions, switches⟩ => do
    let switches ← eliminateSwitches switches
    cleanTop ⟨compare, actions, switches⟩

def eliminateSwitches : List SwitchRule → Option (List SwitchRule)
  | [] => some []
  | sw :: rest => do
    let sw ← eliminateSwitch sw
    let rest ← eliminateSwitches rest
    pure (sw :: rest)

def eliminateSwitch : SwitchRule → Option SwitchRule
  | ⟨signal, full, parallel, cases⟩ =>
    match test signal with
    | some polarity => some ⟨[], full, parallel, remainingCase polarity cases⟩
    | none => do
      let cases ← eliminateCases cases
      pure ⟨signal, full, parallel, cases⟩

def eliminateCases : List CaseRule → Option (List CaseRule)
  | [] => some []
  | cs :: rest => do
    let cs ← eliminateConst cs
    let rest ← eliminateCases rest
    pure (cs :: rest)

end

/-- The calls of `log_error`, with the values they print. -/
inductive ArstError
  | endlessLoop (reset value signal : SigSpec)
  | nonConstant (reset value signal : SigSpec)
  | memoryWrite (reset : SigSpec) (memid : IdString)
  | noReturn
  deriving DecidableEq

variable (assignMap : SigBit → SigBit) (root : CaseRule)

/-- The loop of `apply_reset` with the number of rounds left before it gives up. -/
def resetLoop (reset logSig : SigSpec) : Nat → SigSpec → SigSpec → SigSpec → Except ArstError SigSpec
  | left, rspec, rval, lastRval =>
    if rval = lastRval then .ok rval
    else
      let next := (List.zipWith (fun bit value => applyConst test bit false root value) rspec rval).map
        assignMap
      if isFullyConst next then .ok next
      else
        match left with
        | 0 => .error (.endlessLoop reset next logSig)
        | left + 1 => resetLoop reset logSig left next next rval

/-- `apply_reset`: the value of a signal while the reset is active. -/
def applyReset (reset sig logSig : SigSpec) : Except ArstError SigSpec := do
  let rspec := sig.map assignMap
  let rval := rspec.map (fun b => if b.isWire then .const .Sm else b)
  let value ← resetLoop test assignMap root reset logSig 101 rspec rval []
  if value.any (· == .const .Sm) then .error (.nonConstant reset value logSig) else .ok value

def resetAction (reset : SigSpec) (a : Action) : Except ArstError Action := do
  let value ← applyReset test assignMap root reset a.rhs a.lhs
  pure (if h : a.lhs.length = value.length then ⟨a.lhs, value, h⟩ else a)

/-- A memory write must be disabled by the reset; its address and data are evaluated too. -/
def checkWrite (reset : SigSpec) (memwr : MemWriteAction) : Except ArstError Unit := do
  let enable ← applyReset test assignMap root reset memwr.enable memwr.enable
  if !SigSpec.isFullyZero enable then .error (.memoryWrite reset memwr.memid)
  let _ ← applyReset test assignMap root reset memwr.address memwr.address
  let _ ← applyReset test assignMap root reset memwr.data memwr.data

def levelType (type : SyncType) : SyncType := if type = .STp then .ST1 else .ST0

def convert (sync : SyncRule) : Except ArstError (SyncRule × CaseRule) := do
  let actions ← sync.actions.mapM (resetAction test assignMap root sync.signal)
  sync.memWriteActions.forM (checkWrite test assignMap root sync.signal)
  match eliminateConst test root with
  | none => .error .noReturn
  | some root =>
    pure ({ sync with type := levelType sync.type, actions := actions, memWriteActions := [] }, root)

/-- The first edge event that decides the root switch, with the rules around it and the value of
the selector while the event's signal is active. -/
def findEvent (cells : List Cell) (rootSig : SigSpec) :
    List SyncRule → Option (List SyncRule × SyncRule × List SyncRule × Bool)
  | [] => none
  | sync :: rest =>
    match checkSignal cells cells.length rootSig sync.signal (sync.type == .STp) with
    | some polarity => some ([], sync, rest, polarity)
    | none =>
      (findEvent cells rootSig rest).map (fun r => (sync :: r.1, r.2.1, r.2.2.1, r.2.2.2))

/-- The decision tree and the lists of rules while the pass runs. -/
structure Arst where
  root : CaseRule
  arst : List SyncRule
  edge : List SyncRule
  didSomething : Bool := false

/-- The body of the loop of `proc_arst`; `none` says that it ends. The last edge event is the clock:
its test is removed as always true and no rule is converted. -/
def arstRound (cells : List Cell) (assignMap : SigBit → SigBit) (st : Arst) :
    Except ArstError (Option Arst) :=
  match st.root.switches with
  | [sw] =>
    match findEvent cells sw.signal st.edge with
    | none => .ok none
    | some (before, sync, after, polarity) =>
      if st.edge.length > 1 then do
        let test := fun signal => checkSignal cells cells.length signal sw.signal polarity
        let (level, root) ← convert test assignMap st.root sync
        pure (some
          { root := root, arst := st.arst ++ [level], edge := before ++ after, didSomething := true })
      else
        let test := fun signal => checkSignal cells cells.length signal sw.signal (!polarity)
        match eliminateConst test st.root with
        | none => .error .noReturn
        | some root => .ok (some { st with root := root, didSomething := true })
  | _ => .ok none

def arstLoop (cells : List Cell) (assignMap : SigBit → SigBit) : Nat → Arst → Except ArstError Arst
  | 0, _ => .error .noReturn
  | fuel + 1, st => do
    match ← arstRound cells assignMap st with
    | none => pure st
    | some st => arstLoop cells assignMap fuel st

def isLevel (sync : SyncRule) : Bool := sync.type == .ST0 || sync.type == .ST1

def isEdge (sync : SyncRule) : Bool := sync.type == .STp || sync.type == .STn

def startArst (proc : Process) : Arst :=
  { root := proc.rootCase, arst := proc.syncs.filter isLevel, edge := proc.syncs.filter isEdge }

/-- `proc_arst`. The loop removes a switch of the root in every round. -/
def procArst (mod : Module) (proc : Process) : Except ArstError Process := do
  let st ← arstLoop mod.cells (apply (set mod.connections)) (proc.rootCase.size + 1) (startArst proc)
  let others := proc.syncs.filter (fun sync => !isLevel sync && !isEdge sync)
  pure { proc with
    rootCase := st.root
    syncs := if st.didSomething then st.arst ++ st.edge ++ others else proc.syncs }

end ManticoreFrontend.Passes.ProcArst
