/- source: passes/proc/proc_dff.cc
   digest: The pass that turns the sync rules of a process into register cells. -/

import ManticoreFrontend.Kernel.SigSets
import ManticoreFrontend.Kernel.SyncRules
import ManticoreFrontend.Passes.ProcArst

namespace ManticoreFrontend.Passes.ProcDff

open Kernel Constants Signals
open Kernel.SigSpecs (WireIds)
open Kernel SigSets Processes Nets SyncRules
open Passes.ProcArst (replaceBit constBits)

/-- The ways in which the pass stops; `nullRule` is a read through a null rule pointer. -/
inductive DffError
  | multipleEdge | multipleAlways | anyEdge | mixedAlways | missingEdge
  | aborted | assertion | nullRule | noReturn
  deriving DecidableEq, Repr

variable (sig : SigSpec) (a : Action)

/-- `SigSpec::replace` of the parts of `sig` that an action assigns, in the companion `other`. -/
def replaceSig (other : SigSpec) : SigSpec :=
  List.zipWith (replaceBit a.pairs) sig other

/-- `SigSpec::remove2` on both sides of an action. -/
def removeSig : Action :=
  let kept := a.pairs.filter (fun p => !covered sig p.1)
  { lhs := kept.map Prod.fst, rhs := kept.map Prod.snd, length := by simp }

theorem zip_of_pairs (l : List (SigBit × SigBit)) : (l.map Prod.fst).zip (l.map Prod.snd) = l := by
  rw [List.zip_map']
  exact List.map_id _

theorem removeSig_pairs :
    (removeSig sig a).pairs = a.pairs.filter (fun p => !covered sig p.1) := zip_of_pairs _

def floating (width : Nat) : SigSpec := List.replicate width (.const .Sz)

variable (ids : WireIds)

def startLvalue (lvalue : SigSpec) (sync : SyncRule) : SigSpec :=
  match sync.actions.find? (fun a => !a.lhs.isEmpty) with
  | some a => sortAndUnify ids a.lhs
  | none => lvalue

/-- Cut a signal down to the part that a rule assigns, if it assigns a part of it. -/
def cutLvalue (lvalue : SigSpec) (sync : SyncRule) : SigSpec :=
  let common := extractSig (sortAndUnify ids (ruleTargets sync)) lvalue
  if common.isEmpty then lvalue else common

/-- The `break` of the first loop leaves only the loop over the actions, so the last rule decides
where the search starts. -/
def findAnyLvalue (syncs : List SyncRule) : SigSpec :=
  syncs.foldl (cutLvalue ids) (syncs.foldl (startLvalue ids) [])

structure Rule where
  index : Nat
  type : SyncType
  signal : SigSpec
  deriving DecidableEq

/-- What the pass knows of a signal. The map from reset values to rules is kept as the list of its
insertions. -/
structure Collected where
  insig : SigSpec
  rstval : SigSpec
  syncLevel : Option Rule := none
  syncEdge : Option Rule := none
  syncAlways : Option Rule := none
  globalClock : Bool := false
  manyAsyncRules : List (SigSpec × Rule) := []

variable (sig : SigSpec) (rule : Rule) (c : Collected) (a : Action)

/-- A level rule. Every one of its actions starts from an undriven reset value. -/
def collectLevel : Collected :=
  { c with
    manyAsyncRules := match c.syncLevel with
      | some level =>
        if level ≠ rule then c.manyAsyncRules ++ [(c.rstval, level)] else c.manyAsyncRules
      | none => c.manyAsyncRules
    rstval := replaceSig sig a (floating sig.length)
    syncLevel := some rule }

def collectAction :
    Except DffError Collected :=
  if (extractSig a.lhs sig).isEmpty then .ok c
  else
    match rule.type with
    | .ST0 | .ST1 => .ok (collectLevel sig rule c a)
    | .STp | .STn =>
      if c.syncEdge.any (· ≠ rule) then .error .multipleEdge
      else .ok { c with insig := replaceSig sig a c.insig, syncEdge := some rule }
    | .STa =>
      if c.syncAlways.any (· ≠ rule) then .error .multipleAlways
      else .ok { c with insig := replaceSig sig a c.insig, syncAlways := some rule }
    | .STg => .ok { c with insig := replaceSig sig a c.insig, globalClock := true }
    | .STe | .STi => .error .anyEdge

def ruleAt (p : SyncRule × Nat) : Rule := ⟨p.2, p.1.type, p.1.signal⟩

def collectSync (sig : SigSpec) (c : Collected) (p : SyncRule × Nat) : Except DffError Collected :=
  p.1.actions.foldlM (collectAction sig (ruleAt p)) c

def collect (sig : SigSpec) (syncs : List SyncRule) : Except DffError Collected :=
  syncs.zipIdx.foldlM (collectSync sig)
    { insig := floating sig.length, rstval := floating sig.length }

structure Level where
  positive : Bool
  signal : Net
  deriving DecidableEq

def Level.ofRule (rule : Rule) : Level := ⟨rule.type == .ST1, .sig rule.signal⟩

def asyncGroups (many : List (SigSpec × Rule)) : List (SigSpec × List Rule) :=
  ((many.map Prod.fst).dedup.insertionSort (fun a b => sigLt ids b a = false)).map
    (fun value => (value, (many.filter (fun p => p.1 = value)).map Prod.snd))

/-- The level rules of a signal after they are merged: one level with one reset value, or groups
with several of them. -/
structure Resets where
  level : Option Level
  rstval : SigSpec
  groups : List (SigSpec × List Rule)

def inactive (rule : Rule) : State := if rule.type = .ST0 then .S1 else .S0

/-- One level for rules with a common reset value: some input differs from its inactive state. -/
def mergeGroup (rstval : SigSpec) (rules : List Rule) : Except DffError Resets :=
  let inputs := rules.flatMap Rule.signal
  let compare := rules.map inactive
  if inputs.length = compare.length then
    .ok { level := some ⟨true, .ne (.sig inputs) (.sig (SigSpec.ofConst compare))⟩
          rstval := rstval
          groups := [] }
  else .error .assertion

def mergeGroups (width : Nat) (rstval : SigSpec) :
    List (SigSpec × List Rule) → Except DffError Resets
  | [group] => mergeGroup rstval group.2
  | groups => .ok { level := none, rstval := floating width, groups := groups }

def mergeRules (width : Nat) (c : Collected) : Except DffError Resets :=
  if c.manyAsyncRules.isEmpty then
    .ok { level := c.syncLevel.map Level.ofRule, rstval := c.rstval, groups := [] }
  else
    mergeGroups width c.rstval
      (asyncGroups ids (c.manyAsyncRules ++ c.syncLevel.toList.map (c.rstval, ·)))

/-- A level that keeps the signal becomes a multiplexer before the data input. -/
def foldHold (sig insig : SigSpec) (resets : Resets) : Except DffError (Net × Resets) :=
  if resets.rstval = sig then
    match resets.level with
    | none => .error .nullRule
    | some level =>
      .ok (if level.positive then .mux (.sig insig) (.sig sig) level.signal
          else .mux (.sig sig) (.sig insig) level.signal,
        { resets with level := none, rstval := floating sig.length })
  else .ok (.sig insig, resets)

/-- `ConstEval::eval`: whether the signal is constant, and the signal with the values that were
found. -/
structure ConstEval where
  eval : SigSpec → Bool × SigSpec
  const : ∀ sig, (eval sig).1 = true → isFullyConst (eval sig).2 = true

/-- A register cell with its ports and parameters, or a plain connection. -/
inductive Register
  | connect (q : SigSpec) (d : Net)
  | ff (d : Net) (q : SigSpec)
  | dff (clk : SigSpec) (clkPolarity : Bool) (d : Net) (q : SigSpec)
  | adff (clk : SigSpec) (clkPolarity : Bool) (arst : Level) (value : Const) (d : Net)
      (q : SigSpec)
  | aldff (clk : SigSpec) (clkPolarity : Bool) (aload : Level) (ad : SigSpec) (d : Net)
      (q : SigSpec)
  | dffsr (clk : SigSpec) (clkPolarity : Bool) (set clr : Net) (d : Net) (q : SigSpec)
  deriving DecidableEq

def signalsOf (type : SyncType) (rules : List Rule) : SigSpec :=
  (rules.filter (fun rule => rule.type = type)).flatMap Rule.signal

/-- The select signal of a group. The low signals are joined before they are inverted. -/
def groupSignal (rules : List Rule) : Net :=
  let low := signalsOf .ST0 rules
  let high := signalsOf .ST1 rules
  let joined : Net := if low.length > 1 then .reduceOr (.sig low) else .sig low
  if low.length > 0 then
    let both := Net.append (.sig high) (.not joined 1)
    if high.length + 1 > 1 then .reduceOr both else both
  else if high.length > 1 then .reduceOr (.sig high)
  else .sig high

/-- The set and clear inputs: a later group overrides an earlier one. -/
def setClear (width : Nat) (groups : List (SigSpec × List Rule)) : Net × Net :=
  groups.foldl (fun p group =>
    (.mux p.1 (.sig group.1) (groupSignal group.2),
      .mux p.2 (.not (.sig group.1) width) (groupSignal group.2)))
    (.sig (SigSpec.ofConst (Const.ofState .S0 width)),
      .sig (SigSpec.ofConst (Const.ofState .S0 width)))

def isLevelRule (rule : Rule) : Bool := rule.type == .ST0 || rule.type == .ST1

def genDffsrComplex (sigD : Net) (sigQ clk : SigSpec) (clkPolarity : Bool)
    (groups : List (SigSpec × List Rule)) : Except DffError Register :=
  if groups.all (fun group => group.2.all isLevelRule) then
    let inputs := setClear sigQ.length groups
    .ok (.dffsr clk clkPolarity inputs.1 inputs.2 sigD sigQ)
  else .error .aborted

/-- Without a clock signal the cell is a `$ff`, which has no reset input. -/
def genDff (sigIn : Net) (valRst : Const) (sigOut : SigSpec) (edge : Option Rule)
    (arst : Option Level) : Register :=
  match edge, arst with
  | none, _ => .ff sigIn sigOut
  | some rule, none => .dff rule.signal (rule.type == .STp) sigIn sigOut
  | some rule, some level => .adff rule.signal (rule.type == .STp) level valRst sigIn sigOut

/-- The cell for a signal: `mapped` are the aliases of its bits, `sigQ` the bits themselves. -/
def genRegister (ce : ConstEval) (c : Collected) (mapped sigQ : SigSpec)
    (insig : Net) (resets : Resets) : Except DffError Register :=
  if c.syncAlways.isSome then
    if c.syncEdge.isSome || resets.level.isSome || !resets.groups.isEmpty then
      .error .mixedAlways
    else .ok (.connect mapped insig)
  else if c.syncEdge.isNone && !c.globalClock then .error .missingEdge
  else if !resets.groups.isEmpty then
    match c.syncEdge with
    | none => .error .nullRule
    | some edge => genDffsrComplex insig mapped edge.signal (edge.type == .STp) resets.groups
  else
    let evaluated :=
      if isFullyConst resets.rstval then (true, resets.rstval) else ce.eval resets.rstval
    if evaluated.1 then
      .ok (genDff insig (constBits evaluated.2) sigQ c.syncEdge resets.level)
    else
      match c.syncEdge, resets.level with
      | some edge, some level =>
        .ok (.aldff edge.signal (edge.type == .STp) level evaluated.2 insig sigQ)
      | _, _ => .error .nullRule

variable (ids : WireIds) (assignMap : SigBit → SigBit) (ce : ConstEval)

def createRegister (sig : SigSpec) (c : Collected) : Except DffError Register := do
  let resets ← mergeRules ids sig.length c
  let mapped := sig.map assignMap
  let (insig, resets) ← foldHold mapped (c.insig.map assignMap)
    { resets with rstval := resets.rstval.map assignMap }
  genRegister ce c mapped sig insig resets

/-- The rules without the bits of a signal that has its register. -/
def removeFrom (sig : SigSpec) (syncs : List SyncRule) : List SyncRule :=
  syncs.map (fun sync => { sync with actions := sync.actions.map (removeSig sig) })

/-- The loop of the pass; `fuel` bounds its rounds. -/
def dffLoop : Nat → List SyncRule → Except DffError (List Register × List SyncRule)
  | fuel, syncs =>
    let sig := findAnyLvalue ids syncs
    if sig.isEmpty then .ok ([], syncs)
    else
      match fuel with
      | 0 => .error .noReturn
      | fuel + 1 => do
        let c ← collect sig syncs
        let register ← createRegister ids assignMap ce sig c
        let (registers, rest) ← dffLoop fuel (removeFrom sig syncs)
        return (register :: registers, rest)

/-- The pass on one process: the cells it adds, and the rules it leaves. -/
def procDff (proc : Process) : Except DffError (List Register × List SyncRule) :=
  dffLoop ids assignMap ce (targets proc.syncs).length proc.syncs

def Level.isActive (now : Reading) (level : Level) : Bool :=
  level.signal.value now == [State.ofBool level.positive]

namespace Register

def q : Register → SigSpec
  | connect q _ | ff _ q | dff _ _ _ q | adff _ _ _ _ _ q | aldff _ _ _ _ _ q | dffsr _ _ _ _ _ q => q

/-- One bit of a `$dffsr`: clear before set before the clock. -/
def setClearBit (clr set other : State) : State :=
  if clr = .S1 then .S0 else if set = .S1 then .S1 else other

/-- The output after the cell has seen the second of two instants. -/
def next (prev now : Reading) : Register → Const
  | connect _ d => d.value now
  | ff d _ => d.value now
  | dff clk positive d q => if edge prev now clk positive then d.value now else now.sig q
  | adff clk positive arst value d q =>
    if arst.isActive now then value
    else if edge prev now clk positive then d.value now
    else now.sig q
  | aldff clk positive aload ad d q =>
    if aload.isActive now then now.sig ad
    else if edge prev now clk positive then d.value now
    else now.sig q
  | dffsr clk positive set clr d q =>
    List.zipWith (fun p other => setClearBit p.1 p.2 other)
      ((clr.value now).zip (set.value now))
      (if edge prev now clk positive then d.value now else now.sig q)

end Register

end ManticoreFrontend.Passes.ProcDff
