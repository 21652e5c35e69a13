/- source: passes/proc/proc_clean.cc
   digest: The pass that removes empty parts and decided switches from processes. -/

import ManticoreFrontend.Kernel.Processes
import Mathlib.Data.List.DropRight

namespace ManticoreFrontend.Passes.ProcClean

open Kernel Signals Processes

/-- The flag `did_something` and the counter `count`. Callers set the flag and add to the counter,
so both are returned and combined. -/
structure Progress where
  didSomething : Bool := false
  count : Nat := 0
  deriving DecidableEq

def Progress.and (p q : Progress) : Progress :=
  ⟨p.didSomething || q.didSomething, p.count + q.count⟩

/-- The patterns of a case under a constant selector: constants that differ from it are erased.
`none` says that one equals it. -/
def prunePatterns (signal : SigSpec) : List SigSpec → Option (List SigSpec)
  | [] => some []
  | val :: rest =>
    if isFullyConst val = false then (prunePatterns signal rest).map (val :: ·)
    else if val = signal then none
    else prunePatterns signal rest

/-- The loop over the cases up to the first one found to match, whose patterns are cleared and after
which all are deleted, with its index in the new list. -/
def pruneCases (signal : SigSpec) : Nat → List CaseRule → List CaseRule × Option Nat
  | _, [] => ([], none)
  | i, cs :: rest =>
    if cs.compare = [] then (cs :: rest, none)
    else
      match prunePatterns signal cs.compare with
      | none => ([{ cs with compare := [] }], some i)
      | some [] => pruneCases signal i rest
      | some compare =>
        let (rest, found) := pruneCases signal (i + 1) rest
        ({ cs with compare := compare } :: rest, found)

/-- The first part of `proc_clean_switch`. -/
def pruneSwitch (sw : SwitchRule) : SwitchRule :=
  if sw.signal.length > 0 && isFullyConst sw.signal then
    let (cases, found) := pruneCases sw.signal 0 sw.cases
    { sw with signal := if found = some 0 then [] else sw.signal, cases := cases }
  else sw

def removeEmpty (sw : SwitchRule) : SwitchRule × Progress :=
  if sw.fullCase then
    if sw.cases.all CaseRule.empty then ({ sw with cases := [] }, {}) else (sw, {})
  else if sw.parallelCase then
    ({ sw with cases := sw.cases.filter (fun cs => !cs.empty) }, ⟨sw.cases.any CaseRule.empty, 0⟩)
  else
    ({ sw with cases := sw.cases.rdropWhile CaseRule.empty },
      ⟨sw.cases.getLast?.any CaseRule.empty, 0⟩)

def cleanCases (visit : CaseRule → CaseRule × Progress) : List CaseRule → List CaseRule × Progress
  | [] => ([], {})
  | cs :: rest =>
    let (cs, here) := visit cs
    let (rest, later) := cleanCases visit rest
    (cs :: rest, here.and later)

/-- The only case of a switch that runs unconditionally. -/
def soleCase? (sw : SwitchRule) : Option CaseRule :=
  match sw.cases with
  | [cs] => if sw.signal.length = 0 || cs.compare.isEmpty then some cs else none
  | _ => none

structure Visit where
  sw : SwitchRule
  moved : Option CaseRule := none
  progress : Progress := {}

/-- `proc_clean_switch`; `front` says that the switch is the first one of its parent. -/
def procCleanSwitch (visit : CaseRule → CaseRule × Progress) (front : Bool) (sw : SwitchRule) :
    Visit :=
  let sw := pruneSwitch sw
  match (if front then soleCase? sw else none) with
  | some cs => { sw := { sw with cases := [] }, moved := some cs, progress := ⟨true, 0⟩ }
  | none =>
    let (cases, inner) := cleanCases visit sw.cases
    let (sw, here) := removeEmpty { sw with cases := cases }
    { sw := sw, progress := inner.and here }

def cleanLater (visit : Bool → SwitchRule → Visit) : List SwitchRule → List SwitchRule × Progress
  | [] => ([], {})
  | sw :: rest =>
    let (rest, later) := cleanLater visit rest
    if sw.empty then (rest, Progress.and ⟨true, 1⟩ later)
    else
      let here := visit false sw
      (here.sw :: rest, here.progress.and later)

/-- The loop over the switches at the first place. The switches of a case that moves up are inserted
at the front, so it passes over the first of them. -/
def cleanFirst (visit : Bool → SwitchRule → Visit) :
    List SwitchRule → (List Action × List SwitchRule) × Progress
  | [] => (([], []), {})
  | sw :: rest =>
    if sw.empty then
      let (result, later) := cleanFirst visit rest
      (result, Progress.and ⟨true, 1⟩ later)
    else
      let here := visit true sw
      match here.moved with
      | none =>
        let (rest, later) := cleanLater visit rest
        (([], here.sw :: rest), here.progress.and later)
      | some cs =>
        let (behind, later) := cleanLater visit (cs.switches ++ here.sw :: rest).tail
        ((cs.actions, (cs.switches ++ here.sw :: rest).head?.toList ++ behind),
          here.progress.and later)

/-- The body of `proc_clean_case` around the treatment of one switch. -/
def cleanCase (visit : Bool → SwitchRule → Visit) (cs : CaseRule) : CaseRule × Progress :=
  let ((more, switches), progress) := cleanFirst visit cs.switches
  ({ cs with
      actions := cs.actions.filter (fun a => !a.lhs.isEmpty) ++ more
      switches := switches },
    Progress.and ⟨cs.actions.any (fun a => a.lhs.isEmpty), 0⟩ progress)

/-- `proc_clean_case` with its depth limit, of which each call of either function uses one. -/
def procCleanCase : Nat → CaseRule → CaseRule × Progress
  | 0 => cleanCase (fun _ sw => { sw := sw })
  | 1 => cleanCase (procCleanSwitch (fun cs => (cs, {})))
  | maxDepth + 2 => cleanCase (procCleanSwitch (procCleanCase maxDepth))

/-- A limit that is never reached, for the limit `-1` of the source. -/
def unlimited (cs : CaseRule) : Nat := 2 * cs.size

/-- The loop that repeats `proc_clean_case` as long as it reports progress, cut off after `fuel`
rounds. -/
def cleanLoop (limit : CaseRule → Nat) : Nat → CaseRule → Option (CaseRule × Nat)
  | 0, _ => none
  | fuel + 1, cs =>
    let (cs, progress) := procCleanCase (limit cs) cs
    if progress.didSomething then
      (cleanLoop limit fuel cs).map (fun r => (r.1, progress.count + r.2))
    else some (cs, progress.count)

/-- The first part of `proc_clean`: empty actions and then empty rules are erased. -/
def cleanSyncs (syncs : List SyncRule) : List SyncRule :=
  (syncs.map (fun sync =>
      { sync with actions := sync.actions.filter (fun a => !a.lhs.isEmpty) })).filter
    (fun sync => !(sync.actions.isEmpty && sync.memWriteActions.isEmpty))

def procClean (fuel : Nat) (proc : Process) : Option (Process × Nat) :=
  (cleanLoop unlimited fuel proc.rootCase).map (fun r =>
    ({ proc with rootCase := r.1, syncs := cleanSyncs proc.syncs }, r.2))

end ManticoreFrontend.Passes.ProcClean
