/- source: kernel/rtlil.h, kernel/rtlil.cc (CaseRule, SwitchRule, SyncRule, Process, Module::check)
   digest: Processes as decision trees with sync rules, and what running them assigns. -/

import ManticoreFrontend.Foundation.GuardedChoice
import ManticoreFrontend.Kernel.Signals

namespace ManticoreFrontend.Kernel.Processes

open Foundation.GuardedChoice Constants CellTypes Signals

/-- An assignment, a `SigSig` whose sides are equally wide. -/
structure Action where
  lhs : SigSpec
  rhs : SigSpec
  length : lhs.length = rhs.length
  deriving DecidableEq

mutual

/-- A case of a switch. A case without patterns is a default. -/
structure CaseRule where
  compare : List SigSpec := []
  actions : List Action := []
  switches : List SwitchRule := []

/-- A switch with the two attributes the passes read. -/
structure SwitchRule where
  signal : SigSpec
  fullCase : Bool := false
  parallelCase : Bool := false
  cases : List CaseRule

end

inductive SyncType
  | ST0 | ST1 | STp | STn | STe | STa | STg | STi
  deriving DecidableEq, Repr

structure MemWriteAction where
  memid : IdString
  address : SigSpec
  data : SigSpec
  enable : SigSpec
  priorityMask : Const := []
  deriving DecidableEq

structure SyncRule where
  type : SyncType
  signal : SigSpec
  actions : List Action := []
  memWriteActions : List MemWriteAction := []
  deriving DecidableEq

structure Process where
  name : IdString
  rootCase : CaseRule
  syncs : List SyncRule := []

def CaseRule.empty (cs : CaseRule) : Bool := cs.actions.isEmpty && cs.switches.isEmpty

def SwitchRule.empty (sw : SwitchRule) : Bool := sw.cases.isEmpty

def isFullyConst (sig : SigSpec) : Bool := sig.all (fun b => !b.isWire)

mutual

/-- The number of actions, cases and switches below a case. -/
def CaseRule.size : CaseRule → Nat
  | ⟨_, actions, switches⟩ => actions.length + switchSizes switches

def SwitchRule.size : SwitchRule → Nat
  | ⟨_, _, _, cases⟩ => 1 + caseSizes cases

def switchSizes : List SwitchRule → Nat
  | [] => 0
  | sw :: rest => sw.size + switchSizes rest

def caseSizes : List CaseRule → Nat
  | [] => 0
  | cs :: rest => 1 + cs.size + caseSizes rest

end

mutual

/-- Every switch at or below a case has the property. -/
def CaseRule.Every (p : SwitchRule → Prop) : CaseRule → Prop
  | ⟨_, _, switches⟩ => everySwitch p switches

def SwitchRule.Every (p : SwitchRule → Prop) : SwitchRule → Prop
  | ⟨signal, full, parallel, cases⟩ => p ⟨signal, full, parallel, cases⟩ ∧ everyCase p cases

def everySwitch (p : SwitchRule → Prop) : List SwitchRule → Prop
  | [] => True
  | sw :: rest => sw.Every p ∧ everySwitch p rest

def everyCase (p : SwitchRule → Prop) : List CaseRule → Prop
  | [] => True
  | cs :: rest => cs.Every p ∧ everyCase p rest

end

variable {p q : SwitchRule → Prop}

theorem CaseRule.size_eq (cs : CaseRule) :
    cs.size = cs.actions.length + switchSizes cs.switches := by
  cases cs
  rw [CaseRule.size]

theorem SwitchRule.size_eq (sw : SwitchRule) : sw.size = 1 + caseSizes sw.cases := by
  cases sw
  rw [SwitchRule.size]

@[simp] theorem switchSizes_nil : switchSizes [] = 0 := by rw [switchSizes]

@[simp] theorem switchSizes_cons (sw : SwitchRule) (rest : List SwitchRule) :
    switchSizes (sw :: rest) = sw.size + switchSizes rest := by rw [switchSizes]

@[simp] theorem caseSizes_nil : caseSizes [] = 0 := by rw [caseSizes]

@[simp] theorem caseSizes_cons (cs : CaseRule) (rest : List CaseRule) :
    caseSizes (cs :: rest) = 1 + cs.size + caseSizes rest := by rw [caseSizes]

theorem switchSizes_append (l m : List SwitchRule) :
    switchSizes (l ++ m) = switchSizes l + switchSizes m := by
  induction l with
  | nil => simp
  | cons sw l ih => simp [ih, Nat.add_assoc]

theorem everySwitch_iff {l : List SwitchRule} : everySwitch p l ↔ ∀ sw ∈ l, sw.Every p := by
  induction l with
  | nil => simp [everySwitch]
  | cons sw l ih => simp [everySwitch, ih]

theorem everyCase_iff {l : List CaseRule} : everyCase p l ↔ ∀ cs ∈ l, cs.Every p := by
  induction l with
  | nil => simp [everyCase]
  | cons cs l ih => simp [everyCase, ih]

variable {cs : CaseRule}

theorem CaseRule.every_iff : cs.Every p ↔ ∀ sw ∈ cs.switches, sw.Every p := by
  cases cs
  rw [CaseRule.Every, everySwitch_iff]

variable {sw : SwitchRule}

theorem SwitchRule.every_iff :
    sw.Every p ↔ p sw ∧ ∀ cs ∈ sw.cases, cs.Every p := by
  cases sw
  rw [SwitchRule.Every, everyCase_iff]

theorem size_of_mem_cases {cases : List CaseRule} (member : cs ∈ cases) :
    1 + cs.size ≤ caseSizes cases := by
  induction cases with
  | nil => cases member
  | cons c rest ih =>
    rw [caseSizes_cons]
    rcases List.mem_cons.mp member with rfl | member
    · omega
    · have := ih member
      omega

variable {switches : List SwitchRule}

theorem size_of_mem_switches (member : sw ∈ switches) : sw.size ≤ switchSizes switches := by
  induction switches with
  | nil => cases member
  | cons c rest ih =>
    rw [switchSizes_cons]
    rcases List.mem_cons.mp member with rfl | member
    · omega
    · have := ih member
      omega

/-- Induction over a decision tree, from the cases of the switches of a case to the case. -/
theorem CaseRule.byCases {P : CaseRule → Prop}
    (step : ∀ cs : CaseRule, (∀ sw ∈ cs.switches, ∀ c ∈ sw.cases, P c) → P cs) (cs : CaseRule) :
    P cs := by
  induction size : cs.size using Nat.strong_induction_on generalizing cs with
  | h n ih =>
    refine step cs (fun sw hsw c hc => ih c.size ?_ c rfl)
    have inSwitch := size_of_mem_cases hc
    have inCase := size_of_mem_switches hsw
    rw [CaseRule.size_eq] at size
    rw [SwitchRule.size_eq] at inCase
    omega

theorem CaseRule.Every.mono (every : cs.Every p) (h : ∀ sw, p sw → q sw) : cs.Every q := by
  induction cs using CaseRule.byCases with
  | step cs ih =>
    rw [CaseRule.every_iff] at every ⊢
    intro sw member
    obtain ⟨here, below⟩ := SwitchRule.every_iff.mp (every sw member)
    exact SwitchRule.every_iff.mpr ⟨h sw here, fun c hc => ih sw member c hc (below c hc)⟩

theorem CaseRule.Every.and (every : cs.Every p) (every' : cs.Every q) :
    cs.Every (fun sw => p sw ∧ q sw) := by
  induction cs using CaseRule.byCases with
  | step cs ih =>
    rw [CaseRule.every_iff] at every every' ⊢
    intro sw member
    obtain ⟨here, below⟩ := SwitchRule.every_iff.mp (every sw member)
    obtain ⟨here', below'⟩ := SwitchRule.every_iff.mp (every' sw member)
    exact SwitchRule.every_iff.mpr
      ⟨⟨here, here'⟩, fun c hc => ih sw member c hc (below c hc) (below' c hc)⟩

variable (v : Valuation)

/-- The value of a bit under a two-valued valuation. Undefined constant bits keep their state. -/
def bitState : SigBit → State
  | .wire w offset => State.ofBool ((v w).getLsbD offset)
  | .const data => data

/-- Don't-care bits of a pattern match every bit. -/
def bitMatches (bit pattern : SigBit) : Bool :=
  pattern == .const .Sa || bitState v bit == bitState v pattern

def patternMatches (signal pattern : SigSpec) : Bool :=
  signal.length == pattern.length && (signal.zip pattern).all (fun p => bitMatches v p.1 p.2)

def CaseRule.hits (signal : SigSpec) (cs : CaseRule) : Bool :=
  cs.compare.any (patternMatches v signal)

def CaseRule.matches (signal : SigSpec) (cs : CaseRule) : Bool :=
  cs.compare.isEmpty || cs.hits v signal

abbrev Assigned := SigBit → Option State

/-- Constant bits on the left are not assigned. -/
def assignBit (s : Assigned) (p : SigBit × SigBit) : Assigned :=
  if p.1.isWire then Function.update s p.1 (some (bitState v p.2)) else s

def Action.pairs (a : Action) : List (SigBit × SigBit) := a.lhs.zip a.rhs

def Action.assign (s : Assigned) (a : Action) : Assigned := a.pairs.foldl (assignBit v) s

mutual

/-- Run a case: first its actions, then its switches. The right sides read the valuation. -/
def CaseRule.exec : CaseRule → Assigned → Assigned
  | ⟨_, actions, switches⟩, s => execSwitches switches (actions.foldl (Action.assign v) s)

def SwitchRule.exec : SwitchRule → Assigned → Assigned
  | ⟨signal, _, _, cases⟩, s => execCases signal cases s

def execSwitches : List SwitchRule → Assigned → Assigned
  | [], s => s
  | sw :: rest, s => execSwitches rest (sw.exec s)

def execCases (signal : SigSpec) : List CaseRule → Assigned → Assigned
  | [], s => s
  | cs :: rest, s => if cs.matches v signal then cs.exec s else execCases signal rest s

end

theorem CaseRule.exec_eq (cs : CaseRule) (s : Assigned) :
    cs.exec v s = execSwitches v cs.switches (cs.actions.foldl (Action.assign v) s) := by
  cases cs
  rw [CaseRule.exec]

@[simp] theorem execSwitches_nil (s : Assigned) : execSwitches v [] s = s := by rw [execSwitches]

@[simp] theorem execSwitches_cons (sw : SwitchRule) (rest : List SwitchRule) (s : Assigned) :
    execSwitches v (sw :: rest) s = execSwitches v rest (sw.exec v s) := by rw [execSwitches]

theorem execSwitches_foldl (l : List SwitchRule) (s : Assigned) :
    execSwitches v l s = l.foldl (fun s sw => sw.exec v s) s := by
  induction l generalizing s with
  | nil => simp
  | cons sw l ih => simp [ih]

theorem execSwitches_append (l m : List SwitchRule) (s : Assigned) :
    execSwitches v (l ++ m) s = execSwitches v m (execSwitches v l s) := by
  simp only [execSwitches_foldl, List.foldl_append]

theorem execCases_eq (signal : SigSpec) (cases : List CaseRule) (s : Assigned) :
    execCases v signal cases s = choose (CaseRule.matches v signal) (CaseRule.exec v) cases s := by
  induction cases with
  | nil => rw [execCases, choose_nil]
  | cons cs rest ih => rw [execCases, choose, ih]

theorem SwitchRule.exec_eq (sw : SwitchRule) (s : Assigned) :
    sw.exec v s = choose (CaseRule.matches v sw.signal) (CaseRule.exec v) sw.cases s := by
  cases sw
  rw [SwitchRule.exec, execCases_eq]

theorem SwitchRule.exec_empty (h : sw.empty = true) (s : Assigned) : sw.exec v s = s := by
  rw [SwitchRule.exec_eq, List.isEmpty_iff.mp h, choose_nil]

theorem CaseRule.exec_empty {cs : CaseRule} (h : cs.empty = true) (s : Assigned) :
    cs.exec v s = s := by
  obtain ⟨actions, switches⟩ := Bool.and_eq_true_iff.mp h
  rw [CaseRule.exec_eq, List.isEmpty_iff.mp actions, List.isEmpty_iff.mp switches]
  simp

/-- What the sync rules chosen by `fires` do in a step: the bits they assign and the memory writes
they perform. -/
def execSyncs (fires : SyncType → SigSpec → Bool) (syncs : List SyncRule) (s : Assigned) :
    Assigned × List MemWriteAction :=
  let fired := syncs.filter (fun sync => fires sync.type sync.signal)
  ((fired.flatMap SyncRule.actions).foldl (Action.assign v) s, fired.flatMap SyncRule.memWriteActions)

def Action.targets (a : Action) : List SigBit := a.lhs.filter SigBit.isWire

mutual

def CaseRule.targets : CaseRule → List SigBit
  | ⟨_, actions, switches⟩ => actions.flatMap Action.targets ++ switchTargets switches

def switchTargets : List SwitchRule → List SigBit
  | [] => []
  | ⟨_, _, _, cases⟩ :: rest => caseTargets cases ++ switchTargets rest

def caseTargets : List CaseRule → List SigBit
  | [] => []
  | cs :: rest => cs.targets ++ caseTargets rest

end

theorem CaseRule.targets_eq (cs : CaseRule) :
    cs.targets = cs.actions.flatMap Action.targets ++ switchTargets cs.switches := by
  cases cs
  rw [CaseRule.targets]

theorem caseTargets_eq (cases : List CaseRule) :
    caseTargets cases = cases.flatMap CaseRule.targets := by
  induction cases with
  | nil => rw [caseTargets, List.flatMap_nil]
  | cons cs rest ih => rw [caseTargets, ih, List.flatMap_cons]

theorem switchTargets_eq (switches : List SwitchRule) :
    switchTargets switches = switches.flatMap fun sw => caseTargets sw.cases := by
  induction switches with
  | nil => rw [switchTargets, List.flatMap_nil]
  | cons sw rest ih =>
    cases sw
    rw [switchTargets, ih, List.flatMap_cons]

variable {b : SigBit}

variable {a : Action}

theorem Action.mem_targets :
    b ∈ a.targets ↔ b ∈ a.lhs ∧ b.isWire = true := List.mem_filter

theorem CaseRule.mem_targets {cs : CaseRule} :
    b ∈ cs.targets ↔ (∃ a ∈ cs.actions, b ∈ a.targets) ∨
      ∃ sw ∈ cs.switches, ∃ c ∈ sw.cases, b ∈ c.targets := by
  rw [CaseRule.targets_eq]
  simp [switchTargets_eq, caseTargets_eq]

theorem assign_of_not_mem {pairs : List (SigBit × SigBit)}
    (h : ∀ p ∈ pairs, p.1.isWire = true → p.1 ≠ b) (s : Assigned) :
    pairs.foldl (assignBit v) s b = s b := by
  refine List.foldlRecOn (motive := fun t : Assigned => t b = s b) pairs _ rfl fun t same p mem => ?_
  unfold assignBit
  split
  · rename_i wire
    rwa [Function.update_of_ne (h p mem wire).symm]
  · exact same

theorem mem_lhs_of_mem_pairs {p : SigBit × SigBit} (h : p ∈ a.pairs) : p.1 ∈ a.lhs :=
  (List.of_mem_zip h).1

theorem Action.assign_of_not_mem (h : b ∉ a.targets) (s : Assigned) : a.assign v s b = s b := by
  refine ManticoreFrontend.Kernel.Processes.assign_of_not_mem v (fun p hp wire same => h ?_) s
  exact Action.mem_targets.mpr ⟨same ▸ mem_lhs_of_mem_pairs hp, same ▸ wire⟩

theorem assign_actions_of_not_mem {actions : List Action} (h : ∀ a ∈ actions, b ∉ a.targets)
    (s : Assigned) : actions.foldl (Action.assign v) s b = s b :=
  List.foldlRecOn (motive := fun t : Assigned => t b = s b) actions _ rfl fun t same a mem =>
    (Action.assign_of_not_mem v (h a mem) t).trans same

theorem CaseRule.exec_of_not_mem (cs : CaseRule) (h : b ∉ cs.targets) (s : Assigned) :
    cs.exec v s b = s b := by
  induction cs using CaseRule.byCases generalizing s with
  | step cs ih =>
    rw [CaseRule.mem_targets, not_or] at h
    obtain ⟨actions, switches⟩ := h
    rw [CaseRule.exec_eq, execSwitches_foldl]
    refine List.foldlRecOn (motive := fun t : Assigned => t b = s b) cs.switches _
      (assign_actions_of_not_mem v (fun a ha hb => actions ⟨a, ha, hb⟩) s) fun t ht sw hsw => ?_
    rw [SwitchRule.exec_eq]
    refine choose_preserves (P := fun t : Assigned => t b = s b) (fun c hc t ht => ?_) ht
    rw [ih sw hsw c hc (fun member => switches ⟨sw, hsw, c, hc, member⟩), ht]

/-- Every pattern is as wide as the selector: `Module::check`. -/
def SwitchRule.Checked (sw : SwitchRule) : Prop :=
  ∀ cs ∈ sw.cases, ∀ pattern ∈ cs.compare, sw.signal.length = pattern.length

/-- The part of `Module::check` about the decision tree of a process. -/
def Process.Checked (proc : Process) : Prop :=
  proc.rootCase.compare = [] ∧ proc.rootCase.Every SwitchRule.Checked

/-- The attributes of a switch are true: some case of a full one matches, and the patterns of
at most one case of a parallel one do. -/
def SwitchRule.Truthful (v : Valuation) (sw : SwitchRule) : Prop :=
  (sw.fullCase = true → ∃ cs ∈ sw.cases, cs.matches v sw.signal = true) ∧
    (sw.parallelCase = true → Exclusive (CaseRule.hits v sw.signal) sw.cases)

end ManticoreFrontend.Kernel.Processes
