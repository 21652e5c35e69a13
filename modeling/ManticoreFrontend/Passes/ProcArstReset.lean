/- source: passes/proc/proc_arst.cc
   digest: The value found for a signal with the reset active follows the last assignments made then; when there is none. -/

import ManticoreFrontend.Foundation.Outcome
import ManticoreFrontend.Kernel.AliasValues
import ManticoreFrontend.Passes.ProcArst
import Mathlib.Logic.Relation

namespace ManticoreFrontend.Passes.ProcArstReset

open List hiding choose
open Foundation.Outcome hiding check
open Foundation.GuardedChoice Kernel Constants Signals InformationOrder Processes AliasValues
open ProcArst

variable {v : Valuation}

variable {α : Type} {f : SigBit → α → SigBit} {test : SigSpec → Option Bool} {bit : SigBit}

def mark (targets : List SigBit) (bit value : SigBit) : SigBit :=
  if bit ∈ targets then .const .Sm else value

@[simp] theorem mark_nil (value : SigBit) : mark [] bit value = value := by simp [mark]

private theorem mark_mark (targets more : List SigBit) (value : SigBit) :
    mark more bit (mark targets bit value) = mark (targets ++ more) bit value := by
  unfold mark
  by_cases h : bit ∈ targets <;> by_cases h' : bit ∈ more <;> simp [h]

private theorem foldl_mark {targets : α → List SigBit} {l : List α}
    (each : ∀ x ∈ l, ∀ value, f value x = mark (targets x) bit value) (value : SigBit) :
    l.foldl f value = mark (l.flatMap targets) bit value := by
  induction l generalizing value with
  | nil => simp
  | cons x l ih =>
    rw [forall_mem_cons] at each
    rw [foldl_cons, each.1, ih each.2, mark_mark, flatMap_cons]

private theorem foldl_fixed {l : List α} {value : SigBit}
    (each : ∀ x ∈ l, f value x = value) : l.foldl f value = value :=
  foldlRecOn (motive := (· = value)) l f rfl fun _ same x mem => by rw [same, each x mem]

private theorem applyCases_eq (unknown : Bool) (cases : List CaseRule) (value : SigBit) :
    applyCases test bit unknown cases value =
      cases.foldl (fun value c => applyConst test bit unknown c value) value := by
  induction cases generalizing value with
  | nil => rw [applyCases, foldl_nil]
  | cons c rest ih => rw [applyCases, ih, foldl_cons]

private theorem applySwitches_eq (unknown : Bool) (switches : List SwitchRule) (value : SigBit) :
    applySwitches test bit unknown switches value =
      switches.foldl (fun value sw => applySwitch test bit unknown sw value) value := by
  induction switches generalizing value with
  | nil => rw [applySwitches, foldl_nil]
  | cons sw rest ih => rw [applySwitches, ih, foldl_cons]

private theorem applyConst_eq (unknown : Bool) (cs : CaseRule) (value : SigBit) :
    applyConst test bit unknown cs value =
      applySwitches test bit unknown cs.switches
        (cs.actions.foldl (applyAction bit unknown) value) := by
  cases cs
  rw [applyConst]

def entered (test : SigSpec → Option Bool) (bit : SigBit) (unknown : Bool) (sw : SwitchRule)
    (value : SigBit) : SigBit :=
  if sw.signal.length = 0 then applyCases test bit unknown sw.cases value else value

variable {sw : SwitchRule}

private theorem applySwitch_none (h : test sw.signal = none) (unknown : Bool) (value : SigBit) :
    applySwitch test bit unknown sw value =
      applyCases test bit true sw.cases (entered test bit unknown sw value) := by
  cases sw
  rw [applySwitch, h]
  rfl

variable {polarity : Bool}

theorem applySwitch_some (h : test sw.signal = some polarity) (unknown : Bool) (value : SigBit) :
    applySwitch test bit unknown sw value =
      applyTaken test bit polarity sw.cases (entered test bit unknown sw value) := by
  cases sw
  rw [applySwitch, h]
  rfl

private theorem applyAction_unknown (value : SigBit) (a : Action) :
    applyAction bit true value a = mark a.targets bit value := by
  rw [applyAction, if_pos rfl, Action.targets]
  generalize a.lhs = lhs
  induction lhs generalizing value with
  | nil => rfl
  | cons b lhs ih =>
    rw [map_cons, replaceBit, foldl_cons]
    show replaceBit _ _ _ = _
    rw [ih]
    cases wire : b.isWire with
    | false => simp [wire]
    | true =>
      by_cases same : bit = b
      · simp [wire, same, mark]
      · simp [same, mark]

variable {cs : CaseRule}

private theorem applyCases_unknown {cases : List CaseRule}
    (each : ∀ c ∈ cases, ∀ value, applyConst test bit true c value = mark c.targets bit value)
    (value : SigBit) : applyCases test bit true cases value = mark (caseTargets cases) bit value := by
  rw [applyCases_eq, caseTargets_eq, foldl_mark each]

private theorem applyConst_unknown (untested : cs.Every (fun sw => test sw.signal = none))
    (value : SigBit) : applyConst test bit true cs value = mark cs.targets bit value := by
  induction cs using CaseRule.byCases generalizing value with
  | step cs ih =>
    have switches : ∀ sw ∈ cs.switches, ∀ value,
        applySwitch test bit true sw value = mark (caseTargets sw.cases) bit value := by
      intro sw hsw value
      obtain ⟨here, below⟩ := SwitchRule.every_iff.mp (CaseRule.every_iff.mp untested sw hsw)
      have cases := applyCases_unknown fun c hc => ih sw hsw c hc (below c hc)
      rw [applySwitch_none here, cases, entered]
      split
      · rw [cases, mark_mark]
        simp [mark]
      · rfl
    rw [applyConst_eq, applySwitches_eq, foldl_mark fun a _ value => applyAction_unknown value a,
      foldl_mark switches, mark_mark, CaseRule.targets_eq, switchTargets_eq]

variable {cases : List CaseRule} {value : SigBit}

private theorem replaceBit_of_not_mem {pairs : List (SigBit × SigBit)}
    (h : ∀ p ∈ pairs, p.1.isWire = true → p.1 ≠ bit) (value : SigBit) :
    replaceBit pairs bit value = value := by
  refine foldl_fixed fun p mem => if_neg ?_
  rw [Bool.and_eq_true, beq_iff_eq]
  exact fun both => h p mem both.1 both.2.symm

theorem applyAction_of_not_mem {a : Action} (h : bit ∉ a.targets) (unknown : Bool) (value : SigBit) :
    applyAction bit unknown value a = value := by
  cases unknown with
  | true => rw [applyAction_unknown, mark, if_neg h]
  | false =>
    refine replaceBit_of_not_mem (fun p hp wire same => h ?_) value
    exact Action.mem_targets.mpr ⟨same ▸ mem_lhs_of_mem_pairs hp, same ▸ wire⟩

private theorem applyCases_fixed {unknown : Bool}
    (each : ∀ c ∈ cases, applyConst test bit unknown c value = value) :
    applyCases test bit unknown cases value = value := by
  rw [applyCases_eq, foldl_fixed each]

private theorem entered_fixed {unknown : Bool}
    (each : ∀ c ∈ sw.cases, applyConst test bit unknown c value = value) :
    entered test bit unknown sw value = value := by
  rw [entered]
  split
  · exact applyCases_fixed each
  · rfl

private theorem applyTaken_fixed (each : ∀ c ∈ cases, applyConst test bit false c value = value) :
    applyTaken test bit polarity cases value = value := by
  induction cases with
  | nil => rw [applyTaken]
  | cons c rest ih =>
    rw [applyTaken]
    split
    · exact each c (by simp)
    · exact ih (fun c' h' => each c' (by simp [h']))

private theorem applyConst_of_not_mem (h : bit ∉ cs.targets) (unknown : Bool)
    (value : SigBit) : applyConst test bit unknown cs value = value := by
  induction cs using CaseRule.byCases generalizing unknown with
  | step cs ih =>
    rw [CaseRule.mem_targets, not_or] at h
    obtain ⟨actions, switches⟩ := h
    have below : ∀ sw ∈ cs.switches, ∀ unknown, ∀ c ∈ sw.cases,
        applyConst test bit unknown c value = value := by
      intro sw hsw unknown c hc
      exact ih sw hsw c hc (fun member => switches ⟨sw, hsw, c, hc, member⟩) unknown
    have own : cs.actions.foldl (applyAction bit unknown) value = value :=
      foldl_fixed fun a ha =>
        applyAction_of_not_mem (fun member => actions ⟨a, ha, member⟩) unknown value
    rw [applyConst_eq, own, applySwitches_eq]
    refine foldl_fixed fun sw hsw => ?_
    have enter := entered_fixed (below sw hsw unknown)
    cases tested : test sw.signal with
    | none => rw [applySwitch_none tested, enter, applyCases_fixed (below sw hsw true)]
    | some polarity => rw [applySwitch_some tested, enter, applyTaken_fixed (below sw hsw false)]

/-- A test of the reset compares with constant bits only, and no test stands below another
switch. -/
structure Separate (test : SigSpec → Option Bool) (sw : SwitchRule) : Prop where
  patterns : ∀ polarity, test sw.signal = some polarity → ∀ cs ∈ sw.cases, ∀ pattern ∈ cs.compare,
    pattern = [.const .S0] ∨ pattern = [.const .S1]
  untested : test sw.signal = none → ∀ cs ∈ sw.cases, cs.Every (fun sw => test sw.signal = none)

theorem patternMatches_const {signal : SigSpec} {value b : Bool}
    (h : sigConst v signal = [State.ofBool value]) :
    patternMatches v signal [.const (State.ofBool b)] = (b == value) := by
  obtain ⟨x, rfl⟩ : ∃ x, signal = [x] := by
    have := congrArg length h
    rw [sigConst_eq, length_map] at this
    exact length_eq_one_iff.mp this
  have state : bitState v x = State.ofBool value := by simpa [sigConst_eq] using h
  have matched : bitMatches v x (.const (State.ofBool b)) = (b == value) := by
    rw [bitMatches, state]
    cases b <;> cases value <;> rfl
  simp [patternMatches, matched]

theorem hits_eq_takenAt {signal : SigSpec} {value : Bool}
    (h : sigConst v signal = [State.ofBool value])
    (patterns : ∀ pattern ∈ cs.compare, pattern = [.const .S0] ∨ pattern = [.const .S1]) :
    cs.hits v signal = takenAt value cs := by
  unfold CaseRule.hits takenAt
  generalize cs.compare = compare at patterns
  induction compare with
  | nil => rfl
  | cons pattern rest ih =>
    have here : patternMatches v signal pattern = (pattern == [.const (State.ofBool value)]) := by
      rcases patterns pattern (by simp) with rfl | rfl
      · exact (patternMatches_const (b := false) h).trans (by cases value <;> decide)
      · exact (patternMatches_const (b := true) h).trans (by cases value <;> decide)
    rw [any_cons, any_cons, here, ih (fun q hq => patterns q (by simp [hq]))]

/-- Assignments in their order, each to a bit. The value is not known where it is unsure whether the
assignment is made. -/
abbrev Writes := List (SigBit × Option SigBit)

def actionWrites (a : Action) : Writes := a.pairs.map (fun p => (p.1, some p.2))

mutual

/-- The assignments made with the reset active. A switch that the reset does not decide may assign
all its targets. -/
def resetWrites (test : SigSpec → Option Bool) : CaseRule → Writes
  | ⟨_, actions, switches⟩ => actions.flatMap actionWrites ++ switchesWrites test switches

def switchesWrites (test : SigSpec → Option Bool) : List SwitchRule → Writes
  | [] => []
  | sw :: rest => switchWrites test sw ++ switchesWrites test rest

def switchWrites (test : SigSpec → Option Bool) : SwitchRule → Writes
  | ⟨signal, _, _, cases⟩ =>
    match test signal with
    | some polarity => takenWrites test polarity cases
    | none => (caseTargets cases).map (·, none)

def takenWrites (test : SigSpec → Option Bool) (polarity : Bool) : List CaseRule → Writes
  | [] => []
  | cs :: rest =>
    if takenAt polarity cs || cs.compare.isEmpty then resetWrites test cs
    else takenWrites test polarity rest

end

/-- The last assignment to a bit. Constant bits are not assigned. -/
def lastWrite (writes : Writes) (bit : SigBit) : Option (Option SigBit) :=
  (writes.reverse.find? (fun w => w.1.isWire && w.1 == bit)).map Prod.snd

/-- The value after an assignment, `Sm` where it is not known. -/
def written (last : Option (Option SigBit)) (value : SigBit) : SigBit :=
  last.elim value (·.getD (.const .Sm))

private theorem resetWrites_eq (cs : CaseRule) :
    resetWrites test cs =
      cs.actions.flatMap actionWrites ++ cs.switches.flatMap (switchWrites test) := by
  have switches : ∀ l, switchesWrites test l = l.flatMap (switchWrites test) := by
    intro l
    induction l with
    | nil => rw [switchesWrites, flatMap_nil]
    | cons sw l ih => rw [switchesWrites, ih, flatMap_cons]
  cases cs
  rw [resetWrites, switches]

private theorem switchWrites_none (h : test sw.signal = none) :
    switchWrites test sw = (caseTargets sw.cases).map (·, none) := by
  cases sw
  rw [switchWrites, h]

private theorem switchWrites_some (h : test sw.signal = some polarity) :
    switchWrites test sw = takenWrites test polarity sw.cases := by
  cases sw
  rw [switchWrites, h]

private theorem lastWrite_append (l m : Writes) (bit : SigBit) :
    lastWrite (l ++ m) bit = (lastWrite m bit).or (lastWrite l bit) := by
  rw [lastWrite, reverse_append, find?_append, Option.map_or, lastWrite, lastWrite]

private theorem lastWrite_cons (w : SigBit × Option SigBit) (l : Writes) (bit : SigBit) :
    lastWrite (w :: l) bit =
      (lastWrite l bit).or (if w.1.isWire && w.1 == bit then some w.2 else none) := by
  rw [← singleton_append, lastWrite_append]
  congr 1
  rw [lastWrite, reverse_singleton, find?_singleton]
  split <;> rfl

private theorem lastWrite_const (l : Writes) (data : State) : lastWrite l (.const data) = none := by
  rw [lastWrite, Option.map_eq_none_iff, find?_eq_none]
  intro w _ both
  obtain ⟨wire, same⟩ := Bool.and_eq_true_iff.mp both
  rw [beq_iff_eq.mp same] at wire
  cases wire

private theorem written_or (l m : Option (Option SigBit)) (value : SigBit) :
    written (m.or l) value = written m (written l value) := by
  cases m <;> rfl

private theorem isWire_of_mem_caseTargets {cases : List CaseRule} (h : bit ∈ caseTargets cases) :
    bit.isWire = true := by
  rw [caseTargets_eq] at h
  obtain ⟨cs, -, inside⟩ := mem_flatMap.mp h
  clear h
  induction cs using CaseRule.byCases with
  | step cs ih =>
    rcases CaseRule.mem_targets.mp inside with ⟨a, -, target⟩ | ⟨sw, hsw, c, hc, target⟩
    · exact (Action.mem_targets.mp target).2
    · exact ih sw hsw c hc target

private theorem lastWrite_unknown {targets : List SigBit} (wires : ∀ b ∈ targets, b.isWire = true) :
    lastWrite (targets.map (·, none)) bit = if bit ∈ targets then some none else none := by
  induction targets with
  | nil => rfl
  | cons b targets ih =>
    rw [map_cons, lastWrite_cons, ih fun c hc => wires c (by simp [hc])]
    by_cases inside : bit ∈ targets
    · simp [inside]
    · by_cases same : b = bit
      · subst same
        simp [inside, wires b (by simp)]
      · simp [inside, same, Ne.symm same]

private theorem replaceBit_written (pairs : List (SigBit × SigBit)) (value : SigBit) :
    replaceBit pairs bit value =
      written (lastWrite (pairs.map (fun p => (p.1, some p.2))) bit) value := by
  induction pairs generalizing value with
  | nil => rfl
  | cons p pairs ih =>
    rw [map_cons, lastWrite_cons, written_or, ← ih, replaceBit, foldl_cons, ← replaceBit]
    congr 1
    rw [Bool.beq_comm]
    split <;> rfl

private theorem foldl_written {writes : α → Writes} {l : List α}
    (each : ∀ x ∈ l, ∀ value, f value x = written (lastWrite (writes x) bit) value) (value : SigBit) :
    l.foldl f value = written (lastWrite (l.flatMap writes) bit) value := by
  induction l generalizing value with
  | nil => rfl
  | cons x l ih =>
    rw [forall_mem_cons] at each
    rw [foldl_cons, each.1, ih each.2, flatMap_cons, lastWrite_append, written_or]

private theorem applySwitch_untested (tested : test sw.signal = none)
    (untested : ∀ cs ∈ sw.cases, cs.Every (fun sw => test sw.signal = none)) (value : SigBit) :
    applySwitch test bit false sw value = written (lastWrite (switchWrites test sw) bit) value := by
  rw [applySwitch_none tested, applyCases_unknown fun c hc => applyConst_unknown (untested c hc),
    switchWrites_none tested, lastWrite_unknown fun _ => isWire_of_mem_caseTargets]
  by_cases member : bit ∈ caseTargets sw.cases
  · rw [mark, if_pos member, if_pos member]
    rfl
  · have outside : ∀ c ∈ sw.cases, bit ∉ c.targets :=
      fun c hc inside => member (by rw [caseTargets_eq]; exact mem_flatMap.mpr ⟨c, hc, inside⟩)
    rw [mark, if_neg member, if_neg member]
    exact entered_fixed fun c hc => applyConst_of_not_mem (outside c hc) false value

private theorem applyTaken_written
    (each : ∀ c ∈ cases, ∀ value, applyConst test bit false c value =
      written (lastWrite (resetWrites test c) bit) value) (value : SigBit) :
    applyTaken test bit polarity cases value =
      written (lastWrite (takenWrites test polarity cases) bit) value := by
  induction cases with
  | nil => rw [applyTaken, takenWrites]; rfl
  | cons c rest ih =>
    rw [applyTaken, takenWrites]
    split
    · exact each c (by simp) value
    · exact ih fun c' h' => each c' (by simp [h'])

/-- The abstract interpreter computes the last assignment made with the reset active. -/
private theorem applyConst_written (separate : cs.Every (Separate test)) (value : SigBit)
    (wide : ∀ signal polarity, test signal = some polarity → signal.length ≠ 0) :
    applyConst test bit false cs value = written (lastWrite (resetWrites test cs) bit) value := by
  induction cs using CaseRule.byCases generalizing value with
  | step cs ih =>
    have switches : ∀ sw ∈ cs.switches, ∀ value, applySwitch test bit false sw value =
        written (lastWrite (switchWrites test sw) bit) value := by
      intro sw hsw value
      obtain ⟨here, below⟩ := SwitchRule.every_iff.mp (CaseRule.every_iff.mp separate sw hsw)
      cases tested : test sw.signal with
      | none => exact applySwitch_untested tested (here.untested tested) value
      | some polarity =>
        rw [applySwitch_some tested, entered, if_neg (wide _ _ tested), switchWrites_some tested]
        exact applyTaken_written (fun c hc value => ih sw hsw c hc (below c hc) value) value
    have actions : ∀ value, cs.actions.foldl (applyAction bit false) value =
        written (lastWrite (cs.actions.flatMap actionWrites) bit) value :=
      foldl_written fun a _ value => replaceBit_written a.pairs value
    rw [applyConst_eq, applySwitches_eq, resetWrites_eq, lastWrite_append, written_or, actions,
      foldl_written switches]

/-- What the tree makes of a bit agrees with its last assignment, if that is sure. -/
def Agrees (v : Valuation) (last : Option (Option SigBit)) (before after : Option State) : Prop :=
  match last with
  | none => after = before
  | some none => True
  | some (some r) => after = some (bitState v r)

theorem Agrees.trans {l m : Option (Option SigBit)} {a b c : Option State} (first : Agrees v l a b)
    (second : Agrees v m b c) : Agrees v (m.or l) a c := by
  rcases m with - | - | r
  · rw [show b = c from Eq.symm second] at first
    exact first
  · exact second
  · exact second

private theorem foldl_agrees {writes : α → Writes} {g : Assigned → α → Assigned} {l : List α}
    (each : ∀ x ∈ l, ∀ s, Agrees v (lastWrite (writes x) bit) (s bit) (g s x bit)) (s : Assigned) :
    Agrees v (lastWrite (l.flatMap writes) bit) (s bit) (l.foldl g s bit) := by
  induction l generalizing s with
  | nil => exact rfl
  | cons x l ih =>
    rw [forall_mem_cons] at each
    rw [flatMap_cons, lastWrite_append, foldl_cons]
    exact (each.1 s).trans (ih each.2 (g s x))

private theorem assign_agrees (a : Action) (s : Assigned) :
    Agrees v (lastWrite (actionWrites a) bit) (s bit) (a.assign v s bit) := by
  unfold actionWrites Action.assign
  generalize a.pairs = pairs
  induction pairs generalizing s with
  | nil => exact rfl
  | cons p pairs ih =>
    rw [map_cons, lastWrite_cons, foldl_cons]
    refine Agrees.trans ?_ (ih (assignBit v s p))
    by_cases wire : p.1.isWire = true
    · by_cases same : p.1 = bit
      · subst same
        simp [Agrees, assignBit, wire]
      · simp [Agrees, assignBit, wire, same, Function.update_of_ne (Ne.symm same)]
    · simp [Agrees, assignBit, wire]

/-- The tests of the tree have their values: the reset is active. -/
def Active (v : Valuation) (test : SigSpec → Option Bool) : Prop :=
  ∀ signal polarity, test signal = some polarity → sigConst v signal = [State.ofBool polarity]

private theorem choose_taken {signal : SigSpec} {s : Assigned}
    (active : sigConst v signal = [State.ofBool polarity])
    (patterns : ∀ cs ∈ cases, ∀ pattern ∈ cs.compare, pattern = [.const .S0] ∨ pattern = [.const .S1])
    (each : ∀ cs ∈ cases, Agrees v (lastWrite (resetWrites test cs) bit) (s bit) (cs.exec v s bit)) :
    Agrees v (lastWrite (takenWrites test polarity cases) bit) (s bit)
      (choose (CaseRule.matches v signal) (CaseRule.exec v) cases s bit) := by
  induction cases with
  | nil => rw [takenWrites]; exact rfl
  | cons c rest ih =>
    have same : c.matches v signal = (takenAt polarity c || c.compare.isEmpty) := by
      rw [CaseRule.matches, hits_eq_takenAt active (patterns c (by simp)), Bool.or_comm]
    rw [takenWrites, choose, same]
    split
    · exact each c (by simp)
    · exact ih (fun c' h' => patterns c' (by simp [h'])) (fun c' h' => each c' (by simp [h']))

theorem exec_agrees (active : Active v test) (separate : cs.Every (Separate test)) (s : Assigned) :
    Agrees v (lastWrite (resetWrites test cs) bit) (s bit) (cs.exec v s bit) := by
  induction cs using CaseRule.byCases generalizing s with
  | step cs ih =>
    rw [CaseRule.exec_eq, execSwitches_foldl, resetWrites_eq, lastWrite_append]
    refine (foldl_agrees (fun a _ s => assign_agrees a s) s).trans (foldl_agrees (fun sw hsw s => ?_) _)
    obtain ⟨here, below⟩ := SwitchRule.every_iff.mp (CaseRule.every_iff.mp separate sw hsw)
    cases tested : test sw.signal with
    | none =>
      rw [switchWrites_none tested, lastWrite_unknown fun _ => isWire_of_mem_caseTargets]
      split
      · exact True.intro
      · rename_i outside
        rw [SwitchRule.exec_eq]
        refine choose_preserves (P := fun t : Assigned => t bit = s bit) (fun c hc t ht => ?_) rfl
        rw [CaseRule.exec_of_not_mem v c (fun inside => outside ?_), ht]
        rw [caseTargets_eq]
        exact mem_flatMap.mpr ⟨c, hc, inside⟩
    | some polarity =>
      rw [switchWrites_some tested, SwitchRule.exec_eq]
      exact choose_taken (active _ _ tested) (here.patterns polarity tested)
        (fun c hc => ih sw hsw c hc (below c hc) s)

/-- What `apply_reset` reads: the test against the reset, the aliases and the decision tree. -/
structure ResetTree where
  test : SigSpec → Option Bool
  assignMap : SigBit → SigBit
  root : CaseRule

namespace ResetTree

section

variable (tree : ResetTree)

/-- The aliases are those of a `SigMap`, and the tests stand where `apply_const` expects them. -/
structure Regular : Prop where
  idempotent : ∀ b, tree.assignMap (tree.assignMap b) = tree.assignMap b
  constant : ∀ data, tree.assignMap (.const data) = .const data
  wide : ∀ signal polarity, tree.test signal = some polarity → signal.length ≠ 0
  separate : tree.root.Every (Separate tree.test)

abbrev last : SigBit → Option (Option SigBit) := lastWrite (resetWrites tree.test tree.root)

/-- With the reset active the value of a bit is that of another one, or of a constant. -/
def Source (b c : SigBit) : Prop := ∃ r, tree.last b = some (some r) ∧ c = tree.assignMap r

abbrev Sources : SigBit → SigBit → Prop := Relation.ReflTransGen tree.Source

/-- The value of a bit comes from one that a switch not decided by the reset may assign, or is that
of a wire which is not assigned at all. -/
def Stuck (b : SigBit) : Prop :=
  ∃ c, tree.Sources (tree.assignMap b) c ∧
    (c = .const .Sm ∨ tree.last c = some none ∨
      c = tree.assignMap b ∧ c.isWire = true ∧ tree.last c = none)

/-- The value of a bit comes from another one over a hundred or more assignments. -/
def Endless (b : SigBit) : Prop :=
  ∃ path : Nat → SigBit, path 0 = tree.assignMap b ∧ ∀ i < 100, tree.Source (path i) (path (i + 1))

/-- The bit that is stored for another: its value comes from there and from no other bit. -/
structure Stored (b c : SigBit) : Prop where
  comes : tree.Sources (tree.assignMap b) c
  last : c.isWire = true → tree.last c = none ∨ tree.Source c c

/-- The bit of `rval` for a bit of the signal after some rounds of `apply_reset`. -/
def valueAt : Nat → SigBit → SigBit
  | 0, b => if (tree.assignMap b).isWire then .const .Sm else tree.assignMap b
  | k + 1, b =>
    let value := valueAt k b
    tree.assignMap
      (applyConst tree.test (if k = 0 then tree.assignMap b else value) false tree.root value)

/-- The bit of `rspec` in that round. -/
def bitAt (k : Nat) (b : SigBit) : SigBit := if k = 0 then tree.assignMap b else tree.valueAt k b

private theorem bitAt_succ (k : Nat) : tree.bitAt (k + 1) = tree.valueAt (k + 1) :=
  funext fun _ => if_neg (by omega)

/-- When the evaluation of a signal raises an error, and which. -/
def Raises (reset sig logSig : SigSpec) (e : ArstError) : Prop :=
  ((∃ value, e = .endlessLoop reset value logSig) ∧ ∃ b ∈ sig, tree.Endless b) ∨
    ((∃ value, e = .nonConstant reset value logSig) ∧ ∃ b ∈ sig, tree.Stuck b)

/-- The values that `apply_reset` leaves its loop with. -/
def Final (sig value : SigSpec) : Prop :=
  ∃ j, value = sig.map (tree.valueAt j) ∧ (sig ≠ [] → j ≠ 0) ∧
    ∀ b ∈ sig, (tree.valueAt j b).isWire = true → tree.valueAt j b = tree.valueAt (j - 1) b

def LastAt (sig : SigSpec) (k : Nat) (last : SigSpec) : Prop :=
  (k = 0 ∧ last = []) ∨ ∃ j, k = j + 1 ∧ last = sig.map (tree.valueAt j)

end

variable {tree : ResetTree} {reset sig logSig : SigSpec}

private theorem last_const (data : State) : tree.last (.const data) = none := lastWrite_const _ _

private theorem resetRound_eq (k : Nat) :
    (List.zipWith (fun bit value => applyConst tree.test bit false tree.root value)
        (sig.map (tree.bitAt k)) (sig.map (tree.valueAt k))).map tree.assignMap =
      sig.map (tree.valueAt (k + 1)) := by
  rw [zipWith_map, zipWith_self, map_map]
  rfl

private theorem Final.of_same {k : Nat} {last : SigSpec} (previous : tree.LastAt sig k last)
    (same : sig.map (tree.valueAt k) = last) : tree.Final sig (sig.map (tree.valueAt k)) := by
  refine ⟨k, rfl, ?_⟩
  rcases previous with ⟨rfl, rfl⟩ | ⟨j, rfl, rfl⟩
  · rw [map_eq_nil_iff] at same
    exact ⟨fun some => absurd same some, by simp [same]⟩
  · exact ⟨fun _ => by omega, fun b member _ => map_inj_left.mp same b member⟩

theorem Final.of_const {k : Nat} (const : isFullyConst (sig.map (tree.valueAt (k + 1))) = true) :
    tree.Final sig (sig.map (tree.valueAt (k + 1))) := by
  refine ⟨k + 1, rfl, fun _ => by omega, fun b member wire => ?_⟩
  have := all_eq_true.mp const _ (mem_map_of_mem member)
  rw [wire] at this
  cases this

private theorem resetLoop_returns (k left : Nat) (count : k + left = 101) {last : SigSpec}
    (previous : tree.LastAt sig k last) :
    Returns (fun e => (∃ value, e = .endlessLoop reset value logSig) ∧
        ∃ b ∈ sig, tree.valueAt 101 b ≠ tree.valueAt 100 b)
      (resetLoop tree.test tree.assignMap tree.root reset logSig left (sig.map (tree.bitAt k))
        (sig.map (tree.valueAt k)) last)
      (tree.Final sig) := by
  induction left generalizing k last with
  | zero =>
    unfold resetLoop
    rw [resetRound_eq]
    split
    · rename_i same
      exact Final.of_same previous same
    · rename_i moved
      dsimp only
      split
      · rename_i const
        exact Final.of_const const
      · refine ⟨⟨_, rfl⟩, ?_⟩
        obtain rfl : k = 101 := by omega
        rcases previous with ⟨zero, -⟩ | ⟨j, next, rfl⟩
        · cases zero
        · obtain rfl : j = 100 := by omega
          simpa using mt map_inj_left.mpr moved
  | succ left ih =>
    unfold resetLoop
    rw [resetRound_eq]
    split
    · rename_i same
      exact Final.of_same previous same
    · dsimp only
      split
      · rename_i const
        exact Final.of_const const
      · have later := ih (k + 1) (by omega) (.inr ⟨k, rfl, rfl⟩)
        rwa [bitAt_succ] at later

variable (regular : tree.Regular)

include regular

private theorem valueAt_one (b : SigBit) :
    tree.valueAt 1 b = tree.assignMap (written (tree.last (tree.assignMap b)) (tree.valueAt 0 b)) := by
  rw [← applyConst_written regular.separate _ regular.wide]
  rfl

private theorem valueAt_succ (k : Nat) (b : SigBit) :
    tree.valueAt (k + 2) b = tree.assignMap
      (written (tree.last (tree.valueAt (k + 1) b)) (tree.valueAt (k + 1) b)) := by
  rw [valueAt, if_neg (by omega), applyConst_written regular.separate _ regular.wide]

private theorem valueAt_stays {k : Nat} {b : SigBit}
    (same : tree.valueAt (k + 2) b = tree.valueAt (k + 1) b) :
    tree.valueAt (k + 3) b = tree.valueAt (k + 2) b := by
  rw [valueAt_succ regular (k + 1) b, same]
  exact (valueAt_succ regular k b).symm.trans same

/-- What a round makes of the value of a bit: it stays, it becomes unknown, or it comes from the
bit's last assignment. -/
private theorem valueAt_step (k : Nat) (b : SigBit) :
    tree.valueAt (k + 2) b = tree.valueAt (k + 1) b ∨
      (tree.valueAt (k + 2) b = .const .Sm ∧ tree.last (tree.valueAt (k + 1) b) = some none) ∨
      tree.Source (tree.valueAt (k + 1) b) (tree.valueAt (k + 2) b) := by
  have fixed : tree.assignMap (tree.valueAt (k + 1) b) = tree.valueAt (k + 1) b := by
    rw [valueAt, regular.idempotent]
  rw [valueAt_succ regular]
  rcases last : tree.last (tree.valueAt (k + 1) b) with - | - | r
  · exact .inl fixed
  · exact .inr (.inl ⟨regular.constant .Sm, rfl⟩)
  · exact .inr (.inr ⟨r, last, rfl⟩)

private theorem valueAt_first (b : SigBit) :
    (tree.valueAt 1 b = tree.assignMap b ∧ (tree.assignMap b).isWire = false) ∨
      (tree.valueAt 1 b = .const .Sm ∧ tree.Stuck b) ∨
      tree.Source (tree.assignMap b) (tree.valueAt 1 b) := by
  rw [valueAt_one regular]
  rcases last : tree.last (tree.assignMap b) with - | - | r
  · cases wire : (tree.assignMap b).isWire with
    | false => exact .inl ⟨by simp [written, valueAt, wire, regular.idempotent], rfl⟩
    | true =>
      refine .inr (.inl ⟨by simp [written, valueAt, wire, regular.constant], ?_⟩)
      exact ⟨tree.assignMap b, .refl, .inr (.inr ⟨rfl, wire, last⟩)⟩
  · exact .inr (.inl ⟨regular.constant .Sm, tree.assignMap b, .refl, .inr (.inl last)⟩)
  · exact .inr (.inr ⟨r, last, rfl⟩)

private theorem valueAt_comes (k : Nat) (b : SigBit) :
    tree.Sources (tree.assignMap b) (tree.valueAt (k + 1) b) ∨
      (tree.valueAt (k + 1) b = .const .Sm ∧ tree.Stuck b) := by
  induction k with
  | zero =>
    rcases valueAt_first regular b with ⟨same, -⟩ | stuck | source
    · exact .inl (same ▸ .refl)
    · exact .inr stuck
    · exact .inl (.single source)
  | succ k ih =>
    rcases valueAt_step regular k b with same | ⟨unknown, last⟩ | source
    · rwa [same]
    · rcases ih with comes | ⟨marked, stuck⟩
      · exact .inr ⟨unknown, _, comes, .inr (.inl last)⟩
      · exact .inr ⟨unknown, stuck⟩
    · rcases ih with comes | ⟨marked, -⟩
      · exact .inl (comes.tail source)
      · obtain ⟨r, last, -⟩ := source
        rw [marked, last_const] at last
        cases last

theorem stuck_of_marked {k : Nat} {b : SigBit} (marked : tree.valueAt (k + 1) b = .const .Sm) :
    tree.Stuck b := by
  rcases valueAt_comes regular k b with comes | ⟨-, stuck⟩
  · exact ⟨_, marked ▸ comes, .inl rfl⟩
  · exact stuck

/-- As long as the value changes, it comes from the last assignment in every round. -/
private theorem valueAt_path {k : Nat} {b : SigBit}
    (moves : tree.valueAt (k + 2) b ≠ tree.valueAt (k + 1) b) :
    ∀ i ≤ k, tree.Source (tree.bitAt i b) (tree.bitAt (i + 1) b) := by
  have assigned : tree.last (tree.valueAt (k + 1) b) ≠ none := by
    intro none
    rw [valueAt_succ regular, none] at moves
    refine moves ?_
    show tree.assignMap (tree.valueAt (k + 1) b) = _
    rw [valueAt, regular.idempotent]
  induction k with
  | zero =>
    intro i le
    obtain rfl : i = 0 := by omega
    rcases valueAt_first regular b with ⟨same, const⟩ | ⟨marked, -⟩ | source
    · cases mapped : tree.assignMap b with
      | wire w offset => rw [mapped] at const; cases const
      | const data => exact absurd (by rw [same, mapped, last_const]) assigned
    · exact absurd (by rw [marked, last_const]) assigned
    · exact source
  | succ k ih =>
    rcases valueAt_step regular k b with same | ⟨marked, -⟩ | source
    · exact absurd (valueAt_stays regular same) moves
    · exact absurd (by rw [marked, last_const]) assigned
    · have moved : tree.valueAt (k + 2) b ≠ tree.valueAt (k + 1) b :=
        fun same => moves (valueAt_stays regular same)
      intro i le
      rcases Nat.lt_or_ge i (k + 1) with lt | ge
      · refine ih moved (fun none => ?_) i (by omega)
        obtain ⟨r, last, -⟩ := source
        rw [none] at last
        cases last
      · obtain rfl : i = k + 1 := by omega
        rwa [bitAt_succ, bitAt_succ]

private theorem Final.stored {value : SigSpec} (final : tree.Final sig value)
    (unmarked : ∀ c ∈ value, c ≠ .const .Sm) : List.Forall₂ tree.Stored sig value := by
  obtain ⟨j, rfl, started, settled⟩ := final
  rw [forall₂_map_right_iff, forall₂_same]
  intro b member
  obtain ⟨k, rfl⟩ : ∃ k, j = k + 1 :=
    Nat.exists_eq_succ_of_ne_zero (started (ne_nil_of_mem member))
  have known := unmarked _ (mem_map_of_mem member)
  refine ⟨?_, fun wire => ?_⟩
  · exact (valueAt_comes regular k b).resolve_right fun marked => known marked.1
  · have same := settled b member wire
    rw [Nat.add_sub_cancel] at same
    cases k with
    | zero =>
      rw [same, valueAt] at wire
      split at wire
      · cases wire
      · rename_i const
        exact absurd wire const
    | succ k =>
      have round := valueAt_succ regular k b
      rw [← same] at round
      rcases last : tree.last (tree.valueAt (k + 2) b) with - | - | r
      · exact .inl rfl
      · rw [last] at round
        exact absurd (round.trans (regular.constant .Sm)) known
      · rw [last] at round
        exact .inr ⟨r, last, round⟩

private theorem Final.stuck {value : SigSpec} (final : tree.Final sig value)
    (marked : .const .Sm ∈ value) : ∃ b ∈ sig, tree.Stuck b := by
  obtain ⟨j, rfl, started, -⟩ := final
  obtain ⟨b, member, unknown⟩ := mem_map.mp marked
  obtain ⟨k, rfl⟩ : ∃ k, j = k + 1 :=
    Nat.exists_eq_succ_of_ne_zero (started (ne_nil_of_mem member))
  exact ⟨b, member, stuck_of_marked regular unknown⟩

theorem applyReset_returns :
    Returns (tree.Raises reset sig logSig)
      (applyReset tree.test tree.assignMap tree.root reset sig logSig)
      (List.Forall₂ tree.Stored sig) := by
  have loop : Returns (tree.Raises reset sig logSig)
      (resetLoop tree.test tree.assignMap tree.root reset logSig 101 (sig.map tree.assignMap)
        ((sig.map tree.assignMap).map (fun b => if b.isWire then .const .Sm else b)) [])
      (tree.Final sig) := by
    rw [map_map]
    refine Returns.weaken (resetLoop_returns 0 101 rfl (.inl ⟨rfl, rfl⟩)) fun e raised => ?_
    obtain ⟨shown, b, member, moves⟩ := raised
    refine .inl ⟨shown, b, member, ?_⟩
    exact ⟨fun i => tree.bitAt i b, rfl, fun i lt => valueAt_path regular moves i (by omega)⟩
  unfold applyReset
  refine loop.bind fun value final => ?_
  split
  · rename_i marked
    refine .inr ⟨⟨_, rfl⟩, final.stuck regular ?_⟩
    simpa using marked
  · rename_i unmarked
    refine final.stored regular fun c member same => unmarked ?_
    exact any_eq_true.mpr ⟨c, member, by simp [same]⟩

end ResetTree

variable {tree : ResetTree}

/-- The wires have settled: each bit that the tree assigns has the value assigned to it. -/
def Settled (v : Valuation) (root : CaseRule) : Prop :=
  ∀ b x, root.exec v (fun _ => none) b = some x → Refines x (bitState v b)

/-- No wire is assigned or connected to an undefined value. -/
structure Definite (v : Valuation) (assignMap : SigBit → SigBit) (root : CaseRule) : Prop where
  assigned : ∀ b x, root.exec v (fun _ => none) b = some x → x.isDef = true
  connected : ∀ b : SigBit, b.isWire = true → (bitState v (assignMap b)).isDef = true

/-- The bit has the value of another one, or none where undefined values are involved. -/
def Carries (v : Valuation) (assignMap : SigBit → SigBit) (root : CaseRule) (b c : SigBit) : Prop :=
  Refines (bitState v c) (bitState v b) ∧
    (Definite v assignMap root → bitState v c = bitState v b)

theorem Carries.trans {assignMap : SigBit → SigBit} {root : CaseRule} {b c d : SigBit}
    (first : Carries v assignMap root b c) (second : Carries v assignMap root c d) : Carries v assignMap root b d :=
  ⟨refines_trans second.1 first.1, fun definite => (second.2 definite).trans (first.2 definite)⟩

section

variable (aliases : ∀ b, Refines (bitState v (tree.assignMap b)) (bitState v b)) (regular : tree.Regular)

include aliases regular

theorem alias_carries (b : SigBit) : Carries v tree.assignMap tree.root b (tree.assignMap b) := by
  refine ⟨aliases b, fun definite => ?_⟩
  cases b with
  | wire w offset => exact (aliases _ (definite.connected _ rfl)).symm
  | const data => rw [regular.constant]

variable (active : Active v tree.test) (settled : Settled v tree.root)

include active settled

private theorem source_carries {b c : SigBit} (source : tree.Source b c) :
    Carries v tree.assignMap tree.root b c := by
  obtain ⟨r, last, rfl⟩ := source
  have assigned : tree.root.exec v (fun _ => none) b = some (bitState v r) := by
    have agrees : Agrees v (tree.last b) none _ := exec_agrees active regular.separate (fun _ => none)
    rwa [last] at agrees
  have direct : Carries v tree.assignMap tree.root b r :=
    ⟨settled b _ assigned,
      fun definite => (settled b _ assigned (definite.assigned b _ assigned)).symm⟩
  exact direct.trans (alias_carries aliases regular r)

/-- With the reset active and the wires settled, a stored bit has the value it is stored for. -/
theorem ResetTree.Stored.carries {b c : SigBit} (stored : tree.Stored b c) :
    Carries v tree.assignMap tree.root b c := by
  refine (alias_carries aliases regular b).trans ?_
  refine stored.comes.head_induction_on ⟨Refines.refl _, fun _ => rfl⟩ fun source _ later => ?_
  exact (source_carries aliases regular active settled source).trans later

end

end ManticoreFrontend.Passes.ProcArstReset
