/- source: passes/proc/proc_arst.cc
   digest: Runs of the pass: what its level-sensitive rules store, what the tree that is left assigns, and when an error is raised. -/

import ManticoreFrontend.Passes.ProcArstElim

namespace ManticoreFrontend.Passes.ProcArstRuns

open Option

open Foundation.Outcome hiding check
open Kernel.CellTypes hiding evalCell
open Foundation.GuardedChoice Kernel Constants Signals SigTools Netlist InformationOrder Processes
open AliasValues
open Kernel.CellChecker (check evalCell)
open ProcCleanRuns ProcArst ProcArstReset ProcArstElim

variable {v : Valuation} {tree : ResetTree} {sync level : SyncRule}

/-- When the conversion of a rule raises an error, and which: the value of a signal cannot be found,
or a memory is written. -/
def Refused (tree : ResetTree) (sync : SyncRule) (e : ArstError) : Prop :=
  (∃ a ∈ sync.actions, tree.Raises sync.signal a.rhs a.lhs e) ∨
    ∃ w ∈ sync.memWriteActions,
      (∃ sig ∈ [w.enable, w.address, w.data], tree.Raises sync.signal sig sig e) ∨
      (e = .memoryWrite sync.signal w.memid ∧ ∃ value,
        List.Forall₂ tree.Stored w.enable value ∧ SigSpec.isFullyZero value = false)

structure Converted (tree : ResetTree) (sync level : SyncRule) : Prop where
  type : level.type = levelType sync.type
  signal : level.signal = sync.signal
  writes : level.memWriteActions = []
  actions : List.Forall₂ (fun a b => b.lhs = a.lhs ∧ List.Forall₂ tree.Stored a.rhs b.rhs)
    sync.actions level.actions
  disabled : ∀ w ∈ sync.memWriteActions, ∃ value,
    List.Forall₂ tree.Stored w.enable value ∧ SigSpec.isFullyZero value = true

section

variable (regular : tree.Regular)

include regular

private theorem resetAction_returns (reset : SigSpec) (a : Action) :
    Returns (tree.Raises reset a.rhs a.lhs) (resetAction tree.test tree.assignMap tree.root reset a)
      (fun b => b.lhs = a.lhs ∧ List.Forall₂ tree.Stored a.rhs b.rhs) := by
  refine (ResetTree.applyReset_returns regular).bind fun value stored => ?_
  have length : a.lhs.length = value.length := a.length.trans stored.length_eq
  rw [dif_pos length]
  exact ⟨rfl, stored⟩

private theorem checkWrite_returns {w : MemWriteAction} (member : w ∈ sync.memWriteActions) :
    Returns (Refused tree sync) (checkWrite tree.test tree.assignMap tree.root sync.signal w)
      (fun _ => ∃ value, List.Forall₂ tree.Stored w.enable value ∧
        SigSpec.isFullyZero value = true) := by
  have evaluated : ∀ sig ∈ [w.enable, w.address, w.data], Returns (Refused tree sync)
      (applyReset tree.test tree.assignMap tree.root sync.signal sig sig)
      (List.Forall₂ tree.Stored sig) := fun sig listed =>
    (ResetTree.applyReset_returns regular).weaken
      fun e raised => .inr ⟨w, member, .inl ⟨sig, listed, raised⟩⟩
  refine (evaluated w.enable (by simp)).bind fun enable stored => ?_
  cases zero : SigSpec.isFullyZero enable with
  | false => exact .inr ⟨w, member, .inr ⟨rfl, enable, stored, zero⟩⟩
  | true =>
    refine (evaluated w.address (by simp)).bind fun _ _ => ?_
    exact (evaluated w.data (by simp)).bind fun _ _ => ⟨enable, stored, zero⟩

private theorem convert_returns (sync : SyncRule) :
    Returns (Refused tree sync) (convert tree.test tree.assignMap tree.root sync) (fun result =>
      Converted tree sync result.1 ∧ eliminateConst tree.test tree.root = some result.2) := by
  refine (Returns.mapM fun a member => (resetAction_returns regular sync.signal a).weaken
    fun e raised => .inl ⟨a, member, raised⟩).bind fun actions values => ?_
  refine (Returns.forM fun w member => checkWrite_returns regular member).bind fun _ disabled => ?_
  obtain ⟨reduced, done⟩ := eliminateConst_returns tree.test tree.root
  rw [done]
  exact ⟨⟨rfl, rfl, rfl, values, disabled⟩, rfl⟩

end

/-- The stored values are those of the right sides, and no memory is written. -/
def Stores (v : Valuation) (assignMap : SigBit → SigBit) (root : CaseRule) (sync level : SyncRule) :
    Prop :=
  List.Forall₂ (fun a b => b.lhs = a.lhs ∧ List.Forall₂ (Carries v assignMap root) a.rhs b.rhs)
      sync.actions level.actions ∧
    ∀ w ∈ sync.memWriteActions, ∀ b ∈ w.enable, bitState v b = .S0

private theorem Converted.stores (converted : Converted tree sync level)
    (aliases : ∀ b, Refines (bitState v (tree.assignMap b)) (bitState v b)) (regular : tree.Regular)
    (active : Active v tree.test) (settled : Settled v tree.root) :
    Stores v tree.assignMap tree.root sync level := by
  have carries : ∀ {b c}, tree.Stored b c → Carries v tree.assignMap tree.root b c :=
    fun stored => stored.carries aliases regular active settled
  refine ⟨converted.actions.imp fun a b h => ⟨h.1, h.2.imp fun _ _ => carries⟩, fun w member => ?_⟩
  obtain ⟨value, stored, zero⟩ := converted.disabled w member
  generalize w.enable = enable at stored
  clear converted
  induction stored with
  | nil => simp
  | @cons b c _ _ head _ ih =>
    rw [SigSpec.isFullyZero, List.all_cons, Bool.and_eq_true] at zero
    refine List.forall_mem_cons.mpr ⟨?_, ih zero.2⟩
    obtain rfl : c = .const .S0 := by simpa using zero.1
    exact (carries head).1 rfl

/-- A tree that runs as another in a settled state of the wires stores the same. -/
theorem Stores.of_run {assignMap : SigBit → SigBit} {root root' : CaseRule}
    (run : ∀ s, root'.exec v s = root.exec v s) (stores : Stores v assignMap root' sync level) : Stores v assignMap root sync level := by
  refine ⟨stores.1.imp fun a b h => ⟨h.1, h.2.imp fun b c carries => ⟨carries.1, fun definite => ?_⟩⟩,
    stores.2⟩
  exact carries.2 ⟨fun b x assigned => definite.assigned b x (run _ ▸ assigned), definite.connected⟩

def activeLevel (sync : SyncRule) : Bool := sync.type == .STp

/-- The signal of an edge event has the value it has after the edge. -/
def Fires (v : Valuation) (sync : SyncRule) : Prop :=
  sigConst v sync.signal = [State.ofBool (activeLevel sync)]

def Rests (v : Valuation) (sync : SyncRule) : Prop :=
  sigConst v sync.signal = [State.ofBool (!activeLevel sync)]

/-- The test of the decision tree that the pass uses while it converts an event which decides the
switch with the given selector. -/
def resetTest (mod : Module) (selector : SigSpec) (polarity : Bool) : SigSpec → Option Bool :=
  fun signal => checkSignal mod.cells mod.cells.length signal selector polarity

variable {mod : Module} {selector : SigSpec} {polarity : Bool}

private theorem resetTest_wide (signal : SigSpec) (result : Bool)
    (found : resetTest mod selector polarity signal = some result) : signal.length ≠ 0 := by
  intro empty
  unfold resetTest checkSignal at found
  rw [if_pos (by omega)] at found
  cases found

private theorem resetTest_self {ref : SigSpec} {level : Bool} {fuel : Nat} (value : Bool)
    (decides : checkSignal mod.cells fuel selector ref level = some polarity) :
    resetTest mod selector value selector = some value := by
  have one : ¬ selector.length ≠ 1 := by
    intro wide
    unfold checkSignal at decides
    rw [if_pos wide] at decides
    cases decides
  unfold resetTest checkSignal
  rw [if_neg one, if_pos rfl]

section

variable (known : Understood v mod.cells)
  (decides : checkSignal mod.cells mod.cells.length selector sync.signal (activeLevel sync) =
    some polarity)

include known decides

theorem resetTest_active (fires : Fires v sync) : Active v (resetTest mod selector polarity) := by
  intro signal result found
  rw [checkSignal_value known found (checkSignal_value known decides fires)]
  cases activeLevel sync <;> cases polarity <;> cases result <;> rfl

theorem resetTest_inactive (rests : Rests v sync) : Inactive v (resetTest mod selector polarity) := by
  intro signal result found
  rw [checkSignal_value known found (checkSignal_value known decides rests)]
  cases activeLevel sync <;> cases polarity <;> cases result <;> rfl

theorem resetTest_clock (fires : Fires v sync) : Inactive v (resetTest mod selector (!polarity)) := by
  intro signal result found
  rw [checkSignal_value known found (checkSignal_value known decides fires)]
  cases activeLevel sync <;> cases polarity <;> cases result <;> rfl

end

/-- The event found in a round, and the rules around it. -/
structure Round (mod : Module) (st : Arst) (sw : SwitchRule) (before : List SyncRule)
    (sync : SyncRule) (after : List SyncRule) (polarity : Bool) : Prop where
  only : st.root.switches = [sw]
  found : findEvent mod.cells sw.signal st.edge = some (before, sync, after, polarity)

private theorem findEvent_some {cells : List Cell} {edge before after : List SyncRule}
    (found : findEvent cells selector edge = some (before, sync, after, polarity)) :
    edge = before ++ sync :: after ∧
      checkSignal cells cells.length selector sync.signal (activeLevel sync) = some polarity := by
  induction edge generalizing before with
  | nil => cases found
  | cons first rest ih =>
    unfold findEvent at found
    split at found
    · rename_i polarity' decides
      obtain ⟨rfl, rfl, rfl, rfl⟩ : [] = before ∧ first = sync ∧ rest = after ∧ polarity' = polarity := by
        simpa using found
      exact ⟨rfl, decides⟩
    · obtain ⟨r, later, same⟩ := map_eq_some_iff.mp found
      obtain ⟨before', sync', after', polarity'⟩ := r
      obtain ⟨rfl, rfl, rfl, rfl⟩ : first :: before' = before ∧ sync' = sync ∧ after' = after ∧
          polarity' = polarity := by simpa using same
      obtain ⟨rfl, decides⟩ := ih later
      exact ⟨rfl, decides⟩

variable {st : Arst} {sw : SwitchRule} {before after : List SyncRule}

private theorem Round.edge (round : Round mod st sw before sync after polarity) :
    st.edge = before ++ sync :: after := (findEvent_some round.found).1

private theorem Round.decides (round : Round mod st sw before sync after polarity) :
    checkSignal mod.cells mod.cells.length sw.signal sync.signal (activeLevel sync) = some polarity :=
  (findEvent_some round.found).2

/-- All that a round does. -/
private theorem arstRound_cases (mod : Module) (assignMap : SigBit → SigBit) (st : Arst) :
    arstRound mod.cells assignMap st = .ok none ∨
    ∃ sw before sync after polarity, Round mod st sw before sync after polarity ∧
      ((1 < st.edge.length ∧ arstRound mod.cells assignMap st =
          (convert (resetTest mod sw.signal polarity) assignMap st.root sync >>= fun r => .ok (some
            { root := r.2, arst := st.arst ++ [r.1], edge := before ++ after, didSomething := true }))) ∨
        (st.edge.length ≤ 1 ∧ ∃ root,
          eliminateConst (resetTest mod sw.signal (!polarity)) st.root = some root ∧
          arstRound mod.cells assignMap st =
            .ok (some { st with root := root, didSomething := true }))) := by
  unfold arstRound
  split
  · rename_i sw only
    split
    · exact .inl rfl
    · rename_i before sync after polarity found
      refine .inr ⟨sw, before, sync, after, polarity, ⟨only, found⟩, ?_⟩
      split
      · rename_i several
        exact .inl ⟨several, rfl⟩
      · rename_i single
        obtain ⟨root, done⟩ := eliminateConst_returns (resetTest mod sw.signal (!polarity)) st.root
        refine .inr ⟨by omega, root, done, ?_⟩
        unfold resetTest at done
        simp only [done]
  · exact .inl rfl

abbrev Reached (mod : Module) : Arst → Arst → Prop :=
  Relation.ReflTransGen fun a b =>
    arstRound mod.cells (apply (set mod.connections)) a = .ok (some b)

/-- The tree as a round reads it that converts the event. -/
def roundTree (mod : Module) (st : Arst) (selector : SigSpec) (polarity : Bool) : ResetTree :=
  ⟨resetTest mod selector polarity, apply (set mod.connections), st.root⟩

theorem roundTree_regular (separate : st.root.Every (Separate (resetTest mod selector polarity))) :
    (roundTree mod st selector polarity).Regular :=
  ⟨apply_apply mod.connections, apply_const mod.connections, resetTest_wide, separate⟩

/-- What a round relies on: tests of the event have single constant bits, not both in one case, and
if the event is converted they stand below no other switch. -/
def Ready (mod : Module) (st : Arst) : Prop :=
  ∀ sw before sync after polarity, Round mod st sw before sync after polarity →
    (∀ level, st.root.Every (Decisive (resetTest mod sw.signal level))) ∧
    (1 < st.edge.length → st.root.Every (Separate (resetTest mod sw.signal polarity)))

def RoundRefused (mod : Module) (st : Arst) (e : ArstError) : Prop :=
  ∃ sw before sync after polarity, Round mod st sw before sync after polarity ∧
    Refused (roundTree mod st sw.signal polarity) sync e

/-- What the pass does to a case: the steps of the clean-up, and the removal of tests. -/
inductive ArstStep (tests : (SigSpec → Option Bool) → Prop) : CaseRule → CaseRule → Prop
  | clean {cs result : CaseRule} (h : CleanStep cs result) : ArstStep tests cs result
  | eliminate {test : SigSpec → Option Bool} {cs result : CaseRule} (listed : tests test)
      (done : eliminateConst test cs = some result) : ArstStep tests cs result

/-- All that the rounds from a state on do: the rules they convert, with what these store where the
earlier ones rest, and the tree they leave. If the last event is taken as the clock, the tree is that
of an active clock. -/
structure Extracted (mod : Module) (V : Valuation → Prop) (st last : Arst)
    (converted : List (SyncRule × SyncRule)) (clocked : Bool) : Prop where
  arst : last.arst = st.arst ++ converted.map Prod.snd
  edge : (converted.map Prod.fst ++ last.edge).Perm st.edge
  single : st.edge.length ≤ 1 → converted = [] ∧ last.edge = st.edge
  clock : clocked = true → ∃ clk, last.edge = [clk]
  did : last.didSomething = false → last = st
  levels : ∀ front sync level back, converted = front ++ (sync, level) :: back →
    level.type = levelType sync.type ∧ level.signal = sync.signal ∧ level.memWriteActions = [] ∧
    ∀ v, V v → (∀ p ∈ front, Rests v p.1) → Fires v sync → Settled v st.root →
      Stores v (apply (set mod.connections)) st.root sync level
  tree : ∀ v, V v → (∀ p ∈ converted, Rests v p.1) →
    (clocked = true → ∀ clk ∈ last.edge, Fires v clk) → ∀ s, last.root.exec v s = st.root.exec v s

private theorem Extracted.refl (mod : Module) (V : Valuation → Prop) (st : Arst) :
    Extracted mod V st st [] false where
  arst := by simp
  edge := by simp
  single _ := ⟨rfl, rfl⟩
  clock := nofun
  did _ := rfl
  levels front sync level back none := by simp at none
  tree v _ _ _ s := rfl

section

variable {V : Valuation → Prop} {tests : (SigSpec → Option Bool) → Prop}

/-- What is known at a state of the loop of the valuations and of the tests still to come. -/
structure Known (mod : Module) (V : Valuation → Prop) (tests : (SigSpec → Option Bool) → Prop)
    (st : Arst) : Prop where
  cells : ∀ v, V v → Understood v mod.cells
  aliases : ∀ v, V v → Respects v mod.connections
  sound : ∀ v, V v → st.root.Every (Sound (ArstStep tests) v)
  listed : ∀ sync ∈ st.edge, ∀ selector polarity level,
    checkSignal mod.cells mod.cells.length selector sync.signal (activeLevel sync) = some polarity →
      tests (resetTest mod selector level)

/-- What is known after a round that reduced the tree. -/
private theorem Known.next (known : Known mod V tests st) {W : Valuation → Prop} {st' : Arst}
    (fewer : ∀ sync ∈ st'.edge, sync ∈ st.edge) (weaker : ∀ v, W v → V v)
    (sound : ∀ v, W v → st'.root.Every (Sound (ArstStep tests) v)) : Known mod W tests st' where
  cells v inside := known.cells v (weaker v inside)
  aliases v inside := known.aliases v (weaker v inside)
  sound := sound
  listed sync member := known.listed sync (fewer sync member)

variable (round : Round mod st sw before sync after polarity)
  {last : Arst} {converted : List (SyncRule × SyncRule)} {clocked : Bool} {root : CaseRule}

include round

/-- With the event at rest, or the clock active, the reduced tree runs as the tree did. -/
private theorem Round.reduces (known : Known mod V tests st) {level : Bool}
    (decisive : st.root.Every (Decisive (resetTest mod sw.signal level)))
    (done : eliminateConst (resetTest mod sw.signal level) st.root = some root) {v : Valuation}
    (inside : V v) (inactive : Inactive v (resetTest mod sw.signal level)) :
    Rewritten (ArstStep tests) v st.root root := by
  have listed : tests (resetTest mod sw.signal level) :=
    known.listed sync (by simp [round.edge]) _ _ level round.decides
  have covers : Covers (ArstStep tests) := fun _ _ h => .clean h
  obtain ⟨root', done', kept⟩ := eliminateConst_ends covers (fun _ _ h => .eliminate listed h) st.root
  obtain rfl : root' = root := some.inj (done'.symm.trans done)
  exact kept v inactive (known.sound v inside) decisive

/-- A round that converts a rule, and the rounds after it. -/
private theorem Extracted.convert (known : Known mod V tests st)
    (separate : st.root.Every (Separate (resetTest mod sw.signal polarity)))
    (reduces : ∀ v, V v → Rests v sync → ∀ s, root.exec v s = st.root.exec v s)
    (several : 1 < st.edge.length)
    (rule : Converted (roundTree mod st sw.signal polarity) sync level)
    (later : Extracted mod (fun v => V v ∧ Rests v sync)
      { root := root, arst := st.arst ++ [level], edge := before ++ after, didSomething := true }
      last converted clocked) :
    Extracted mod V st last ((sync, level) :: converted) clocked where
  arst := by rw [later.arst]; simp
  edge := by
    rw [round.edge]
    exact ((later.edge.cons sync).trans List.perm_middle.symm)
  single few := absurd few (by omega)
  clock := later.clock
  did none := by
    have same := later.did none
    rw [same] at none
    cases none
  levels front sync' level' back split := by
    cases front with
    | nil =>
      obtain ⟨⟨rfl, rfl⟩, rfl⟩ : (sync = sync' ∧ level = level') ∧ converted = back := by
        simpa using split
      refine ⟨rule.type, rule.signal, rule.writes, fun v inside _ fires settled => ?_⟩
      exact rule.stores (apply_refines (known.aliases v inside)) (roundTree_regular separate)
        (resetTest_active (known.cells v inside) round.decides fires) settled
    | cons first front =>
      obtain ⟨rfl, rest⟩ : (sync, level) = first ∧ converted = front ++ (sync', level') :: back := by
        simpa using split
      obtain ⟨type, signal, writes, stores⟩ := later.levels front sync' level' back rest
      refine ⟨type, signal, writes, fun v inside rests fires settled => ?_⟩
      rw [List.forall_mem_cons] at rests
      have run := reduces v inside rests.1
      have settled' : Settled v root := fun b x assigned => settled b x (run _ ▸ assigned)
      exact (stores v ⟨inside, rests.1⟩ rests.2 fires settled').of_run run
  tree v inside rests active s := by
    rw [List.forall_mem_cons] at rests
    rw [later.tree v ⟨inside, rests.1⟩ rests.2 active, reduces v inside rests.1]

/-- A round that takes the last event as the clock, and the rounds after it. -/
private theorem Extracted.clockRound
    (reduces : ∀ v, V v → Fires v sync → ∀ s, root.exec v s = st.root.exec v s)
    (few : st.edge.length ≤ 1)
    (later : Extracted mod (fun v => V v ∧ Fires v sync)
      { st with root := root, didSomething := true } last converted clocked) :
    Extracted mod V st last [] true := by
  obtain ⟨rfl, same⟩ := later.single few
  have only : st.edge = [sync] := by
    have edge := round.edge
    rw [edge, List.length_append, List.length_cons] at few
    have front : before = [] := List.length_eq_zero_iff.mp (by omega)
    have back : after = [] := List.length_eq_zero_iff.mp (by omega)
    rw [edge, front, back, List.nil_append]
  have edge : last.edge = [sync] := same.trans only
  refine ⟨later.arst, later.edge, fun _ => ⟨rfl, same⟩, fun _ => ⟨sync, edge⟩, fun none => ?_,
    fun front sync level back none => (by simp at none), fun v inside rests active s => ?_⟩
  · have same := later.did none
    rw [same] at none
    cases none
  · have fires : Fires v sync := active rfl sync (by simp [edge])
    rw [later.tree v ⟨inside, fires⟩ rests (fun _ => active rfl), reduces v inside fires]

end

private theorem Reached.refused {mod : Module} {st st' : Arst} {e : ArstError}
    (one : arstRound mod.cells (apply (set mod.connections)) st = .ok (some st'))
    (later : ∃ last, Reached mod st' last ∧ RoundRefused mod last e) :
    ∃ last, Reached mod st last ∧ RoundRefused mod last e := by
  obtain ⟨last, reached, refused⟩ := later
  exact ⟨last, .head one reached, refused⟩

theorem arstLoop_returns {V : Valuation → Prop} {tests : (SigSpec → Option Bool) → Prop} {fuel : Nat}
    (known : Known mod V tests st) (ready : ∀ st', Reached mod st st' → Ready mod st')
    (enough : st.root.size < fuel) :
    Returns (fun e => ∃ last, Reached mod st last ∧ RoundRefused mod last e)
      (arstLoop mod.cells (apply (set mod.connections)) fuel st)
      (fun last => ∃ converted clocked, Extracted mod V st last converted clocked) := by
  induction fuel generalizing st V with
  | zero => omega
  | succ fuel ih =>
    rw [arstLoop]
    rcases arstRound_cases mod (apply (set mod.connections)) st with
      ends | ⟨sw, before, sync, after, polarity, round, ⟨several, one⟩ | ⟨few, root, done, one⟩⟩
    · rw [ends]
      exact ⟨[], false, Extracted.refl mod V st⟩
    · obtain ⟨decisive, separate⟩ := ready st .refl sw before sync after polarity round
      have separate := separate several
      -- The conversion is looked at first: its errors are those of this round.
      have converts := convert_returns (roundTree_regular separate) sync
      unfold roundTree at converts
      cases result : ProcArst.convert (resetTest mod sw.signal polarity) (apply (set mod.connections))
          st.root sync with
      | error e =>
        rw [result] at converts one
        rw [one]
        exact ⟨st, .refl, sw, before, sync, after, polarity, round, converts⟩
      | ok r =>
        rw [result] at converts one
        rw [one]
        obtain ⟨rule, done⟩ := converts
        have reduced := fun v inside rests => round.reduces known (decisive polarity) done (v := v)
          inside (resetTest_inactive (known.cells v inside) round.decides rests)
        have smaller := eliminateConst_smaller round.only (resetTest_self _ round.decides) done
        refine Returns.mono (Returns.weaken (ih (V := fun v => V v ∧ Rests v sync)
          (known.next (fun s member => ?_) (fun v h => h.1) fun v h => (reduced v h.1 h.2).every)
          (fun st' reached => ready st' (.head one reached)) ?_) fun e => Reached.refused one) ?_
        · rw [round.edge]
          simp only [List.mem_append, List.mem_cons] at member ⊢
          tauto
        · simp only
          omega
        · rintro last ⟨converted, clocked, later⟩
          exact ⟨_, clocked, later.convert round known separate
            (fun v inside rests => (reduced v inside rests).run) several rule⟩
    · obtain ⟨decisive, -⟩ := ready st .refl sw before sync after polarity round
      rw [one]
      have reduced := fun v inside fires => round.reduces known (decisive (!polarity)) done (v := v)
        inside (resetTest_clock (known.cells v inside) round.decides fires)
      have smaller := eliminateConst_smaller round.only (resetTest_self _ round.decides) done
      refine Returns.mono (Returns.weaken (ih (V := fun v => V v ∧ Fires v sync)
        (known.next (fun s member => member) (fun v h => h.1) fun v h => (reduced v h.1 h.2).every)
        (fun st' reached => ready st' (.head one reached)) ?_) fun e => Reached.refused one) ?_
      · simp only
        omega
      · rintro last ⟨converted, clocked, later⟩
        exact ⟨[], true, later.clockRound round (fun v inside fires => (reduced v inside fires).run) few⟩

/-- The wires of a module have values that its cells and connections allow. -/
structure Consistent (v : Valuation) (mod : Module) : Prop where
  cells : ∀ cell ∈ mod.cells, CellHolds v cell
  connections : Respects v mod.connections

/-- A test that the pass may remove: of a selector that follows the signal of an edge event. -/
def EventTest (mod : Module) (proc : Process) (test : SigSpec → Option Bool) : Prop :=
  ∃ sync ∈ proc.syncs.filter isEdge, ∃ selector polarity level,
    checkSignal mod.cells mod.cells.length selector sync.signal (activeLevel sync) = some polarity ∧
      test = resetTest mod selector level

/-- What the pass relies on: comparisons with constants look at the truth value only, the clean-up
misjudges no switch, and every round is ready. -/
structure Convertible (mod : Module) (proc : Process) : Prop where
  comparisons : ∀ cell ∈ mod.cells, PlainComparison cell
  clean : ∀ v, Consistent v mod → proc.rootCase.Every (Clean (ArstStep (EventTest mod proc)) v)
  ready : ∀ st, Reached mod (startArst proc) st → Ready mod st

private theorem syncs_perm (syncs : List SyncRule) :
    syncs.Perm (syncs.filter isLevel ++ syncs.filter isEdge ++
      syncs.filter (fun sync => !isLevel sync && !isEdge sync)) := by
  have edges : (syncs.filter (fun sync => !isLevel sync)).filter isEdge = syncs.filter isEdge := by
    rw [List.filter_filter]
    refine List.filter_congr fun sync _ => ?_
    cases type : sync.type <;> simp [isLevel, isEdge, type]
  have others : (syncs.filter (fun sync => !isLevel sync)).filter (fun sync => !isEdge sync) =
      syncs.filter (fun sync => !isLevel sync && !isEdge sync) := by
    rw [List.filter_filter]
    exact List.filter_congr fun sync _ => Bool.and_comm _ _
  have rest := List.filter_append_perm isEdge (syncs.filter (fun sync => !isLevel sync))
  rw [edges, others] at rest
  rw [List.append_assoc]
  exact (List.filter_append_perm isLevel syncs).symm.trans (rest.symm.append_left _)

/-- What the pass makes of a process: the tree and the rules of the last state of its loop, with the
other rules behind them. -/
def Extracts (mod : Module) (proc result : Process) : Prop :=
  ∃ last converted clocked, Extracted mod (Consistent · mod) (startArst proc) last converted clocked ∧
    result.rootCase = last.root ∧ result.syncs.Perm (last.arst ++ last.edge ++
      proc.syncs.filter (fun sync => !isLevel sync && !isEdge sync))

def bitOf (name : IdString) : SigBit := .wire { name := name, width := 1 } ⟨0, Nat.one_pos⟩

def rstBit : SigBit := bitOf "rst"
def enBit : SigBit := bitOf "en"
def eqBit : SigBit := bitOf "eq"
def nextBit : SigBit := bitOf "next"
def regBit : SigBit := bitOf "reg"
def setBit : SigBit := bitOf "set"
def clkBit : SigBit := bitOf "clk"

def setNext (data : State) : Action := ⟨[nextBit], [.const data], rfl⟩

/-- The event `posedge rst`, which loads the register with the value of `next`. -/
def resetEvent : SyncRule :=
  { type := .STp, signal := [rstBit], actions := [⟨[regBit], [nextBit], rfl⟩] }

def topModule : Module := { name := "top" }

def inReset : Valuation := fun w => BitVec.ofNat w.width (if w.name = "rst" then 1 else 0)

/-- A test of the reset below a switch on `en`. -/
def nestedRoot : CaseRule :=
  { actions := [setNext .S0]
    switches := [
      { signal := [rstBit]
        cases := [
          { compare := [[.const .S1]]
            switches := [
              { signal := [enBit]
                cases := [
                  { compare := [[.const .S1]]
                    switches := [
                      { signal := [rstBit]
                        cases := [{ compare := [[.const .S1]], actions := [setNext .S1] }] }] }] }] }] }] }

/-- One case for both values of the reset. -/
def bothRoot : CaseRule :=
  { switches := [
      { signal := [rstBit]
        cases := [{ compare := [[.const .S0], [.const .S1]], actions := [setNext .S1] }] }] }

/-- The comparison `rst == 2'b10`, which is never true. -/
def eqCell : Cell :=
  { name := "eq"
    type := .eq
    parameters := [(.A_SIGNED, Const.ofInt 0 32), (.B_SIGNED, Const.ofInt 0 32),
      (.A_WIDTH, Const.ofInt 1 32), (.B_WIDTH, Const.ofInt 2 32), (.Y_WIDTH, Const.ofInt 1 32)]
    connections := [(.A, [rstBit]), (.B, [.const .S0, .const .S1]), (.Y, [eqBit])] }

def eqModule : Module := { name := "top", cells := [eqCell] }

def eqRoot : CaseRule :=
  { switches := [
      { signal := [eqBit]
        cases := [
          { compare := [[.const .S1]], actions := [setNext .S1] }, { actions := [setNext .S0] }] }] }

/-- A switch in the case of the reset whose cases assign the same constant. -/
def sameRoot : CaseRule :=
  { switches := [
      { signal := [rstBit]
        cases := [
          { compare := [[.const .S1]]
            switches := [
              { signal := [enBit]
                cases := [
                  { compare := [[.const .S1]], actions := [setNext .S0] },
                  { actions := [setNext .S0] }] }] },
          { actions := [⟨[nextBit], [enBit], rfl⟩] }] }] }

private theorem sameRoot_exec (fires : Fires v resetEvent) (s : Assigned) :
    sameRoot.exec v s nextBit = some .S0 := by
  have taken : patternMatches v [rstBit] [.const .S1] = true :=
    patternMatches_const (b := true) fires
  have assigned : ∀ s : Assigned, (setNext .S0).assign v s nextBit = some .S0 := fun s => by
    simp [setNext, Action.assign, Action.pairs, assignBit, nextBit, bitOf, SigBit.isWire, bitState]
  rw [sameRoot, CaseRule.exec_eq, execSwitches_cons, execSwitches_nil, SwitchRule.exec_eq,
    choose_open (matches_of_pattern (List.mem_singleton_self _) taken), CaseRule.exec_eq,
    execSwitches_cons, execSwitches_nil, SwitchRule.exec_eq, choose, choose_open rfl]
  split
  · rw [CaseRule.exec_eq]
    exact assigned s
  · rw [CaseRule.exec_eq]
    exact assigned s

private theorem settled_of_targets {root : CaseRule}
    (h : ∀ b ∈ root.targets, ∀ x ∈ root.exec v (fun _ => none) b, Refines x (bitState v b)) :
    Settled v root := by
  intro b x assigned
  by_cases member : b ∈ root.targets
  · exact h b member x assigned
  · rw [CaseRule.exec_of_not_mem v root member] at assigned
    cases assigned

def setSwitch : SwitchRule :=
  { signal := [setBit]
    cases := [
      { compare := [[.const .S1]], actions := [setNext .S1] },
      { actions := [⟨[nextBit], [enBit], rfl⟩] }] }

def setEvent : SyncRule := { resetEvent with signal := [setBit] }

def clockEvent : SyncRule := { resetEvent with signal := [clkBit] }

def resetSwitch : SwitchRule :=
  { signal := [rstBit]
    cases := [
      { compare := [[.const .S1]], actions := [setNext .S0] }, { switches := [setSwitch] }] }

/-- A register with an asynchronous reset, which wins over an asynchronous set. -/
def resetProcess : Process where
  name := "reset"
  rootCase := { switches := [resetSwitch] }
  syncs := [resetEvent, setEvent, clockEvent]

def levelRule (signal : SigBit) (data : State) : SyncRule :=
  { type := .ST1, signal := [signal], actions := [⟨[regBit], [.const data], rfl⟩] }

def extractedProcess : Process where
  name := "reset"
  rootCase := { actions := [⟨[nextBit], [enBit], rfl⟩] }
  syncs := [levelRule rstBit .S0, levelRule setBit .S1, clockEvent]

def afterReset : Arst :=
  { root := { switches := [setSwitch] }
    arst := [levelRule rstBit .S0]
    edge := [setEvent, clockEvent]
    didSomething := true }

def afterSet : Arst :=
  { root := extractedProcess.rootCase
    arst := [levelRule rstBit .S0, levelRule setBit .S1]
    edge := [clockEvent]
    didSomething := true }

theorem resetProcess_rounds (st : Arst) (reached : Reached topModule (startArst resetProcess) st) :
    st = startArst resetProcess ∨ st = afterReset ∨ st = afterSet := by
  have first : arstRound topModule.cells (apply (set topModule.connections))
      (startArst resetProcess) = .ok (some afterReset) := rfl
  have second : arstRound topModule.cells (apply (set topModule.connections)) afterReset =
      .ok (some afterSet) := rfl
  rcases reached.cases_head with rfl | ⟨a, one, reached⟩
  · exact .inl rfl
  · obtain rfl : afterReset = a := by simpa using first.symm.trans one
    rcases reached.cases_head with rfl | ⟨b, two, reached⟩
    · exact .inr (.inl rfl)
    · obtain rfl : afterSet = b := by simpa using second.symm.trans two
      rcases reached.cases_head with rfl | ⟨c, three, -⟩
      · exact .inr (.inr rfl)
      · cases three

private theorem setSwitch_every {p : SwitchRule → Prop} (h : p setSwitch) : setSwitch.Every p := by
  refine SwitchRule.every_iff.mpr ⟨h, ?_⟩
  simp [setSwitch, CaseRule.every_iff]

private theorem resetSwitch_every {p : SwitchRule → Prop} (h : p resetSwitch) (h' : p setSwitch) :
    resetSwitch.Every p := by
  refine SwitchRule.every_iff.mpr ⟨h, ?_⟩
  simp [resetSwitch, CaseRule.every_iff, setSwitch_every h']

private theorem single_every {cs : CaseRule} {sw : SwitchRule} {p : SwitchRule → Prop}
    (only : cs.switches = [sw]) (h : sw.Every p) : cs.Every p := by
  rw [CaseRule.every_iff, only]
  exact fun _ member => List.mem_singleton.mp member ▸ h

private theorem resetSwitch_decisive (test : SigSpec → Option Bool) :
    Decisive test resetSwitch ∧ Decisive test setSwitch := by
  refine ⟨⟨?_, ?_⟩, ?_, ?_⟩ <;> simp [resetSwitch, setSwitch]

private theorem setSwitch_separate (test : SigSpec → Option Bool) : Separate test setSwitch := by
  refine ⟨?_, ?_⟩ <;> simp [setSwitch, CaseRule.every_iff]

private theorem resetSwitch_separate : Separate (resetTest topModule [rstBit] true) resetSwitch := by
  have tested : resetTest topModule [rstBit] true [rstBit] = some true := by decide
  exact ⟨by simp [resetSwitch], by simp [resetSwitch, tested]⟩

theorem resetProcess_ready (st : Arst) (reached : Reached topModule (startArst resetProcess) st) :
    Ready topModule st := by
  intro sw before sync after polarity round
  rcases resetProcess_rounds st reached with rfl | rfl | rfl
  · obtain rfl : resetSwitch = sw := by simpa [startArst, resetProcess] using round.only
    obtain rfl : true = polarity := by
      have found : findEvent topModule.cells resetSwitch.signal (startArst resetProcess).edge =
        some ([], resetEvent, [setEvent, clockEvent], true) := rfl
      simpa using congrArg (Option.map (·.2.2.2)) (found.symm.trans round.found)
    refine ⟨fun level => ?_, fun _ => ?_⟩ <;> refine single_every rfl (resetSwitch_every ?_ ?_)
    · exact (resetSwitch_decisive _).1
    · exact (resetSwitch_decisive _).2
    · exact resetSwitch_separate
    · exact setSwitch_separate _
  · obtain rfl : setSwitch = sw := by simpa [afterReset] using round.only
    refine ⟨fun level => ?_, fun _ => ?_⟩ <;> refine single_every rfl (setSwitch_every ?_)
    · exact (resetSwitch_decisive _).2
    · exact setSwitch_separate _
  · cases round.only

private theorem resetProcess_convertible : Convertible topModule resetProcess := by
  have plain : ∀ {v : Valuation} {step} (sw : SwitchRule), isFullyConst sw.signal = false →
      sw.parallelCase = false → Clean step v sw := fun sw wires single =>
    .of_forall (fun _ _ => ⟨fun const => by simp [wires] at const,
      fun parallel => by simp [single] at parallel⟩) _
  refine ⟨by simp [topModule], fun v _ => ?_, resetProcess_ready⟩
  exact single_every rfl (resetSwitch_every (plain _ rfl rfl) (plain _ rfl rfl))

end ManticoreFrontend.Passes.ProcArstRuns
