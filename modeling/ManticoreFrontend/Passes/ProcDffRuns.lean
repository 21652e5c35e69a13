/- source: passes/proc/proc_dff.cc
   digest: The registers of a process drive each of its bits once and follow its sync rules. -/

import ManticoreFrontend.Kernel.AliasValues
import ManticoreFrontend.Passes.ProcDffRegisters

namespace ManticoreFrontend.Passes.ProcDffRuns

open Kernel Constants Signals SigTools Netlist
open Kernel.AliasValues (apply_const apply_apply)
open Kernel.SigSpecs (WireIds)
open Kernel SigSets Processes Nets SyncRules ProcDff ProcDffCollect ProcDffRegisters List

variable (syncs : List SyncRule)

/-- Every assigned bit has one clock rule, and besides it only level rules. -/
structure Clocked : Prop where
  wires : ∀ b ∈ targets syncs, b.isWire = true
  kinds : ∀ sync ∈ syncs, ruleTargets sync ≠ [] → levelRule sync = true ∨ clockRule sync = true
  signals : ∀ sync ∈ syncs, levelRule sync = true → sync.signal.length = 1
  clock : ∀ b ∈ targets syncs,
    (syncs.filter (fun sync => clockRule sync && decide (b ∈ ruleTargets sync))).length = 1

/-- The signals that get a register each, round by round. -/
def lvalues (ids : WireIds) : Nat → List SyncRule → List SigSpec
  | 0, _ => []
  | fuel + 1, syncs =>
    let sig := findAnyLvalue ids syncs
    if sig.isEmpty then [] else sig :: lvalues ids fuel (removeFrom sig syncs)

def registerSignals (ids : WireIds) : List SigSpec := lvalues ids (targets syncs).length syncs

/-- Under the global clock the level rules of a bit keep it. -/
def Unreset : Prop :=
  ∀ sync ∈ syncs, sync.type = .STg → ∀ other ∈ syncs, levelRule other = true →
    ∀ b ∈ ruleTargets sync, ∀ rhs ∈ lastRhs (rulePairs other) b, rhs = b

/-- The level rules assign the signal of each register at once. -/
def Unspanned (signals : List SigSpec) : Prop :=
  ∀ sig ∈ signals, ∀ sync ∈ syncs, levelRule sync = true → AtOnce sig sync

/-- All level rules assign the same. -/
def SameValues (sig : SigSpec) : Prop :=
  ∀ s ∈ syncs, ∀ s' ∈ syncs, levelRule s = true → levelRule s' = true → Whole sig s → Whole sig s' →
    given sig s = given sig s'

variable (now : Reading)

/-- Of the level rules that assign one value, those for a low signal are in force together, unless
one for a high signal is as well. -/
def Together (sig : SigSpec) : Prop :=
  ∀ s ∈ syncs, ∀ s' ∈ syncs, s.type = .ST0 → s'.type = .ST0 → Whole sig s → Whole sig s' →
    given sig s = given sig s' → active now s = true → active now s' = true ∨
      ∃ h ∈ syncs, h.type = .ST1 ∧ Whole sig h ∧ given sig h = given sig s ∧ active now h = true

/-- The level rules in force give one value, whose bits are zero or one. -/
structure Agree (sig : SigSpec) : Prop where
  one : ∀ s ∈ syncs, ∀ s' ∈ syncs, Whole sig s → Whole sig s' → active now s = true →
    active now s' = true → now.sig (given sig s) = now.sig (given sig s')
  defined : ∀ s ∈ syncs, Whole sig s → active now s = true →
    ∀ v ∈ now.sig (given sig s), v.isDef = true

/-- The level rules do not compete for the signal at an instant. -/
def Compatible (sig : SigSpec) : Prop :=
  SameValues syncs sig ∨ (Together syncs now sig ∧ Agree syncs now sig)

/-- The signals of the level rules are zero or one. -/
def Controlled : Prop :=
  ∀ sync ∈ syncs, levelRule sync = true → ∀ s ∈ now.sig sync.signal, s.isDef = true

variable {ids : WireIds} {syncs : List SyncRule} {sig : SigSpec} {now : Reading}

private theorem targets_of_cut (cut : Cut syncs sig) : ∀ b ∈ sig, b ∈ targets syncs := by
  obtain ⟨a, member, sub⟩ := cut.inAction
  exact fun b inside => mem_targets_of_action member (sub b inside)

private theorem settles_of_cut (clocked : Clocked syncs) (unspanned : Unspanned syncs [sig])
    (cut : Cut syncs sig)
    {b : SigBit} (inside : b ∈ sig) {sync : SyncRule} (member : sync ∈ syncs)
    (other : ¬ (clockRule sync = true ∧ b ∈ ruleTargets sync)) : Settles sig sync := by
  rcases cut.whole sync member with whole | none
  · right
    have assigned : ruleTargets sync ≠ [] := ne_nil_of_mem (whole b inside)
    have level : levelRule sync = true :=
      (clocked.kinds sync member assigned).resolve_right (fun clock =>
        other ⟨clock, whole b inside⟩)
    exact ⟨whole, level, unspanned sig (by simp) sync member level⟩
  · exact .inl none

private theorem exists_round (clocked : Clocked syncs) (unspanned : Unspanned syncs [sig])
    (cut : Cut syncs sig) : ∃ clock ∈ syncs, Round sig syncs clock := by
  obtain ⟨b, inside⟩ := exists_mem_of_ne_nil _ cut.nonempty
  have one : (syncs.zipIdx.filter
      (fun p => clockRule p.1 && decide (b ∈ ruleTargets p.1))).length = 1 := by
    have count := clocked.clock b (targets_of_cut cut b inside)
    rw [← zipIdx_map_fst 0 syncs, filter_map, length_map] at count
    exact count
  obtain ⟨p, single⟩ := length_eq_one_iff.mp one
  obtain ⟨before, after, split, quiet, kind, rest⟩ := filter_eq_cons_iff.mp single
  simp only [Bool.and_eq_true, decide_eq_true_eq] at kind quiet
  have quietAfter : ∀ q ∈ after, ¬ (clockRule q.1 = true ∧ b ∈ ruleTargets q.1) := by
    intro q member
    have := filter_eq_nil_iff.mp rest q member
    simpa using this
  have here : ∀ q ∈ syncs.zipIdx, q.1 ∈ syncs := fun q h => fst_mem_of_mem_zipIdx h
  have inSyncs : p.1 ∈ syncs := here p (by simp [split])
  refine ⟨p.1, inSyncs, fun b h => clocked.wires b (targets_of_cut cut b h), cut.nonempty, kind.1, ?_,
    before, after, p.2,
    split, fun q h => ?_, fun q h => ?_⟩
  · rcases cut.whole p.1 inSyncs with whole | none
    · exact whole
    · exact absurd kind.2 (none b inside)
  · exact settles_of_cut clocked unspanned cut inside (here q (by simp [split, h])) (quiet q h)
  · exact settles_of_cut clocked unspanned cut inside (here q (by simp [split, h])) (quietAfter q h)

theorem steady_of_controlled (sig : SigSpec) (clocked : Clocked syncs) (controlled : Controlled syncs now) :
    ∀ p ∈ levelsOf sig syncs.zipIdx, Steady now p.2 := by
  intro p member
  obtain ⟨q, here, level, -, rfl⟩ := mem_levelsOf.mp member
  have inside : q.1 ∈ syncs := fst_mem_of_mem_zipIdx here
  obtain ⟨bit, single⟩ := length_eq_one_iff.mp (clocked.signals q.1 inside level)
  have defined := controlled q.1 inside level
  refine ⟨level, ?_⟩
  show now.sig q.1.signal = [State.ofBool (now.sig q.1.signal == [.S1])]
  rw [single] at defined ⊢
  have value := defined (now.bit bit) (by simp [Reading.sig])
  show [now.bit bit] = [State.ofBool ([now.bit bit] == [.S1])]
  revert value
  cases now.bit bit <;> decide

private theorem mixed_of_compatible (clocked : Clocked syncs) (controlled : Controlled syncs now)
    (compatible : Compatible syncs now sig) : Mixed (levelsOf sig syncs.zipIdx) now := by
  intro several
  have steady := steady_of_controlled sig clocked controlled
  have rules : ∀ p ∈ levelsOf sig syncs.zipIdx, ∃ s ∈ syncs, levelRule s = true ∧ Whole sig s ∧
      p.1 = given sig s ∧ p.2.type = s.type ∧ ruleActive now p.2 = active now s := by
    intro p member
    have same := steady p member
    obtain ⟨s, here, level, whole, rfl⟩ := mem_levelsOf.mp member
    exact ⟨s.1, fst_mem_of_mem_zipIdx here, level, whole, rfl, rfl, ruleActive_eq same⟩
  have levels : ∀ s ∈ syncs, levelRule s = true → Whole sig s → ∃ p ∈ levelsOf sig syncs.zipIdx,
      p.1 = given sig s ∧ p.2.type = s.type ∧ ruleActive now p.2 = active now s := by
    intro s member level whole
    obtain ⟨i, at_i⟩ := mem_iff_getElem?.mp member
    have here : (given sig s, ruleAt (s, i)) ∈ levelsOf sig syncs.zipIdx :=
      mem_levelsOf.mpr ⟨(s, i), mem_zipIdx_iff_getElem?.mpr at_i, level, whole, rfl⟩
    exact ⟨_, here, rfl, rfl, ruleActive_eq (steady _ here)⟩
  rcases compatible with same | ⟨together, agree⟩
  · -- rules with the same right sides have one reset value
    obtain ⟨p, inP, q, inQ, different⟩ := several
    obtain ⟨s, inS, levelS, wholeS, valueS, -⟩ := rules p inP
    obtain ⟨s', inS', levelS', wholeS', valueS', -⟩ := rules q inQ
    exact absurd (valueS.trans ((same s inS s' inS' levelS levelS' wholeS wholeS').trans valueS'.symm))
      different
  · constructor
    · intro p _ r inR r' inR' typeR typeR' forceR
      obtain ⟨q, inQ, rfl⟩ := mem_map.mp inR
      obtain ⟨q', inQ', rfl⟩ := mem_map.mp inR'
      obtain ⟨hereQ, sameQ⟩ := mem_filter.mp inQ
      obtain ⟨hereQ', sameQ'⟩ := mem_filter.mp inQ'
      obtain ⟨s, inS, -, wholeS, valueS, typeS, forceS⟩ := rules q hereQ
      obtain ⟨s', inS', -, wholeS', valueS', typeS', forceS'⟩ := rules q' hereQ'
      have value : q.1 = q'.1 := (of_decide_eq_true sameQ).trans (of_decide_eq_true sameQ').symm
      rcases together s inS s' inS' (typeS.symm.trans typeR) (typeS'.symm.trans typeR') wholeS wholeS'
        (by rw [← valueS, ← valueS', value]) (forceS.symm.trans forceR) with
        low | ⟨h, inH, typeH, wholeH, valueH, forceH⟩
      · exact .inl (forceS'.trans low)
      · obtain ⟨e, inE, valueE, typeE, forceE⟩ := levels h inH (by simp [levelRule, typeH]) wholeH
        refine .inr ⟨e.2, mem_map.mpr ⟨e, mem_filter.mpr ⟨inE, decide_eq_true ?_⟩, rfl⟩,
          typeE.trans typeH, forceE.trans forceH⟩
        rw [valueE, valueH, ← valueS, of_decide_eq_true sameQ]
    · intro p inP forceP
      obtain ⟨s, inS, -, wholeS, valueS, -, forceS⟩ := rules p inP
      rw [forceS] at forceP
      rw [valueS]
      refine ⟨agree.defined s inS wholeS forceP, fun q inQ forceQ => ?_⟩
      obtain ⟨s', inS', -, wholeS', valueS', -, forceS'⟩ := rules q inQ
      rw [forceS'] at forceQ
      rw [valueS']
      exact agree.one s inS s' inS' wholeS wholeS' forceP forceQ

variable {b : SigBit}

def removeRule (sig : SigSpec) (sync : SyncRule) : SyncRule :=
  { sync with actions := sync.actions.map (removeSig sig) }

private theorem removeFrom_eq : removeFrom sig syncs = syncs.map (removeRule sig) := rfl

private theorem removeRule_pairs (sig : SigSpec) (sync : SyncRule) :
    rulePairs (removeRule sig sync) =
      (rulePairs sync).filter (fun p => !covered sig p.1) := by
  rw [rulePairs, rulePairs, removeRule, filter_flatMap, flatMap_map]
  simp only [removeSig_pairs]

private theorem lastRhs_removeRule (other : covered sig b = false) (sync : SyncRule) :
    lastRhs (rulePairs (removeRule sig sync)) b = lastRhs (rulePairs sync) b := by
  rw [removeRule_pairs]
  exact lastRhs_filter (fun b => !covered sig b) (by simp [other])

private theorem ruleTargets_removeRule (sync : SyncRule) : ruleTargets (removeRule sig sync) =
    (ruleTargets sync).filter (fun b => !covered sig b) := by
  rw [← rulePairs_fst, ← rulePairs_fst, removeRule_pairs, filter_map]
  rfl

private theorem mem_ruleTargets_removeRule {sync : SyncRule} :
    b ∈ ruleTargets (removeRule sig sync) ↔ b ∈ ruleTargets sync ∧ covered sig b = false := by
  rw [ruleTargets_removeRule, mem_filter, Bool.not_eq_true']

private theorem targets_removeFrom :
    targets (removeFrom sig syncs) = (targets syncs).filter (fun b => !covered sig b) := by
  rw [targets, targets, removeFrom_eq, flatMap_map, filter_flatMap]
  simp only [ruleTargets_removeRule]

private theorem mem_targets_removeFrom :
    b ∈ targets (removeFrom sig syncs) ↔ b ∈ targets syncs ∧ covered sig b = false := by
  rw [targets_removeFrom, mem_filter]
  simp

private theorem firstRhs_removeFrom {force : SyncRule → Bool}
    (same : ∀ sync, force (removeRule sig sync) = force sync) (other : covered sig b = false) :
    firstRhs force (removeFrom sig syncs) b = firstRhs force syncs b := by
  rw [firstRhs, firstRhs, removeFrom_eq, findSome?_map]
  congr 1
  ext sync : 1
  simp [same, lastRhs_removeRule other]

private theorem next_removeFrom (other : covered sig b = false) (prev now : Reading) :
    next (removeFrom sig syncs) prev now b = next syncs prev now b := by
  rw [Kernel.SyncRules.next, Kernel.SyncRules.next, firstRhs_removeFrom (fun _ => rfl) other,
    firstRhs_removeFrom (fun _ => rfl) other]

private theorem Clocked.removeFrom (clocked : Clocked syncs) : Clocked (removeFrom sig syncs) where
  wires b member := clocked.wires b (mem_targets_removeFrom.mp member).1
  kinds sync member assigned := by
    obtain ⟨s, here, rfl⟩ := mem_map.mp member
    refine clocked.kinds s here ?_
    obtain ⟨b, inside⟩ := exists_mem_of_ne_nil _ assigned
    exact ne_nil_of_mem (mem_ruleTargets_removeRule.mp inside).1
  signals sync member level := by
    obtain ⟨s, here, rfl⟩ := mem_map.mp member
    exact clocked.signals s here level
  clock b member := by
    obtain ⟨target, other⟩ := mem_targets_removeFrom.mp member
    rw [← clocked.clock b target, removeFrom_eq, filter_map, length_map]
    congr 2
    ext sync
    simp only [Function.comp, mem_ruleTargets_removeRule, other, and_true]
    rfl

private theorem mem_lhs_removeSig {a : Action} :
    b ∈ (removeSig sig a).lhs ↔ b ∈ a.lhs ∧ covered sig b = false := by
  have kept : (removeSig sig a).lhs = a.lhs.filter (fun b => !covered sig b) := by
    rw [← pairs_fst, removeSig_pairs, ← pairs_fst a, filter_map]
    rfl
  rw [kept, mem_filter, Bool.not_eq_true']

private theorem Unreset.removeFrom (unreset : Unreset syncs) : Unreset (removeFrom sig syncs) := by
  intro sync member global other member' level b assigned rhs found
  rw [removeFrom_eq] at member member'
  obtain ⟨s, here, rfl⟩ := mem_map.mp member
  obtain ⟨s', here', rfl⟩ := mem_map.mp member'
  obtain ⟨inside, uncovered⟩ := mem_ruleTargets_removeRule.mp assigned
  rw [lastRhs_removeRule uncovered] at found
  exact unreset s here global s' here' level b inside rhs found

section

variable {sig' : SigSpec} (others : ∀ b ∈ sig', covered sig b = false)

include others

theorem whole_removeRule (sync : SyncRule) : Whole sig' (removeRule sig sync) ↔ Whole sig' sync :=
  forall₂_congr fun b inside => by rw [mem_ruleTargets_removeRule, and_iff_left (others b inside)]

theorem given_removeRule (sync : SyncRule) : given sig' (removeRule sig sync) = given sig' sync :=
  map_congr_left fun b inside => by rw [lastRhs_removeRule (others b inside)]

private theorem meets_removeSig (a : Action) : meets sig' (removeSig sig a) ↔ meets sig' a :=
  exists_congr fun b => and_congr_right fun inside => by
    rw [mem_lhs_removeSig, and_iff_left (others b inside)]

private theorem AtOnce.removeRule {sync : SyncRule} (atOnce : AtOnce sig' sync) :
    AtOnce sig' (removeRule sig sync) := by
  intro a last b inside
  have same : lastMet sig' (ProcDffRuns.removeRule sig sync).actions =
      (lastMet sig' sync.actions).map (removeSig sig) := by
    rw [lastMet, ProcDffRuns.removeRule, ← map_reverse, find?_map, lastMet]
    simp only [Function.comp_def, meets_removeSig others]
  rw [same] at last
  obtain ⟨a', found, rfl⟩ := Option.mem_map.mp last
  exact mem_lhs_removeSig.mpr ⟨atOnce a' found b inside, others b inside⟩

private theorem Compatible.removeFrom (compatible : Compatible syncs now sig') :
    Compatible (removeFrom sig syncs) now sig' := by
  have whole := whole_removeRule others
  have value := given_removeRule others
  rcases compatible with same | ⟨together, agree⟩
  · left
    simp only [SameValues, removeFrom_eq, forall_mem_map, whole, value]
    exact same
  · right
    constructor
    · simp only [Together, removeFrom_eq, forall_mem_map, whole, value]
      intro s inS s' inS' type type' wholeS wholeS' same force
      rcases together s inS s' inS' type type' wholeS wholeS' same force with
        low | ⟨h, inH, typeH, wholeH, valueH, forceH⟩
      · exact .inl low
      · exact .inr ⟨_, mem_map_of_mem inH, typeH, (whole h).mpr wholeH, (value h).trans valueH, forceH⟩
    · constructor
      · simp only [removeFrom_eq, forall_mem_map, whole, value]
        exact agree.one
      · simp only [removeFrom_eq, forall_mem_map, whole, value]
        exact agree.defined

end

private theorem Controlled.removeFrom {now : Reading} (controlled : Controlled syncs now) :
    Controlled (removeFrom sig syncs) now := by
  intro sync member level
  obtain ⟨s, here, rfl⟩ := mem_map.mp member
  exact controlled s here level

variable {assignMap : SigBit → SigBit} {ce : ConstEval}

/-- The cell follows the rules of its signal whenever they do not compete. -/
def Obeys (assignMap : SigBit → SigBit) (ce : ConstEval) (syncs : List SyncRule) (sig : SigSpec)
    (register : Register) : Prop :=
  register.q.map assignMap = sig.map assignMap ∧
    ∀ prev now, Respects assignMap ce now → Controlled syncs now → Compatible syncs now sig →
      register.next prev now = sig.map (next syncs prev now)

private theorem round_spec (ids : WireIds) (ce : ConstEval) (clocked : Clocked syncs)
    (unreset : Unreset syncs) {sig : SigSpec} (unspanned : Unspanned syncs [sig])
    (cut : Cut syncs sig) (aliases : Aliases assignMap (targets syncs)) :
    ∃ c register, collect sig syncs = .ok c ∧ createRegister ids assignMap ce sig c = .ok register ∧
      Obeys assignMap ce syncs sig register := by
  obtain ⟨clock, inSyncs, round⟩ := exists_round clocked unspanned cut
  obtain ⟨before, after, place, split, settlesBefore, settlesAfter⟩ := round.split
  obtain ⟨c, collected, found⟩ := collect_spec round.wires round.nonempty split round.isClock
    round.whole settlesBefore settlesAfter
  have inTargets := targets_of_cut cut
  have here : Aliases assignMap sig :=
    ⟨aliases.const, fun b h => aliases.wires b (inTargets b h),
      fun b h => aliases.again b (inTargets b h)⟩
  have kept : clock.type = .STg → ∀ p ∈ levelsOf sig syncs.zipIdx, p.1 = sig := by
    intro global p member
    obtain ⟨q, place, level, whole, rfl⟩ := mem_levelsOf.mp member
    refine (map_congr_left fun b inside => ?_).trans (map_id' sig)
    obtain ⟨rhs, found⟩ := exists_lastRhs (whole b inside)
    rw [found, Option.getD_some, unreset clock inSyncs global q.1 (fst_mem_of_mem_zipIdx place) level b
      (round.whole b inside) rhs found]
  have sized : ∀ p ∈ levelsOf sig syncs.zipIdx, p.2.signal.length = 1 := by
    intro p member
    obtain ⟨q, place, level, -, rfl⟩ := mem_levelsOf.mp member
    exact clocked.signals q.1 (fst_mem_of_mem_zipIdx place) level
  obtain ⟨register, created, nets, follows⟩ := createRegister_spec ids ce
    round found here kept sized
  refine ⟨c, register, collected, created, nets, fun prev now respects controlled compatible => ?_⟩
  exact follows prev now respects (steady_of_controlled sig clocked controlled)
    (mixed_of_compatible clocked controlled compatible)

private theorem Obeys.of_removeFrom {sig sig' : SigSpec} {register : Register}
    (obeys : Obeys assignMap ce (removeFrom sig syncs) sig' register)
    (others : ∀ b ∈ sig', covered sig b = false) : Obeys assignMap ce syncs sig' register := by
  refine ⟨obeys.1, fun prev now respects controlled compatible => ?_⟩
  rw [obeys.2 prev now respects controlled.removeFrom (compatible.removeFrom others)]
  exact map_congr_left (fun b inside => next_removeFrom (others b inside) prev now)

private theorem lvalues_cut (ids : WireIds) {sig : SigSpec} (found : findAnyLvalue ids syncs = sig)
    (nonempty : sig ≠ []) (fuel : Nat) :
    lvalues ids (fuel + 1) syncs = sig :: lvalues ids fuel (removeFrom sig syncs) := by
  rw [lvalues, found]
  simp [nonempty]

private theorem lvalues_inside (ids : WireIds) {fuel : Nat} (clocked : Clocked syncs) :
    ∀ sig ∈ lvalues ids fuel syncs, ∀ b ∈ sig, b ∈ targets syncs := by
  induction fuel generalizing syncs with
  | zero => simp [lvalues]
  | succ fuel ih =>
    rcases findAnyLvalue_spec ids clocked.wires with ⟨empty, -⟩ | cut
    · simp [lvalues, empty]
    · rw [lvalues_cut ids rfl cut.nonempty, forall_mem_cons]
      exact ⟨targets_of_cut cut, fun sig member b inside =>
        (mem_targets_removeFrom.mp (ih clocked.removeFrom sig member b inside)).1⟩

private theorem dffLoop_spec (ids : WireIds) (ce : ConstEval) {fuel : Nat} (clocked : Clocked syncs)
    (unreset : Unreset syncs) (unspanned : Unspanned syncs (lvalues ids fuel syncs))
    (aliases : Aliases assignMap (targets syncs)) (enough : (targets syncs).length ≤ fuel) :
    ∃ registers rest, dffLoop ids assignMap ce fuel syncs = .ok (registers, rest) ∧
      targets rest = [] ∧ (lvalues ids fuel syncs).flatten.Nodup ∧
      (∀ b, b ∈ (lvalues ids fuel syncs).flatten ↔ b ∈ targets syncs) ∧
      List.Forall₂ (Obeys assignMap ce syncs) (lvalues ids fuel syncs) registers := by
  induction fuel generalizing syncs with
  | zero =>
    have none : targets syncs = [] := eq_nil_of_length_eq_zero (by omega)
    have empty : findAnyLvalue ids syncs = [] := by
      rcases findAnyLvalue_spec ids clocked.wires with ⟨empty, -⟩ | cut
      · exact empty
      · obtain ⟨b, inside⟩ := exists_mem_of_ne_nil _ cut.nonempty
        have := targets_of_cut cut b inside
        simp [none] at this
    exact ⟨[], syncs, by rw [dffLoop, empty]; rfl, none, by simp [lvalues], by simp [lvalues, none],
      .nil⟩
  | succ fuel ih =>
    rcases findAnyLvalue_spec ids clocked.wires with ⟨empty, none⟩ | cut
    · have idle : lvalues ids (fuel + 1) syncs = [] := by simp [lvalues, empty]
      rw [idle]
      exact ⟨[], syncs, by rw [dffLoop, empty]; rfl, none, by simp, by simp [none], .nil⟩
    · generalize found : findAnyLvalue ids syncs = sig at cut
      rw [lvalues_cut ids found cut.nonempty] at unspanned ⊢
      obtain ⟨here, later⟩ := forall_mem_cons.mp unspanned
      obtain ⟨c, register, collected, created, obeys⟩ :=
        round_spec ids ce clocked unreset (by simpa [Unspanned] using here) cut aliases
      have apart : ∀ sig' ∈ lvalues ids fuel (removeFrom sig syncs), ∀ b ∈ sig',
          covered sig b = false := fun sig' member b inside =>
        (mem_targets_removeFrom.mp (lvalues_inside ids clocked.removeFrom sig' member b inside)).2
      have inTargets := targets_of_cut cut
      have covers : ∀ b ∈ sig, covered sig b = true :=
        fun b inside => covered_iff.mpr ⟨clocked.wires b (inTargets b inside), inside⟩
      have shrinks : (targets (removeFrom sig syncs)).length < (targets syncs).length := by
        rw [targets_removeFrom, length_filter_lt_length_iff_exists]
        obtain ⟨b, inside⟩ := exists_mem_of_ne_nil _ cut.nonempty
        exact ⟨b, inTargets b inside, by simp [covers b inside]⟩
      have left : ∀ b, b ∈ targets (removeFrom sig syncs) ↔ b ∈ targets syncs ∧ b ∉ sig := by
        intro b
        rw [mem_targets_removeFrom]
        refine and_congr_right (fun target => ?_)
        rw [← Bool.not_eq_true, covered_iff]
        simp [clocked.wires b target]
      have unspanned' : Unspanned (removeFrom sig syncs)
          (lvalues ids fuel (removeFrom sig syncs)) := by
        intro sig' member sync inside level
        obtain ⟨s, inSyncs, rfl⟩ := mem_map.mp inside
        exact AtOnce.removeRule (apart sig' member) (later sig' member s inSyncs level)
      obtain ⟨registers, rest, run, done, unique, all, each⟩ := ih clocked.removeFrom
        unreset.removeFrom unspanned'
        ⟨aliases.const, fun b h => aliases.wires b ((left b).mp h).1,
          fun b h => aliases.again b ((left b).mp h).1⟩ (by omega)
      refine ⟨register :: registers, rest, ?_, done, ?_, fun b => ?_, .cons obeys ?_⟩
      · rw [dffLoop, found]
        simp only [List.isEmpty_iff, cut.nonempty, if_false]
        rw [collected]
        show (createRegister ids assignMap ce sig c >>= _) = _
        rw [created]
        rw [run]
        rfl
      · rw [flatten_cons, nodup_append]
        refine ⟨cut.nodup, unique, fun b inside b' inside' same => ?_⟩
        exact ((left b').mp ((all b').mp inside')).2 (same ▸ inside)
      · rw [flatten_cons, mem_append, all, left]
        constructor
        · rintro (inside | ⟨target, -⟩)
          · exact inTargets b inside
          · exact target
        · intro target
          by_cases inside : b ∈ sig
          · exact .inl inside
          · exact .inr ⟨target, inside⟩
      · exact ((forall₂_and_left _ _).mpr ⟨apart, each⟩).imp
          (fun _ _ here => here.2.of_removeFrom here.1)

/-- The assigned bits are wires that are not connected with a constant or with one another. -/
structure Drivable (mod : Module) (syncs : List SyncRule) : Prop where
  wires : ∀ b ∈ targets syncs, (apply (set mod.connections) b).isWire = true
  apart : ∀ b ∈ targets syncs, ∀ b' ∈ targets syncs,
    apply (set mod.connections) b = apply (set mod.connections) b' → b = b'

/-- A reading of the module: connected bits are equal, evaluated signals have their values, and the
level signals are zero or one. -/
structure Admissible (mod : Module) (ce : ConstEval) (syncs : List SyncRule) (now : Reading) :
    Prop where
  connected : ∀ c ∈ mod.connections, ∀ p ∈ c.pairs, now.bit p.1 = now.bit p.2
  evaluates : ∀ sig, now.sig (ce.eval sig).2 = now.sig sig
  controlled : Controlled syncs now

/-- A trace in which every register shows at the next instant what it has taken in. Edges are seen
between an instant and the one before it. -/
def Runs (registers : List Register) (t : Nat → Reading) : Prop :=
  ∀ n, ∀ register ∈ registers, (t (n + 1)).sig register.q = register.next (t (n - 1)) (t n)

/-- A trace in which the rules decide every bit they assign. -/
def FollowsRules (syncs : List SyncRule) (t : Nat → Reading) : Prop :=
  ∀ n, ∀ b ∈ targets syncs, (t (n + 1)).bit b = next syncs (t (n - 1)) (t n) b

def drivers (mod : Module) (registers : List Register) (b : SigBit) : Nat :=
  ((registers.flatMap Register.q).map (apply (set mod.connections))).count
    (apply (set mod.connections) b)

section

variable {signals : List SigSpec} {registers : List Register}
  (each : List.Forall₂ (Obeys assignMap ce syncs) signals registers)

include each

private theorem obeys_flatten :
    (registers.flatMap Register.q).map assignMap = signals.flatten.map assignMap := by
  induction each with
  | nil => rfl
  | cons here _ ih =>
    rw [flatMap_cons, flatten_cons, map_append, map_append, ih, here.1]

private theorem exists_register {sig : SigSpec} (member : sig ∈ signals) :
    ∃ register ∈ registers, Obeys assignMap ce syncs sig register := by
  induction each with
  | nil => cases member
  | cons here _ ih =>
    rcases mem_cons.mp member with rfl | member
    · exact ⟨_, mem_cons_self, here⟩
    · obtain ⟨register, inside, obeys⟩ := ih member
      exact ⟨register, mem_cons_of_mem _ inside, obeys⟩

end

def wireBit (name : String) : SigBit := .wire { name := name, width := 1 } ⟨0, Nat.one_pos⟩

def setBit (name : String) (value : SigBit) : Action := ⟨[wireBit name], [value], rfl⟩

def bare : Module := { name := "bare" }

def noEval : ConstEval := ⟨fun sig => (false, sig), fun _ h => by cases h⟩

/-- A set and a clear of one register, in this order. -/
def setAndClear : Process :=
  { name := "setAndClear"
    rootCase := { compare := [], actions := [], switches := [] }
    syncs := [
      { type := .ST1, signal := [wireBit "set"], actions := [setBit "q" (.const .S1)] },
      { type := .ST1, signal := [wireBit "clear"], actions := [setBit "q" (.const .S0)] },
      { type := .STp, signal := [wireBit "clk"], actions := [setBit "q" (wireBit "d")] }] }

/-- Both level rules are in force, and the register is zero. -/
def bothActive : Reading := fun w _ => if w.name = "set" ∨ w.name = "clear" then .S1 else .S0

def setAndClearCell : Register :=
  .dffsr [wireBit "clk"] true
    (.mux (.mux (.sig [.const .S0]) (.sig [.const .S1]) (.sig [wireBit "set"]))
      (.sig [.const .S0]) (.sig [wireBit "clear"]))
    (.mux (.mux (.sig [.const .S0]) (.not (.sig [.const .S1]) 1) (.sig [wireBit "set"]))
      (.not (.sig [.const .S0]) 1) (.sig [wireBit "clear"]))
    (.sig [wireBit "d"]) [wireBit "q"]

private theorem setAndClear_run : ∃ rest,
    procDff codedIds (apply (set bare.connections)) noEval setAndClear =
      .ok ([setAndClearCell], rest) := by
  refine ⟨removeFrom [wireBit "q"] setAndClear.syncs, ?_⟩
  decide +kernel

/-- A clear and a set for low signals. The clear assigns two registers, the set one of them. -/
def clearAndSet : Process :=
  { name := "clearAndSet"
    rootCase := { compare := [], actions := [], switches := [] }
    syncs := [
      { type := .ST0, signal := [wireBit "clrn"],
        actions := [⟨[wireBit "a", wireBit "b"], [.const .S0, .const .S0], rfl⟩] },
      { type := .ST0, signal := [wireBit "setn"], actions := [setBit "a" (.const .S1)] },
      { type := .STp, signal := [wireBit "clk"],
        actions := [setBit "b" (wireBit "a"), setBit "a" (wireBit "d")] }] }

def clearAndSetCells : List Register :=
  let groups : List (SigSpec × List Rule) := [([.const .S1], [⟨1, .ST0, [wireBit "setn"]⟩]),
    ([.const .S0], [⟨0, .ST0, [wireBit "clrn"]⟩])]
  [.adff [wireBit "clk"] true ⟨false, .sig [wireBit "clrn"]⟩ [.S0] (.sig [wireBit "a"]) [wireBit "b"],
    .dffsr [wireBit "clk"] true (setClear 1 groups).1 (setClear 1 groups).2 (.sig [wireBit "d"])
      [wireBit "a"]]

/-- A clear, a set and a clock edge; the registers show them one instant later. -/
def clearAndSetAt (n : Nat) : Reading := fun w _ =>
  let high : List (List String) := [["setn", "b"], ["clrn"], ["clrn", "setn", "clk", "a"],
    ["clrn", "setn", "clk", "b"]]
  if w.name ∈ high.getD n [] then .S1 else .S0

/-- From the third instant on the trace stands still. -/
def clearAndSetTrace (n : Nat) : Reading := clearAndSetAt (min n 3)

end ManticoreFrontend.Passes.ProcDffRuns
