/- source: passes/proc/proc_dff.cc
   digest: The cell of a round does to its signal what the sync rules do. -/

import ManticoreFrontend.Passes.ProcDffCollect

namespace ManticoreFrontend.Passes.ProcDffRegisters

open Kernel Constants Calc Signals
open Kernel.SigSpecs (WireIds)
open Kernel Processes Nets SyncRules
open Passes.ProcArst (constBits)
open ProcDff ProcDffCollect List

variable {sig : SigSpec} {prev now : Reading} {sync : SyncRule}

private theorem triggered_clock (h : triggered prev now sync = true) : clockRule sync = true := by
  unfold triggered at h
  split at h <;> simp_all [clockRule]

private theorem active_level (h : active now sync = true) : levelRule sync = true := by
  unfold active at h
  split at h <;> simp_all [levelRule]

private theorem not_level_of_clock (h : clockRule sync = true) : levelRule sync = false := by
  have kind : sync.type = .STp ∨ sync.type = .STn ∨ sync.type = .STg := by
    simpa [clockRule, or_assoc] using h
  rcases kind with h | h | h <;> simp [levelRule, h]

def inForce (sig : SigSpec) (now : Reading) (sync : SyncRule) : Bool :=
  active now sync && decide (Whole sig sync)

private theorem firstRhs_active {b : SigBit} (inside : b ∈ sig) {syncs : List SyncRule}
    (whole : ∀ sync ∈ syncs, Whole sig sync ∨ ∀ b ∈ sig, b ∉ ruleTargets sync) :
    firstRhs (active now) syncs b =
      (syncs.find? (inForce sig now)).bind (fun sync => lastRhs (rulePairs sync) b) := by
  induction syncs with
  | nil => rfl
  | cons sync syncs ih =>
    have rest := ih (fun s h => whole s (by simp [h]))
    rw [firstRhs] at rest ⊢
    rw [findSome?_cons, rest, find?_cons]
    by_cases force : active now sync = true
    · rcases whole sync (by simp) with all | none
      · obtain ⟨rhs, found⟩ := exists_lastRhs (all b inside)
        simp [inForce, force, all, found]
      · have unassigned := lastRhs_rule_eq_none.mpr (none b inside)
        have part : ¬ Whole sig sync := fun all => none b inside (all b inside)
        simp [inForce, part, unassigned]
    · simp [inForce, force]

private theorem firstRhs_triggered {b : SigBit} (inside : b ∈ sig) {before after : List SyncRule}
    {clock : SyncRule} (settlesBefore : ∀ sync ∈ before, Settles sig sync)
    (settlesAfter : ∀ sync ∈ after, Settles sig sync) :
    firstRhs (triggered prev now) (before ++ clock :: after) b =
      if triggered prev now clock then lastRhs (rulePairs clock) b else none := by
  have silent : ∀ l : List SyncRule, (∀ sync ∈ l, Settles sig sync) →
      l.findSome? (fun sync => if triggered prev now sync then lastRhs (rulePairs sync) b
        else none) = none := by
    intro l settles
    rw [findSome?_eq_none_iff]
    intro sync member
    split
    · rename_i fires
      rcases settles sync member with none | ⟨-, level, -⟩
      · exact lastRhs_rule_eq_none.mpr (none b inside)
      · rw [not_level_of_clock (triggered_clock fires)] at level
        cases level
    · rfl
  rw [firstRhs, findSome?_append, silent before settlesBefore, Option.none_or,
    findSome?_cons, silent after settlesAfter]
  split <;> simp_all

private theorem bit_given {b rhs : SigBit} (found : lastRhs (rulePairs sync) b = some rhs) :
    now.bit ((lastRhs (rulePairs sync) b).getD (.const .Sz)) = now.bit rhs := by
  rw [found, Option.getD_some]

private theorem next_of_inForce {syncs : List SyncRule}
    (whole : ∀ sync ∈ syncs, Whole sig sync ∨ ∀ b ∈ sig, b ∉ ruleTargets sync)
    (first : syncs.find? (inForce sig now) = some sync) :
    sig.map (next syncs prev now) = now.sig (given sig sync) := by
  have all : Whole sig sync := by
    have force := find?_some first
    simp only [inForce, Bool.and_eq_true, decide_eq_true_eq] at force
    exact force.2
  rw [given, Reading.sig, map_map]
  refine map_congr_left fun b inside => ?_
  obtain ⟨rhs, found⟩ := exists_lastRhs (all b inside)
  rw [Kernel.SyncRules.next, firstRhs_active inside whole, first, Option.bind_some, found]
  exact (bit_given found).symm

section

variable {before after : List SyncRule} {clock : SyncRule} (whole : Whole sig clock)
  (settlesBefore : ∀ sync ∈ before, Settles sig sync)
  (settlesAfter : ∀ sync ∈ after, Settles sig sync)

include whole settlesBefore settlesAfter

/-- Every rule around the clock assigns the whole signal or nothing of it. -/
private theorem parts_of_settled :
    ∀ sync ∈ before ++ clock :: after, Whole sig sync ∨ ∀ b ∈ sig, b ∉ ruleTargets sync := by
  intro sync member
  have settled : ∀ s, Settles sig s → Whole sig s ∨ ∀ b ∈ sig, b ∉ ruleTargets s :=
    fun s h => h.symm.imp (fun h => h.1) id
  rcases mem_append.mp member with h | h
  · exact settled _ (settlesBefore sync h)
  · rcases mem_cons.mp h with rfl | h
    · exact .inl whole
    · exact settled _ (settlesAfter sync h)

private theorem next_of_clock (idle : (before ++ clock :: after).find? (inForce sig now) = none) :
    sig.map (next (before ++ clock :: after) prev now) =
      if triggered prev now clock then now.sig (given sig clock) else now.sig sig := by
  have parts := parts_of_settled whole settlesBefore settlesAfter
  by_cases fires : triggered prev now clock = true
  · rw [if_pos fires, given, Reading.sig, map_map]
    refine map_congr_left fun b inside => ?_
    obtain ⟨rhs, found⟩ := exists_lastRhs (whole b inside)
    rw [Kernel.SyncRules.next, firstRhs_active inside parts, idle, Option.bind_none,
      firstRhs_triggered inside settlesBefore settlesAfter, if_pos fires, found]
    exact (bit_given found).symm
  · rw [if_neg fires, Reading.sig]
    refine map_congr_left fun b inside => ?_
    rw [Kernel.SyncRules.next, firstRhs_active inside parts, idle, Option.bind_none,
      firstRhs_triggered inside settlesBefore settlesAfter, if_neg fires]

end

variable {now : Reading} {rules : List Rule}

def high (now : Reading) (rule : Rule) : Bool := now.sig rule.signal == [.S1]

structure Steady (now : Reading) (rule : Rule) : Prop where
  level : isLevelRule rule = true
  value : now.sig rule.signal = [State.ofBool (high now rule)]

def ruleActive (now : Reading) (rule : Rule) : Bool := high now rule == (rule.type == .ST1)

private theorem Steady.type {rule : Rule} (steady : Steady now rule) :
    rule.type = .ST0 ∨ rule.type = .ST1 := by
  simpa [isLevelRule] using steady.level

theorem ruleActive_eq {p : SyncRule × Nat} (steady : Steady now (ruleAt p)) :
    ruleActive now (ruleAt p) = active now p.1 := by
  have value : now.sig p.1.signal = [State.ofBool (high now (ruleAt p))] := steady.value
  have type : p.1.type = .ST0 ∨ p.1.type = .ST1 := steady.type
  rw [ruleActive, active, value]
  rcases type with h | h <;> cases high now (ruleAt p) <;> simp [ruleAt, h, State.ofBool]

private theorem sig_flatMap (steady : ∀ rule ∈ rules, Steady now rule) :
    now.sig (rules.flatMap Rule.signal) = (rules.map (high now)).map State.ofBool := by
  induction rules with
  | nil => rfl
  | cons rule rules ih =>
    rw [flatMap_cons, Reading.sig_append, (steady rule (by simp)).value,
      ih (fun r h => steady r (by simp [h]))]
    rfl

def Tells (rules : List Rule) (level : Level) : Prop :=
  ∀ now : Reading, (∀ rule ∈ rules, Steady now rule) →
    ∃ x, level.signal.value now = [State.ofBool x] ∧
      (x == level.positive) = rules.any (ruleActive now)

private theorem ofRule_tells (rule : Rule) : Tells [rule] (.ofRule rule) := by
  intro now steady
  refine ⟨high now rule, (steady rule (by simp)).value, ?_⟩
  simp [Level.ofRule, ruleActive]

theorem mergeGroup_tells (rstval : SigSpec) (sized : ∀ rule ∈ rules, rule.signal.length = 1) :
    ∃ level, mergeGroup rstval rules = .ok { level := some level, rstval := rstval, groups := [] } ∧
      Tells rules level := by
  have length : (rules.flatMap Rule.signal).length = (rules.map inactive).length := by
    rw [length_flatMap, length_map, map_congr_left sized]
    simp
  refine ⟨⟨true, .ne (.sig (rules.flatMap Rule.signal))
    (.sig (SigSpec.ofConst (rules.map inactive)))⟩, ?_, fun now steady => ?_⟩
  · rw [mergeGroup, if_pos length]
  · have compare : rules.map inactive =
        (rules.map (fun rule => rule.type == .ST0)).map State.ofBool := by
      rw [map_map]
      refine map_congr_left fun rule _ => ?_
      by_cases low : rule.type = .ST0 <;> simp [inactive, State.ofBool]
    refine ⟨rules.map (high now) != rules.map (fun rule => rule.type == .ST0), ?_, ?_⟩
    · rw [Net.value, Net.value, Net.value, Reading.sig_ofConst, compare, sig_flatMap steady]
      exact constNe_bools (by simp)
    · rw [beq_true, Bool.eq_iff_iff, bne_iff_ne, any_eq_true, ne_eq, map_inj_left]
      have differs : ∀ rule ∈ rules,
          (ruleActive now rule = true ↔ ¬ high now rule = (rule.type == .ST0)) := by
        intro rule member
        rcases (steady rule member).type with h | h <;>
          cases value : high now rule <;> simp [ruleActive, h, value]
      simp only [not_forall, exists_prop]
      exact exists_congr fun rule => and_congr_right fun member => (differs rule member).symm

/-- The low signals of a group are low together, unless a high one is in force as well. -/
def LowTogether (now : Reading) (rules : List Rule) : Prop :=
  ∀ r ∈ rules, ∀ r' ∈ rules, r.type = .ST0 → r'.type = .ST0 → ruleActive now r = true →
    ruleActive now r' = true ∨ ∃ h ∈ rules, h.type = .ST1 ∧ ruleActive now h = true

private theorem reduced_value {n : Net} {l : List Bool} {width : Nat}
    (value : n.value now = l.map State.ofBool) (length : l.length = width) (nonempty : l ≠ []) :
    (if width > 1 then Net.reduceOr n else n).value now = [State.ofBool (l.any id)] := by
  split
  · rw [Net.value, value, constReduceOr_bools]
  · have positive := length_pos_iff.mpr nonempty
    obtain ⟨x, rfl⟩ := length_eq_one_iff.mp (show l.length = 1 by omega)
    simp [value]

def ofType (type : SyncType) (rules : List Rule) : List Rule :=
  rules.filter (fun rule => rule.type = type)

section

variable (steady : ∀ rule ∈ rules, Steady now rule)

include steady

private theorem signalsOf_value (type : SyncType) :
    now.sig (signalsOf type rules) = ((ofType type rules).map (high now)).map State.ofBool :=
  sig_flatMap (fun rule h => steady rule (mem_filter.mp h).1)

private theorem signalsOf_length (type : SyncType) :
    (signalsOf type rules).length = ((ofType type rules).map (high now)).length := by
  simpa using congrArg length (signalsOf_value steady type)

private theorem any_active :
    rules.any (ruleActive now) =
      ((ofType .ST1 rules).any (high now) || (ofType .ST0 rules).any (fun r => !high now r)) := by
  induction rules with
  | nil => rfl
  | cons rule rules ih =>
    rw [any_cons, ih (fun r h => steady r (by simp [h]))]
    rcases (steady rule (by simp)).type with h | h
    · have low : (SyncType.ST0 == SyncType.ST1) = false := rfl
      simp [ofType, h, ruleActive, low, Bool.or_left_comm]
    · simp [ofType, h, ruleActive, Bool.or_assoc]

end

private theorem any_low (together : LowTogether now rules) (some : ofType .ST0 rules ≠ []) :
    ((ofType .ST1 rules).any (high now) || !(ofType .ST0 rules).any (high now)) =
      ((ofType .ST1 rules).any (high now) || (ofType .ST0 rules).any (fun r => !high now r)) := by
  cases raised : (ofType .ST1 rules).any (high now) with
  | true => rfl
  | false =>
    have quiet : ¬ ∃ h ∈ rules, h.type = .ST1 ∧ ruleActive now h = true := by
      rintro ⟨h, inside, type, force⟩
      have low : high now h = false := by
        simpa using any_eq_false.mp raised h (mem_filter.mpr ⟨inside, decide_eq_true type⟩)
      simp [ruleActive, low, type] at force
    have lows : ∀ r ∈ ofType .ST0 rules, r ∈ rules ∧ r.type = .ST0 ∧ ruleActive now r = !high now r := by
      intro r member
      obtain ⟨inside, type⟩ := mem_filter.mp member
      have kind := of_decide_eq_true type
      have low : (SyncType.ST0 == SyncType.ST1) = false := rfl
      exact ⟨inside, kind, by simp [ruleActive, kind, low]⟩
    obtain ⟨first, member⟩ := exists_mem_of_ne_nil _ some
    rw [Bool.false_or, Bool.false_or, Bool.eq_iff_iff, Bool.not_eq_true', any_eq_false, any_eq_true]
    constructor
    · exact fun none => ⟨first, member, by simpa using none first member⟩
    · rintro ⟨r, here, force⟩ r' here'
      obtain ⟨inside, type, value⟩ := lows r here
      obtain ⟨inside', type', value'⟩ := lows r' here'
      have both := (together r inside r' inside' type type' (value.trans force)).resolve_right quiet
      simpa using value'.symm.trans both

private theorem groupSignal_value (steady : ∀ rule ∈ rules, Steady now rule)
    (together : LowTogether now rules) (nonempty : rules ≠ []) :
    (groupSignal rules).value now = [State.ofBool (rules.any (ruleActive now))] := by
  have lows := signalsOf_value steady .ST0
  have highs := signalsOf_value steady .ST1
  have lowLength := signalsOf_length steady .ST0
  have highLength := signalsOf_length steady .ST1
  rw [any_active steady, groupSignal]
  by_cases some : ofType .ST0 rules = []
  · have noLow : ¬ (signalsOf .ST0 rules).length > 0 := by rw [lowLength, some]; simp
    have someHigh : ofType .ST1 rules ≠ [] := by
      intro none
      obtain ⟨rule, member⟩ := exists_mem_of_ne_nil _ nonempty
      have low := filter_eq_nil_iff.mp some rule member
      have high := filter_eq_nil_iff.mp none rule member
      rcases (steady rule member).type with h | h <;> simp [h] at low high
    simp only [if_neg noLow, some, any_nil, Bool.or_false]
    rw [reduced_value (n := .sig (signalsOf .ST1 rules)) highs highLength.symm (by simpa), any_map]
    rfl
  · have isLow : (signalsOf .ST0 rules).length > 0 := by
      rw [lowLength, length_map]
      exact length_pos_iff.mpr some
    have joined := reduced_value (n := .sig (signalsOf .ST0 rules)) lows lowLength.symm (by simpa)
    simp only [if_pos isLow]
    have both : (Net.append (.sig (signalsOf .ST1 rules))
        (.not (if (signalsOf .ST0 rules).length > 1 then .reduceOr (.sig (signalsOf .ST0 rules))
          else .sig (signalsOf .ST0 rules)) 1)).value now =
        ((ofType .ST1 rules).map (high now) ++ [!((ofType .ST0 rules).map (high now)).any id]).map
          State.ofBool := by
      rw [Net.value, Net.value, Net.value, highs, joined, constNot_bit]
      simp
    rw [reduced_value both (by simp [highLength]) (by simp), ← any_low together some]
    simp

variable {ids : WireIds} {many : List (SigSpec × Rule)}

variable {group : SigSpec × List Rule}

private theorem mem_asyncGroups :
    group ∈ asyncGroups ids many ↔
      ∃ p ∈ many, group = (p.1, (many.filter (fun q => q.1 = p.1)).map Prod.snd) := by
  rw [asyncGroups, mem_map]
  simp only [mem_insertionSort, mem_dedup, mem_map]
  simp [eq_comm]

private theorem asyncGroups_single (single : asyncGroups ids many = [group]) :
    (∀ p ∈ many, p.1 = group.1) ∧ group.2 = many.map Prod.snd := by
  have common : ∀ p ∈ many, p.1 = group.1 := by
    intro p member
    have here : (p.1, (many.filter (fun q => q.1 = p.1)).map Prod.snd) ∈ asyncGroups ids many :=
      mem_asyncGroups.mpr ⟨p, member, rfl⟩
    rw [single, mem_singleton] at here
    exact congrArg Prod.fst here
  refine ⟨common, ?_⟩
  have here : group ∈ asyncGroups ids many := by simp [single]
  obtain ⟨p, member, same⟩ := mem_asyncGroups.mp here
  have all : many.filter (fun q => q.1 = p.1) = many :=
    filter_eq_self.mpr (fun q h =>
      decide_eq_true ((common q h).trans (common p member).symm))
  rw [same, all]

private theorem asyncGroups_ne_nil (nonempty : many ≠ []) : asyncGroups ids many ≠ [] := by
  obtain ⟨p, member⟩ := exists_mem_of_ne_nil _ nonempty
  exact ne_nil_of_mem (mem_asyncGroups.mpr ⟨p, member, rfl⟩)

theorem exists_ne_of_groups (nonempty : many ≠ []) (several : (asyncGroups ids many).length ≠ 1) :
    ∃ p ∈ many, ∃ q ∈ many, p.1 ≠ q.1 := by
  by_contra none
  push Not at none
  obtain ⟨p, member⟩ := exists_mem_of_ne_nil _ nonempty
  have single : (many.map Prod.fst).dedup = [p.1] := by
    rw [map_congr_left fun q here => none q here p member, map_const',
      replicate_dedup (length_pos_iff.mpr nonempty).ne']
  apply several
  simp [asyncGroups, single]

variable {width : Nat} {groups : List (SigSpec × List Rule)}

def lastActive (now : Reading) (groups : List (SigSpec × List Rule)) :
    Option (SigSpec × List Rule) :=
  groups.reverse.find? (fun group => group.2.any (ruleActive now))

private theorem setClear_value
    (select : ∀ group ∈ groups, (groupSignal group.2).value now =
      [State.ofBool (group.2.any (ruleActive now))])
    (sized : ∀ group ∈ groups, group.1.length = width) :
    (setClear width groups).1.value now =
        ((lastActive now groups).map (fun group => now.sig group.1)).getD
          (Const.ofState .S0 width) ∧
      (setClear width groups).2.value now =
        ((lastActive now groups).map (fun group => (now.sig group.1).map invertBit)).getD
          (Const.ofState .S0 width) := by
  have lengths : ∀ f : SigSpec → Const, (∀ sig : SigSpec, (f sig).length = sig.length) →
      ∀ l : List (SigSpec × List Rule), (∀ group ∈ l, group.1.length = width) →
      (((lastActive now l).map (fun group => f group.1)).getD (Const.ofState .S0 width)).length =
        width := by
    intro f same l sizes
    cases found : lastActive now l with
    | none => simp [Const.ofState]
    | some group =>
      have member := mem_reverse.mp (mem_of_find?_eq_some found)
      simp [same, sizes group member]
  induction groups using reverseRecOn with
  | nil => simp [setClear, lastActive, Net.value]
  | append_singleton groups group ih =>
    obtain ⟨set, clear⟩ := ih (fun g h => select g (by simp [h])) (fun g h => sized g (by simp [h]))
    have here := sized group (by simp)
    have before : ∀ g ∈ groups, g.1.length = width := fun g h => sized g (by simp [h])
    have setLength := lengths now.sig (by simp) groups before
    have clearLength := lengths (fun sig => (now.sig sig).map invertBit) (by simp) groups before
    have invert : (Net.not (.sig group.1) width).value now = (now.sig group.1).map invertBit := by
      rw [Net.value, Net.value, ← here, ← Reading.sig_length now group.1]
      exact constNot_same _
    have step : lastActive now (groups ++ [group]) =
        if group.2.any (ruleActive now) then some group else lastActive now groups := by
      split <;> simp_all [lastActive]
    unfold setClear at set clear ⊢
    rw [foldl_append, foldl_cons, foldl_nil, step]
    constructor
    · rw [Net.value, Net.value, select group (by simp), set, muxValue_bit (by simp [setLength, here])]
      split <;> simp
    · rw [Net.value, select group (by simp), clear, invert,
        muxValue_bit (by simp [here]; exact clearLength)]
      split <;> simp

private theorem setClearBit_defined {v : State} (defined : v.isDef = true) (other : State) :
    Register.setClearBit (invertBit v) v other = v := by
  cases v <;> first | rfl | cases defined

private theorem zipWith_setClear {v other : Const} (defined : ∀ s ∈ v, s.isDef = true)
    (length : v.length = other.length) :
    List.zipWith (fun p other => Register.setClearBit p.1 p.2 other) ((v.map invertBit).zip v) other =
      v := by
  apply ext_getElem (by simp [length])
  intro i inside inside'
  simp only [getElem_zipWith, getElem_zip, getElem_map]
  exact setClearBit_defined (defined _ (getElem_mem inside')) _

private theorem zipWith_idle {other : Const} {width : Nat} (length : other.length = width) :
    List.zipWith (fun p other => Register.setClearBit p.1 p.2 other)
      ((Const.ofState .S0 width).zip (Const.ofState .S0 width)) other = other := by
  apply ext_getElem (by simp [Const.ofState, length])
  simp [Const.ofState, Register.setClearBit]

variable {syncs : List SyncRule} {clock : SyncRule} {prev now : Reading}

/-- The rules of a round: one clock rule assigns the signal, and the rest is settled. -/
structure Round (sig : SigSpec) (syncs : List SyncRule) (clock : SyncRule) : Prop where
  wires : ∀ b ∈ sig, b.isWire = true
  nonempty : sig ≠ []
  isClock : clockRule clock = true
  whole : Whole sig clock
  split : ∃ before after : List (SyncRule × Nat), ∃ place,
    syncs.zipIdx = before ++ (clock, place) :: after ∧ (∀ p ∈ before, Settles sig p.1) ∧
      ∀ p ∈ after, Settles sig p.1

private theorem Round.settled (round : Round sig syncs clock) :
    ∃ before after : List SyncRule, syncs = before ++ clock :: after ∧
      (∀ sync ∈ before, Settles sig sync) ∧ ∀ sync ∈ after, Settles sig sync := by
  obtain ⟨before, after, place, split, settlesBefore, settlesAfter⟩ := round.split
  refine ⟨before.map Prod.fst, after.map Prod.fst, ?_, forall_mem_map.mpr settlesBefore,
    forall_mem_map.mpr settlesAfter⟩
  simpa using congrArg (map Prod.fst) split

private theorem Round.parts (round : Round sig syncs clock) :
    ∀ sync ∈ syncs, Whole sig sync ∨ ∀ b ∈ sig, b ∉ ruleTargets sync := by
  obtain ⟨before, after, rfl, settlesBefore, settlesAfter⟩ := round.settled
  exact parts_of_settled round.whole settlesBefore settlesAfter

theorem mem_levelsOf {p : SigSpec × Rule} {l : List (SyncRule × Nat)} :
    p ∈ levelsOf sig l ↔ ∃ q ∈ l, levelRule q.1 = true ∧ Whole sig q.1 ∧
      p = (given sig q.1, ruleAt q) := by
  simp only [levelsOf, mem_map, mem_filter, Bool.and_eq_true, decide_eq_true_eq, and_assoc,
    eq_comm (b := p)]

private theorem Round.reference (round : Round sig syncs clock) (prev : Reading)
    (steady : ∀ p ∈ levelsOf sig syncs.zipIdx, Steady now p.2) :
    ((∀ p ∈ levelsOf sig syncs.zipIdx, ruleActive now p.2 = false) ∧
      sig.map (next syncs prev now) =
        if triggered prev now clock then now.sig (given sig clock) else now.sig sig) ∨
    ∃ p ∈ levelsOf sig syncs.zipIdx, ruleActive now p.2 = true ∧
      sig.map (next syncs prev now) = now.sig p.1 := by
  cases first : syncs.find? (inForce sig now) with
  | none =>
    left
    constructor
    · intro p member
      obtain ⟨q, here, level, whole, rfl⟩ := mem_levelsOf.mp member
      have inside : q.1 ∈ syncs := fst_mem_of_mem_zipIdx here
      have idle := find?_eq_none.mp first q.1 inside
      rw [ruleActive_eq (steady _ member)]
      simpa [inForce, whole] using idle
    · obtain ⟨before, after, rfl, settlesBefore, settlesAfter⟩ := round.settled
      exact next_of_clock round.whole settlesBefore settlesAfter first
  | some sync =>
    right
    have force := find?_some first
    simp only [inForce, Bool.and_eq_true, decide_eq_true_eq] at force
    obtain ⟨i, at_i⟩ := mem_iff_getElem?.mp (mem_of_find?_eq_some first)
    have here : (sync, i) ∈ syncs.zipIdx := mem_zipIdx_iff_getElem?.mpr at_i
    have member : (given sig sync, ruleAt (sync, i)) ∈ levelsOf sig syncs.zipIdx :=
      mem_levelsOf.mpr ⟨(sync, i), here, active_level force.1, force.2, rfl⟩
    refine ⟨_, member, ?_, next_of_inForce round.parts first⟩
    rw [ruleActive_eq (steady _ member)]
    exact force.1

variable {value : SigSpec}

private theorem Round.reference_common (round : Round sig syncs clock) (prev : Reading)
    (steady : ∀ p ∈ levelsOf sig syncs.zipIdx, Steady now p.2)
    (common : ∀ p ∈ levelsOf sig syncs.zipIdx, p.1 = value) :
    sig.map (next syncs prev now) =
      if ((levelsOf sig syncs.zipIdx).map Prod.snd).any (ruleActive now) then now.sig value
      else if triggered prev now clock then now.sig (given sig clock) else now.sig sig := by
  rcases round.reference prev steady with ⟨quiet, idle⟩ | ⟨p, member, force, decides⟩
  · have off : ((levelsOf sig syncs.zipIdx).map Prod.snd).any (ruleActive now) = false := by
      simpa using quiet
    rw [off, idle]
    simp
  · have on : ((levelsOf sig syncs.zipIdx).map Prod.snd).any (ruleActive now) = true := by
      simpa using ⟨p.1, p.2, member, force⟩
    rw [on, decides, common p member]
    simp

private theorem triggered_edge (isClock : clockRule clock = true) (signal : clock.type ≠ .STg) :
    triggered prev now clock = edge prev now clock.signal (clock.type == .STp) := by
  have kind : clock.type = .STp ∨ clock.type = .STn ∨ clock.type = .STg := by
    simpa [clockRule, or_assoc] using isClock
  rcases kind with h | h | h
  · simp [triggered, h]
  · have falling : (SyncType.STn == SyncType.STp) = false := rfl
    simp [triggered, h, falling]
  · exact absurd h signal

variable {assignMap : SigBit → SigBit} {ce : ConstEval} {c : Collected}

/-- The alias map on the bits of a signal. -/
structure Aliases (assignMap : SigBit → SigBit) (sig : SigSpec) : Prop where
  const : ∀ s, assignMap (.const s) = .const s
  wires : ∀ b ∈ sig, (assignMap b).isWire = true
  again : ∀ b ∈ sig, assignMap (assignMap b) = assignMap b

structure Respects (assignMap : SigBit → SigBit) (ce : ConstEval) (now : Reading) : Prop where
  aliased : ∀ b, now.bit (assignMap b) = now.bit b
  evaluates : ∀ sig, now.sig (ce.eval sig).2 = now.sig sig

theorem Respects.sig_map (respects : Respects assignMap ce now) (sig : SigSpec) :
    now.sig (sig.map assignMap) = now.sig sig := by
  rw [Reading.sig, map_map]
  exact map_congr_left fun b _ => respects.aliased b

private theorem map_floating (const : ∀ s, assignMap (.const s) = .const s) (width : Nat) :
    (floating width).map assignMap = floating width := by
  simp [floating, const]

private theorem floating_ne (aliases : Aliases assignMap sig) (nonempty : sig ≠ []) (width : Nat) :
    floating width ≠ sig.map assignMap := by
  intro same
  obtain ⟨b, inside⟩ := exists_mem_of_ne_nil _ nonempty
  have mapped : assignMap b ∈ floating width := same ▸ mem_map.mpr ⟨b, inside, rfl⟩
  have wire := aliases.wires b inside
  rw [eq_of_mem_replicate mapped] at wire
  cases wire

private theorem Found.clocked (found : Found sig syncs clock c) :
    (c.syncEdge.isNone && !c.globalClock) = false := by
  by_cases global : clock.type = .STg
  · simp [(found.global global).2]
  · obtain ⟨index, edge⟩ := found.edge global
    simp [edge]

private theorem genRegister_plain (found : Found sig syncs clock c) (mapped sigQ : SigSpec) (d : Net)
    (width : Nat) :
    genRegister ce c mapped sigQ d { level := none, rstval := floating width, groups := [] } =
      .ok (genDff d (constBits (floating width)) sigQ c.syncEdge none) := by
  rw [genRegister]
  simp [found.syncAlways, Found.clocked found, isFullyConst, floating, SigBit.isWire]

private theorem genDff_plain (found : Found sig syncs clock c) (isClock : clockRule clock = true)
    (d : Net) (value : Const) :
    (genDff d value sig c.syncEdge none).next prev now =
      if triggered prev now clock then d.value now else now.sig sig := by
  by_cases global : clock.type = .STg
  · rw [(found.global global).1, genDff, Register.next]
    simp [triggered, global]
  · obtain ⟨index, edge⟩ := found.edge global
    rw [edge, genDff, Register.next, triggered_edge isClock global]

private theorem genDff_q (d : Net) (value : Const) (sigQ : SigSpec) (edge : Option Rule)
    (arst : Option Level) : (genDff d value sigQ edge arst).q = sigQ := by
  cases edge <;> cases arst <;> rfl

private theorem constBits_value (sig : SigSpec) (const : isFullyConst sig = true) :
    now.sig sig = constBits sig := by
  refine map_congr_left fun b inside => ?_
  have bit := all_eq_true.mp const b inside
  cases b with
  | wire w offset => cases bit
  | const s => rfl

theorem mergeRules_spec (ids : WireIds) (fresh : Fresh sig c) (sized : ∀ p ∈ met c, p.2.signal.length = 1) :
    (met c = [] ∧ mergeRules ids sig.length c =
      .ok { level := none, rstval := floating sig.length, groups := [] }) ∨
    (∃ level value, mergeRules ids sig.length c =
        .ok { level := some level, rstval := value, groups := [] } ∧
      met c ≠ [] ∧ (∀ p ∈ met c, p.1 = value) ∧ Tells ((met c).map Prod.snd) level) ∨
    (mergeRules ids sig.length c =
        .ok { level := none, rstval := floating sig.length, groups := asyncGroups ids (met c) } ∧
      asyncGroups ids (met c) ≠ [] ∧ ∃ p ∈ met c, ∃ q ∈ met c, p.1 ≠ q.1) := by
  by_cases many : c.manyAsyncRules = []
  · have direct : mergeRules ids sig.length c =
        .ok { level := c.syncLevel.map Level.ofRule, rstval := c.rstval, groups := [] } := by
      rw [mergeRules, if_pos (by simp [many])]
    rw [direct]
    cases pending : c.syncLevel with
    | none =>
      left
      exact ⟨by simp [met, many, pending], by rw [(fresh pending).1]; rfl⟩
    | some rule =>
      right; left
      have single : met c = [(c.rstval, rule)] := by simp [met, many, pending]
      rw [single]
      exact ⟨.ofRule rule, c.rstval, rfl, by simp, by simp, ofRule_tells rule⟩
  · right
    obtain ⟨rule, pending⟩ : ∃ rule, c.syncLevel = some rule := by
      cases pending : c.syncLevel with
      | none => exact absurd (fresh pending).2 many
      | some rule => exact ⟨rule, rfl⟩
    have nonempty : met c ≠ [] := by simp [met, many]
    have last : (c.rstval, rule) ∈ met c := by simp [met, pending]
    have merged : mergeRules ids sig.length c =
        mergeGroups sig.length c.rstval (asyncGroups ids (met c)) := by
      rw [mergeRules, if_neg (by simp [many])]
      rfl
    rw [merged]
    by_cases one : (asyncGroups ids (met c)).length = 1
    · left
      obtain ⟨group, single⟩ := length_eq_one_iff.mp one
      obtain ⟨common, rules⟩ := asyncGroups_single single
      have bits : ∀ rule ∈ group.2, rule.signal.length = 1 := by
        intro rule member
        rw [rules] at member
        obtain ⟨p, here, rfl⟩ := mem_map.mp member
        exact sized p here
      obtain ⟨level, result, tells⟩ := mergeGroup_tells c.rstval bits
      refine ⟨level, c.rstval, ?_, nonempty, fun p member => ?_, rules ▸ tells⟩
      · rw [single, mergeGroups, result]
      · rw [common p member, ← common _ last]
    · right
      refine ⟨?_, asyncGroups_ne_nil nonempty, exists_ne_of_groups nonempty one⟩
      unfold mergeGroups
      split
      · simp_all
      · rfl

/-- Where there are several values, those of the rules in force agree and are defined, and the low
signals of a value are low together. -/
def Mixed (levels : List (SigSpec × Rule)) (now : Reading) : Prop :=
  (∃ p ∈ levels, ∃ q ∈ levels, p.1 ≠ q.1) →
    (∀ p ∈ levels, LowTogether now ((levels.filter (fun q => q.1 = p.1)).map Prod.snd)) ∧
    ∀ p ∈ levels, ruleActive now p.2 = true →
      (∀ s ∈ now.sig p.1, s.isDef = true) ∧
      ∀ q ∈ levels, ruleActive now q.2 = true → now.sig p.1 = now.sig q.1

/-- The cell follows the rules at its signal. -/
def Realises (assignMap : SigBit → SigBit) (ce : ConstEval) (sig : SigSpec)
    (syncs : List SyncRule) (register : Register) : Prop :=
  register.q.map assignMap = sig.map assignMap ∧
    ∀ prev now, Respects assignMap ce now →
      (∀ p ∈ levelsOf sig syncs.zipIdx, Steady now p.2) → Mixed (levelsOf sig syncs.zipIdx) now →
      register.next prev now = sig.map (next syncs prev now)

variable {level : Level} {mapped insig : SigSpec}

private theorem Tells.isActive {rules : List Rule} (tells : Tells rules level)
    (steady : ∀ rule ∈ rules, Steady now rule) :
    level.isActive now = rules.any (ruleActive now) := by
  obtain ⟨x, value, same⟩ := tells now steady
  rw [Level.isActive, value, ← same]
  cases x <;> cases level.positive <;> rfl

/-- The data input of a signal that its level keeps. -/
def holdNet (mapped insig : SigSpec) (level : Level) : Net :=
  if level.positive then .mux (.sig insig) (.sig mapped) level.signal
  else .mux (.sig mapped) (.sig insig) level.signal

private theorem holdNet_value {rules : List Rule} (tells : Tells rules level)
    (steady : ∀ rule ∈ rules, Steady now rule) (length : mapped.length = insig.length) :
    (holdNet mapped insig level).value now =
      if rules.any (ruleActive now) then now.sig mapped else now.sig insig := by
  obtain ⟨x, value, same⟩ := tells now steady
  rw [holdNet, ← same]
  cases positive : level.positive
  · rw [if_neg (by simp), Net.value, Net.value, Net.value, value, muxValue_bit (by simp [length])]
    cases x <;> rfl
  · rw [if_pos rfl, Net.value, Net.value, Net.value, value, muxValue_bit (by simp [length])]
    cases x <;> rfl

section

variable (round : Round sig syncs clock) (found : Found sig syncs clock c)

include round found

private theorem realises_plain (none : levelsOf sig syncs.zipIdx = []) :
    Realises assignMap ce sig syncs
      (genDff (.sig (c.insig.map assignMap)) (constBits (floating sig.length)) sig c.syncEdge
        Option.none) := by
  refine ⟨by rw [genDff_q], fun prev now respects steady _ => ?_⟩
  rw [genDff_plain found round.isClock, Net.value, respects.sig_map, found.insig]
  rcases round.reference prev steady with ⟨-, idle⟩ | ⟨p, member, -⟩
  · exact idle.symm
  · simp [none] at member

variable (common : ∀ p ∈ levelsOf sig syncs.zipIdx, p.1 = value)
  (tells : Tells ((levelsOf sig syncs.zipIdx).map Prod.snd) level)

include common tells in
private theorem realises_hold (keeps : value.map assignMap = sig.map assignMap) :
    Realises assignMap ce sig syncs
      (genDff (holdNet (sig.map assignMap) (c.insig.map assignMap) level)
        (constBits (floating sig.length)) sig c.syncEdge Option.none) := by
  refine ⟨by rw [genDff_q], fun prev now respects steady _ => ?_⟩
  have same : now.sig value = now.sig sig := by
    rw [← respects.sig_map value, keeps, respects.sig_map]
  rw [genDff_plain found round.isClock, holdNet_value tells (forall_mem_map.mpr steady)
    (by simp [found.insig]), respects.sig_map, respects.sig_map, found.insig,
    round.reference_common prev steady common, same]
  split_ifs <;> rfl

include common tells in
theorem realises_level (signal : clock.type ≠ .STg) {register : Register} (q : register.q = sig)
    (cell : ∀ prev now, Respects assignMap ce now → register.next prev now =
      if level.isActive now then now.sig value
      else if edge prev now clock.signal (clock.type == .STp) then now.sig c.insig
      else now.sig sig) :
    Realises assignMap ce sig syncs register := by
  refine ⟨by rw [q], fun prev now respects steady _ => ?_⟩
  rw [cell prev now respects, tells.isActive (forall_mem_map.mpr steady),
    ← triggered_edge round.isClock signal, found.insig, round.reference_common prev steady common]

private theorem realises_groups (ids : WireIds) (aliases : Aliases assignMap sig)
    (signal : clock.type ≠ .STg)
    (several : ∃ p ∈ levelsOf sig syncs.zipIdx, ∃ q ∈ levelsOf sig syncs.zipIdx, p.1 ≠ q.1) :
    Realises assignMap ce sig syncs
      (.dffsr clock.signal (clock.type == .STp)
        (setClear sig.length (asyncGroups ids (levelsOf sig syncs.zipIdx))).1
        (setClear sig.length (asyncGroups ids (levelsOf sig syncs.zipIdx))).2
        (.sig (c.insig.map assignMap)) (sig.map assignMap)) := by
  generalize levels : levelsOf sig syncs.zipIdx = L at several
  have sized : ∀ group ∈ asyncGroups ids L, group.1.length = sig.length := by
    intro group member
    obtain ⟨p, here, rfl⟩ := mem_asyncGroups.mp member
    rw [← levels] at here
    obtain ⟨q, -, -, -, rfl⟩ := mem_levelsOf.mp here
    exact given_length sig q.1
  constructor
  · show (sig.map assignMap).map assignMap = sig.map assignMap
    rw [map_map]
    exact map_congr_left aliases.again
  · intro prev now respects steady mixed
    rw [levels] at steady mixed
    obtain ⟨together, agree⟩ := mixed several
    have members : ∀ group ∈ asyncGroups ids L, ∀ rule ∈ group.2,
        ∃ p ∈ L, p.1 = group.1 ∧ p.2 = rule := by
      intro group member rule inside
      obtain ⟨p, -, rfl⟩ := mem_asyncGroups.mp member
      obtain ⟨q, here, rfl⟩ := mem_map.mp inside
      obtain ⟨inL, same⟩ := mem_filter.mp here
      exact ⟨q, inL, of_decide_eq_true same, rfl⟩
    have select : ∀ group ∈ asyncGroups ids L, (groupSignal group.2).value now =
        [State.ofBool (group.2.any (ruleActive now))] := by
      intro group member
      refine groupSignal_value (fun rule inside => ?_) ?_ ?_
      · obtain ⟨p, here, -, rfl⟩ := members group member rule inside
        exact steady p here
      · obtain ⟨p, here, rfl⟩ := mem_asyncGroups.mp member
        exact together p here
      · obtain ⟨p, here, rfl⟩ := mem_asyncGroups.mp member
        exact ne_nil_of_mem (mem_map.mpr ⟨p, mem_filter.mpr ⟨here, by simp⟩, rfl⟩)
    obtain ⟨set, clear⟩ := setClear_value select sized
    have clocked : (if edge prev now clock.signal (clock.type == .STp) then
        (Net.sig (c.insig.map assignMap)).value now else now.sig (sig.map assignMap)) =
        if triggered prev now clock then now.sig (given sig clock) else now.sig sig := by
      rw [Net.value, respects.sig_map, respects.sig_map, found.insig,
        triggered_edge round.isClock signal]
    have width : (if triggered prev now clock then now.sig (given sig clock)
        else now.sig sig).length = sig.length := by
      split <;> simp
    rw [Register.next, set, clear, clocked]
    have reference := round.reference prev (levels.symm ▸ steady)
    rw [levels] at reference
    cases last : lastActive now (asyncGroups ids L) with
    | none =>
      have quiet : ∀ p ∈ L, ruleActive now p.2 = false := by
        intro p member
        have here : (p.1, (L.filter (fun q => q.1 = p.1)).map Prod.snd) ∈ asyncGroups ids L :=
          mem_asyncGroups.mpr ⟨p, member, rfl⟩
        have idle := find?_eq_none.mp last _ (mem_reverse.mpr here)
        by_contra force
        refine idle (any_eq_true.mpr ⟨p.2, ?_, by simpa using force⟩)
        exact mem_map.mpr ⟨p, mem_filter.mpr ⟨member, by simp⟩, rfl⟩
      rw [Option.map_none, Option.map_none, Option.getD_none, zipWith_idle width]
      rcases reference with ⟨-, idle⟩ | ⟨p, member, force, -⟩
      · exact idle.symm
      · rw [quiet p member] at force
        cases force
    | some group =>
      have member := mem_reverse.mp (mem_of_find?_eq_some last)
      have chosen : group.2.any (ruleActive now) = true :=
        find?_some (p := fun g : SigSpec × List Rule => g.2.any (ruleActive now)) last
      obtain ⟨rule, inside, force⟩ := any_eq_true.mp chosen
      obtain ⟨p, here, value, rfl⟩ := members group member rule inside
      obtain ⟨defined, same⟩ := agree p here force
      rw [Option.map_some, Option.map_some, Option.getD_some, Option.getD_some, ← value,
        zipWith_setClear defined (by rw [width, Reading.sig_length, value, sized group member])]
      rcases reference with ⟨quiet, -⟩ | ⟨q, inL, force', decides⟩
      · rw [quiet p here] at force
        cases force
      · rw [decides, same q inL force']

end

private theorem createRegister_eq {resets resets' : Resets} {d : Net}
    (merged : mergeRules ids sig.length c = .ok resets)
    (held : foldHold (sig.map assignMap) (c.insig.map assignMap)
      { resets with rstval := resets.rstval.map assignMap } = .ok (d, resets')) :
    createRegister ids assignMap ce sig c =
      genRegister ce c (sig.map assignMap) sig d resets' := by
  rw [createRegister, merged]
  show (foldHold (sig.map assignMap) (c.insig.map assignMap)
    { resets with rstval := resets.rstval.map assignMap } >>= _) = _
  rw [held]
  rfl

private theorem levels_of_groups (ids : WireIds) (sig : SigSpec) (l : List (SyncRule × Nat)) :
    (asyncGroups ids (levelsOf sig l)).all (fun group => group.2.all isLevelRule) = true := by
  refine all_eq_true.mpr fun group member => all_eq_true.mpr fun rule inside => ?_
  obtain ⟨p, -, rfl⟩ := mem_asyncGroups.mp member
  obtain ⟨q, here, rfl⟩ := mem_map.mp inside
  obtain ⟨sync, -, level, -, rfl⟩ := mem_levelsOf.mp (mem_filter.mp here).1
  exact level

private theorem foldHold_other {resets : Resets} (other : resets.rstval ≠ mapped) :
    foldHold mapped insig resets = .ok (.sig insig, resets) := by
  rw [foldHold, if_neg other]

private theorem genRegister_level (assignMap : SigBit → SigBit) (ce : ConstEval)
    (found : Found sig syncs clock c) {index : Nat}
    (edged : c.syncEdge = some ⟨index, clock.type, clock.signal⟩) (value : SigSpec) (level : Level)
    (d : Net) (mapped : SigSpec) :
    ∃ register, genRegister ce c mapped sig d
        { level := some level, rstval := value, groups := [] } = .ok register ∧
      register.q = sig ∧
      ∀ prev now, Respects assignMap ce now → register.next prev now =
        if level.isActive now then now.sig value
        else if edge prev now clock.signal (clock.type == .STp) then d.value now
        else now.sig sig := by
  by_cases const : isFullyConst value = true
  · refine ⟨.adff clock.signal (clock.type == .STp) level (constBits value) d sig, ?_, rfl,
      fun prev now _ => ?_⟩
    · simp [genRegister, found.syncAlways, edged, const, genDff]
    · rw [Register.next, ← constBits_value value const]
  · by_cases evaluated : (ce.eval value).1 = true
    · refine ⟨.adff clock.signal (clock.type == .STp) level (constBits (ce.eval value).2) d sig, ?_,
        rfl, fun prev now respects => ?_⟩
      · simp [genRegister, found.syncAlways, edged, const, evaluated, genDff]
      · rw [Register.next, ← constBits_value _ (ce.const value evaluated), respects.evaluates]
    · refine ⟨.aldff clock.signal (clock.type == .STp) level (ce.eval value).2 d sig, ?_,
        rfl, fun prev now respects => ?_⟩
      · simp [genRegister, found.syncAlways, edged, const, evaluated]
      · rw [Register.next, respects.evaluates]

theorem createRegister_spec (ids : WireIds) (ce : ConstEval) (round : Round sig syncs clock)
    (found : Found sig syncs clock c) (aliases : Aliases assignMap sig)
    (unreset : clock.type = .STg → ∀ p ∈ levelsOf sig syncs.zipIdx, p.1 = sig)
    (sized : ∀ p ∈ levelsOf sig syncs.zipIdx, p.2.signal.length = 1) :
    ∃ register, createRegister ids assignMap ce sig c = .ok register ∧
      Realises assignMap ce sig syncs register := by
  have undriven : (floating sig.length).map assignMap ≠ sig.map assignMap := by
    rw [map_floating aliases.const]
    exact floating_ne aliases round.nonempty _
  have outcomes := mergeRules_spec ids found.fresh (found.levels ▸ sized)
  rw [found.levels] at outcomes
  rcases outcomes with ⟨none, merged⟩ | ⟨level, value, merged, some, common, tells⟩ |
    ⟨merged, nonempty, several⟩
  · refine ⟨_, ?_, realises_plain round found none⟩
    rw [createRegister_eq merged (foldHold_other undriven), map_floating aliases.const,
      genRegister_plain found]
  · by_cases keeps : value.map assignMap = sig.map assignMap
    · refine ⟨_, ?_, realises_hold round found common tells keeps⟩
      rw [createRegister_eq merged (by rw [keeps, foldHold, if_pos rfl]), length_map,
        genRegister_plain found]
      rfl
    · have signal : clock.type ≠ .STg := by
        intro global
        obtain ⟨p, member⟩ := exists_mem_of_ne_nil _ some
        exact keeps (by rw [← common p member, unreset global p member])
      obtain ⟨index, edged⟩ := found.edge signal
      obtain ⟨register, created, q, cell⟩ := genRegister_level assignMap ce
        found edged (value.map assignMap) level (.sig (c.insig.map assignMap)) (sig.map assignMap)
      refine ⟨register, ?_, realises_level round found common tells signal q ?_⟩
      · rw [createRegister_eq merged (foldHold_other keeps)]
        exact created
      · intro prev now respects
        rw [cell prev now respects, Net.value, respects.sig_map, respects.sig_map]
  · have signal : clock.type ≠ .STg := by
      intro global
      obtain ⟨p, member, q, member', other⟩ := several
      exact other ((unreset global p member).trans (unreset global q member').symm)
    obtain ⟨index, edged⟩ := found.edge signal
    refine ⟨_, ?_, realises_groups round found ids aliases signal several⟩
    rw [createRegister_eq merged (foldHold_other undriven)]
    have kinds := levels_of_groups ids sig syncs.zipIdx
    simp [genRegister, found.syncAlways, edged, nonempty, genDffsrComplex, kinds]

end ManticoreFrontend.Passes.ProcDffRegisters
