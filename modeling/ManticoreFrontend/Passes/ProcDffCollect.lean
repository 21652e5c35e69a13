/- source: passes/proc/proc_dff.cc
   digest: The signal of a round is assigned by each rule as a whole or not at all, and what the
     rule loop finds out about it. -/

import ManticoreFrontend.Passes.ProcDff

namespace ManticoreFrontend.Passes.ProcDffCollect

open Kernel.Signals
open Kernel.SigSpecs (WireIds)
open Kernel SigSets Processes SyncRules
open Passes.ProcArst (replaceBit)
open ProcDff List

variable {syncs : List SyncRule} {sig : SigSpec}

structure Cut (syncs : List SyncRule) (sig : SigSpec) : Prop where
  nonempty : sig ≠ []
  nodup : sig.Nodup
  whole : ∀ sync ∈ syncs, (∀ b ∈ sig, b ∈ ruleTargets sync) ∨ (∀ b ∈ sig, b ∉ ruleTargets sync)
  inAction : ∃ a ∈ syncs.flatMap SyncRule.actions, ∀ b ∈ sig, b ∈ a.lhs

private theorem startLvalue_spec (ids : WireIds) (syncs : List SyncRule) :
    (syncs.foldl (startLvalue ids) [] = [] ∧ targets syncs = []) ∨
      ∃ a ∈ syncs.flatMap SyncRule.actions, a.lhs ≠ [] ∧
        syncs.foldl (startLvalue ids) [] = sortAndUnify ids a.lhs := by
  induction syncs using reverseRecOn with
  | nil => exact .inl ⟨rfl, rfl⟩
  | append_singleton syncs sync ih =>
    rw [foldl_append, foldl_cons, foldl_nil, startLvalue]
    cases found : sync.actions.find? (fun a => !a.lhs.isEmpty) with
    | some a =>
      have nonempty : a.lhs ≠ [] := by simpa using find?_some found
      have member := mem_of_find?_eq_some found
      exact .inr ⟨a, by simp [member], nonempty, rfl⟩
    | none =>
      have empty : ∀ a ∈ sync.actions, a.lhs = [] := by simpa using found
      have noTargets : ruleTargets sync = [] := flatMap_eq_nil_iff.mpr empty
      obtain ⟨first, all⟩ | ⟨a, member, nonempty, same⟩ := ih
      · exact .inl ⟨first, by simp_all [targets]⟩
      · exact .inr ⟨a, by simp_all, nonempty, same⟩

private theorem cutLvalue_spec (ids : WireIds) (sync : SyncRule) (wires : ∀ b ∈ sig, b.isWire = true)
    (nonempty : sig ≠ []) (nodup : sig.Nodup) :
    cutLvalue ids sig sync ≠ [] ∧ (cutLvalue ids sig sync).Nodup ∧
      (∀ b ∈ cutLvalue ids sig sync, b ∈ sig) ∧
      ((∀ b ∈ cutLvalue ids sig sync, b ∈ ruleTargets sync) ∨
        ∀ b ∈ cutLvalue ids sig sync, b ∉ ruleTargets sync) := by
  have common : ∀ b, b ∈ extractSig (sortAndUnify ids (ruleTargets sync)) sig ↔
      b ∈ ruleTargets sync ∧ b ∈ sig := by
    intro b
    rw [mem_extractSig, mem_sortAndUnify, covered_iff]
    constructor
    · exact fun h => ⟨h.1, h.2.2⟩
    · exact fun h => ⟨h.1, wires b h.2, h.2⟩
  unfold cutLvalue
  by_cases empty : extractSig (sortAndUnify ids (ruleTargets sync)) sig = []
  · rw [if_pos (by simp [empty])]
    refine ⟨nonempty, nodup, fun _ h => h, .inr (fun b inside assigned => ?_)⟩
    have := (common b).mpr ⟨assigned, inside⟩
    simp [empty] at this
  · rw [if_neg (by simpa using empty)]
    exact ⟨empty, nodup_extractSig (nodup_sortAndUnify ids _) nodup,
      fun b h => ((common b).mp h).2, .inl (fun b h => ((common b).mp h).1)⟩

private theorem cutLvalues_spec (ids : WireIds) (syncs : List SyncRule)
    (wires : ∀ b ∈ sig, b.isWire = true) (nonempty : sig ≠ []) (nodup : sig.Nodup) :
    syncs.foldl (cutLvalue ids) sig ≠ [] ∧ (syncs.foldl (cutLvalue ids) sig).Nodup ∧
      (∀ b ∈ syncs.foldl (cutLvalue ids) sig, b ∈ sig) ∧
      ∀ sync ∈ syncs, (∀ b ∈ syncs.foldl (cutLvalue ids) sig, b ∈ ruleTargets sync) ∨
        (∀ b ∈ syncs.foldl (cutLvalue ids) sig, b ∉ ruleTargets sync) := by
  induction syncs generalizing sig with
  | nil => exact ⟨nonempty, nodup, fun _ h => h, by simp⟩
  | cons sync syncs ih =>
    obtain ⟨some, unique, sub, whole⟩ :=
      cutLvalue_spec ids sync wires nonempty nodup
    obtain ⟨some', unique', sub', whole'⟩ := ih (fun b h => wires b (sub b h)) some unique
    refine ⟨some', unique', fun b h => sub b (sub' b h), fun other member => ?_⟩
    rcases mem_cons.mp member with rfl | member
    · exact whole.imp (fun h b hb => h b (sub' b hb)) (fun h b hb => h b (sub' b hb))
    · exact whole' other member

variable {b : SigBit}

theorem mem_targets_of_action {a : Action}
    (member : a ∈ syncs.flatMap SyncRule.actions) (inside : b ∈ a.lhs) : b ∈ targets syncs := by
  obtain ⟨sync, here, action⟩ := mem_flatMap.mp member
  exact mem_flatMap.mpr ⟨sync, here, mem_flatMap.mpr ⟨a, action, inside⟩⟩

theorem findAnyLvalue_spec (ids : WireIds) (wires : ∀ b ∈ targets syncs, b.isWire = true) :
    (findAnyLvalue ids syncs = [] ∧ targets syncs = []) ∨ Cut syncs (findAnyLvalue ids syncs) := by
  rw [findAnyLvalue]
  obtain ⟨first, all⟩ | ⟨a, member, nonempty, same⟩ := startLvalue_spec ids syncs
  · left
    rw [first]
    refine ⟨?_, all⟩
    clear first all wires
    induction syncs with
    | nil => rfl
    | cons sync l ih => simpa [cutLvalue, extractSig, SigSpec.chunks] using ih
  · right
    rw [same]
    have here : ∀ b ∈ sortAndUnify ids a.lhs, b ∈ a.lhs := fun b h => mem_sortAndUnify.mp h
    have someBit : sortAndUnify ids a.lhs ≠ [] := by
      obtain ⟨b, inside⟩ := exists_mem_of_ne_nil _ nonempty
      exact ne_nil_of_mem (mem_sortAndUnify.mpr inside)
    obtain ⟨some, unique, sub, whole⟩ := cutLvalues_spec ids syncs
      (fun b h => wires b (mem_targets_of_action member (here b h))) someBit
      (nodup_sortAndUnify ids a.lhs)
    exact ⟨some, unique, whole, a, member, fun b h => here b (sub b h)⟩

variable {sig other : SigSpec} {rule : Rule} {c : Collected} {a : Action}

theorem replaceBit_eq {pairs : List (SigBit × SigBit)} {b v : SigBit} (wire : b.isWire = true) :
    replaceBit pairs b v = (lastRhs pairs b).getD v := by
  induction pairs using reverseRecOn with
  | nil => rfl
  | append_singleton pairs p ih =>
    have step : replaceBit (pairs ++ [p]) b v =
        if p.1.isWire && b == p.1 then p.2 else replaceBit pairs b v := by
      rw [replaceBit, foldl_append]
      rfl
    rw [step, lastRhs_append, lastRhs_singleton, ih]
    by_cases same : p.1 = b
    · simp [same, wire]
    · have different : (b == p.1) = false := beq_eq_false_iff_ne.mpr (Ne.symm same)
      simp [same, different]

def meets (sig : SigSpec) (a : Action) : Prop := ∃ b ∈ sig, b ∈ a.lhs

instance (sig : SigSpec) (a : Action) : Decidable (meets sig a) :=
  inferInstanceAs (Decidable (∃ b ∈ sig, b ∈ a.lhs))

variable {sig : SigSpec} {p : SyncRule × Nat} {l : List Action} {o : SigSpec}

private theorem lastRhs_unmet (inside : b ∈ sig) (unmet : ∀ a ∈ l, ¬ meets sig a) :
    lastRhs (l.flatMap Action.pairs) b = none := by
  rw [lastRhs_eq_none, map_flatMap]
  intro member
  obtain ⟨a, here, assigned⟩ := mem_flatMap.mp member
  rw [pairs_fst] at assigned
  exact unmet a here ⟨b, inside, assigned⟩

def given (sig : SigSpec) (sync : SyncRule) : SigSpec :=
  sig.map (fun b => (lastRhs (rulePairs sync) b).getD (.const .Sz))

@[simp] theorem given_length (sig : SigSpec) (sync : SyncRule) :
    (given sig sync).length = sig.length := length_map ..

def lastMet (sig : SigSpec) (l : List Action) : Option Action :=
  l.reverse.find? (fun a => decide (meets sig a))

/-- The last action of a rule at the signal assigns all of it. -/
def AtOnce (sig : SigSpec) (sync : SyncRule) : Prop :=
  ∀ a ∈ lastMet sig sync.actions, ∀ b ∈ sig, b ∈ a.lhs

private theorem exists_meets {sync : SyncRule} (nonempty : sig ≠ [])
    (whole : ∀ b ∈ sig, b ∈ ruleTargets sync) : ∃ a ∈ sync.actions, meets sig a := by
  obtain ⟨b, inside⟩ := exists_mem_of_ne_nil _ nonempty
  obtain ⟨a, member, here⟩ := mem_flatMap.mp (whole b inside)
  exact ⟨a, member, b, inside, here⟩

/-- The part of the fields that a level rule changes. -/
def afterLevel (rule : Rule) (value : SigSpec) (c : Collected) : Collected :=
  { c with
    manyAsyncRules := c.manyAsyncRules ++ c.syncLevel.toList.map (c.rstval, ·)
    rstval := value
    syncLevel := some rule }

def afterClock (rule : Rule) (insig : SigSpec) (c : Collected) : Collected :=
  if rule.type = .STg then { c with insig := insig, globalClock := true }
  else { c with insig := insig, syncEdge := some rule }

private theorem afterClock_afterClock (rule : Rule) (x y : SigSpec) (c : Collected) :
    afterClock rule y (afterClock rule x c) = afterClock rule y c := by
  unfold afterClock
  split <;> rfl

private theorem afterClock_insig (rule : Rule) (x : SigSpec) (c : Collected) :
    (afterClock rule x c).insig = x := by
  unfold afterClock
  split <;> rfl

private theorem floating_length (width : Nat) : (floating width).length = width := length_replicate

theorem replaceSig_length (sig : SigSpec) (a : Action) (o : SigSpec) (sized : o.length = sig.length) :
    (replaceSig sig a o).length = sig.length := by
  simp [replaceSig, sized]

section

variable (wires : ∀ b ∈ sig, b.isWire = true)

include wires

private theorem extractSig_isEmpty : (extractSig a.lhs sig).isEmpty = true ↔ ¬ meets sig a := by
  rw [List.isEmpty_iff, List.eq_nil_iff_forall_not_mem]
  constructor
  · intro none met
    obtain ⟨b, inside, assigned⟩ := met
    exact none b (mem_extractSig.mpr ⟨assigned, covered_iff.mpr ⟨wires b inside, inside⟩⟩)
  · intro unmet b member
    obtain ⟨assigned, covers⟩ := mem_extractSig.mp member
    exact unmet ⟨b, (covered_iff.mp covers).2, assigned⟩

theorem collectAction_unmet (unmet : ¬ meets sig a) : collectAction sig rule c a = .ok c := by
  rw [collectAction, if_pos ((extractSig_isEmpty wires).mpr unmet)]

private theorem collectActions_unmet (unmet : ∀ a ∈ l, ¬ meets sig a) :
    l.foldlM (collectAction sig rule) c = .ok c := by
  induction l with
  | nil => rfl
  | cons a l ih =>
    rw [foldlM_cons, collectAction_unmet wires (unmet a (by simp))]
    exact ih (fun a' h => unmet a' (by simp [h]))

theorem collectSync_unmet (unmet : ∀ b ∈ sig, b ∉ ruleTargets p.1) : collectSync sig c p = .ok c := by
  refine collectActions_unmet wires (fun a member met => ?_)
  obtain ⟨b, inside, assigned⟩ := met
  exact unmet b inside (mem_flatMap.mpr ⟨a, member, assigned⟩)

private theorem foldl_replaceSig (sized : o.length = sig.length) :
    l.foldl (fun o a => replaceSig sig a o) o =
      List.zipWith (fun b v => (lastRhs (l.flatMap Action.pairs) b).getD v) sig o := by
  induction l using reverseRecOn with
  | nil =>
    apply ext_getElem (by simp [sized])
    simp
  | append_singleton l a ih =>
    rw [foldl_append, foldl_cons, foldl_nil, ih, replaceSig]
    apply ext_getElem (by simp)
    intro i inside inside'
    have here : i < sig.length := by simp at inside'; omega
    simp only [getElem_zipWith, replaceBit_eq (wires _ (getElem_mem here)),
      flatMap_append, flatMap_cons, flatMap_nil, append_nil, lastRhs_append]
    cases lastRhs a.pairs (sig[i]) <;> simp

private theorem foldl_unmet (sized : o.length = sig.length) (unmet : ∀ a ∈ l, ¬ meets sig a) :
    l.foldl (fun o a => replaceSig sig a o) o = o := by
  rw [foldl_replaceSig wires sized]
  apply ext_getElem (by simp [sized])
  intro i _ inside
  simp [lastRhs_unmet (getElem_mem (sized ▸ inside)) unmet]

private theorem foldl_floating (sync : SyncRule) :
    sync.actions.foldl (fun o a => replaceSig sig a o) (floating sig.length) = given sig sync := by
  rw [foldl_replaceSig wires (floating_length _)]
  apply ext_getElem (by simp [floating])
  simp [given, rulePairs, floating]

private theorem collectActions_level (level : rule.type = .ST0 ∨ rule.type = .ST1)
    (other : ∀ e, c.syncLevel = some e → e ≠ rule) :
    l.foldlM (collectAction sig rule) c = .ok ((lastMet sig l).elim c
      (fun a => afterLevel rule (replaceSig sig a (floating sig.length)) c)) := by
  induction l using reverseRecOn with
  | nil => rfl
  | append_singleton l a ih =>
    rw [foldlM_append, ih]
    show foldlM (collectAction sig rule) _ [a] = _
    rw [foldlM_cons]
    by_cases met : meets sig a
    · have last : lastMet sig (l ++ [a]) = some a := by simp [lastMet, met]
      have step : ∀ c' : Collected, collectAction sig rule c' a = .ok (collectLevel sig rule c' a) := by
        intro c'
        rw [collectAction, if_neg (fun h => (extractSig_isEmpty wires).mp h met)]
        rcases level with h | h <;> simp [h]
      have again : collectLevel sig rule ((lastMet sig l).elim c
          (fun a => afterLevel rule (replaceSig sig a (floating sig.length)) c)) a =
          afterLevel rule (replaceSig sig a (floating sig.length)) c := by
        cases lastMet sig l with
        | some a' => simp [collectLevel, afterLevel]
        | none =>
          cases found : c.syncLevel with
          | none => simp [collectLevel, afterLevel, found]
          | some e => simp [collectLevel, afterLevel, found, other e found]
      rw [step, again, last]
      rfl
    · have last : lastMet sig (l ++ [a]) = lastMet sig l := by simp [lastMet, met]
      rw [collectAction_unmet wires met, last]
      rfl

private theorem replaceSig_atOnce {sync : SyncRule} (atOnce : AtOnce sig sync)
    (last : lastMet sig sync.actions = some a) :
    replaceSig sig a (floating sig.length) = given sig sync := by
  obtain ⟨-, after, before, split, unmet⟩ := find?_eq_some_iff_append.mp last
  rw [reverse_eq_iff] at split
  have quiet : ∀ a' ∈ after, ¬ meets sig a' := fun a' here => by simpa using unmet a' here
  apply ext_getElem (by simp [replaceSig, floating])
  intro i _ inside
  have here : i < sig.length := by simpa using inside
  obtain ⟨rhs, assigned⟩ : ∃ rhs, lastRhs a.pairs (sig[i]) = some rhs := by
    refine Option.ne_none_iff_exists'.mp fun none => ?_
    rw [lastRhs_eq_none, pairs_fst] at none
    exact none (atOnce a last _ (getElem_mem here))
  have behind : lastRhs (after.reverse.flatMap Action.pairs) (sig[i]) = none :=
    lastRhs_unmet (getElem_mem here) (by simpa using quiet)
  simp [replaceSig, given, rulePairs, split, replaceBit_eq (wires _ (getElem_mem here)), lastRhs_append,
    behind, assigned]

private theorem collectSync_level (level : levelRule p.1 = true) (atOnce : AtOnce sig p.1)
    (met : ∃ a ∈ p.1.actions, meets sig a)
    (other : ∀ rule, c.syncLevel = some rule → rule ≠ ruleAt p) :
    collectSync sig c p = .ok (afterLevel (ruleAt p) (given sig p.1) c) := by
  have kind : p.1.type = .ST0 ∨ p.1.type = .ST1 := by simpa [levelRule] using level
  rw [collectSync, collectActions_level wires kind other]
  cases last : lastMet sig p.1.actions with
  | some a => rw [Option.elim_some, replaceSig_atOnce wires atOnce last]
  | none =>
    obtain ⟨a, member, meetsA⟩ := met
    exact absurd meetsA (by simpa using find?_eq_none.mp last a (mem_reverse.mpr member))

section

variable {rule : Rule} (clock : rule.type = .STp ∨ rule.type = .STn ∨ rule.type = .STg)
  (free : ∀ e, c.syncEdge = some e → e = rule)

include clock free

private theorem collectAction_clock {a : Action} (met : meets sig a) :
    collectAction sig rule c a = .ok (afterClock rule (replaceSig sig a c.insig) c) := by
  rw [collectAction, if_neg (fun h => (extractSig_isEmpty wires).mp h met)]
  have single : c.syncEdge.any (fun e => !decide (e = rule)) = false := by
    cases found : c.syncEdge with
    | none => rfl
    | some e => simp [free e found]
  rcases clock with h | h | h
  · simp [h, afterClock, single]
  · simp [h, afterClock, single]
  · simp [h, afterClock]

private theorem collectActions_clock (sized : c.insig.length = sig.length) :
    l.foldlM (collectAction sig rule) c =
      .ok (if ∃ a ∈ l, meets sig a then
        afterClock rule (l.foldl (fun o a => replaceSig sig a o) c.insig) c else c) := by
  induction l generalizing c with
  | nil => simp only [foldlM_nil, not_mem_nil, false_and, exists_false, if_false]; rfl
  | cons a l ih =>
    rw [foldlM_cons, foldl_cons]
    by_cases met : meets sig a
    · have free' : ∀ e, (afterClock rule (replaceSig sig a c.insig) c).syncEdge = some e →
          e = rule := by
        intro e found
        unfold afterClock at found
        split at found
        · exact free e found
        · exact (Option.some.inj found).symm
      have sized' : (afterClock rule (replaceSig sig a c.insig) c).insig.length = sig.length := by
        rw [afterClock_insig]
        exact replaceSig_length sig a c.insig sized
      rw [collectAction_clock wires clock free met]
      show l.foldlM (collectAction sig rule) (afterClock rule (replaceSig sig a c.insig) c) = _
      have some : ∃ a' ∈ a :: l, meets sig a' := ⟨a, mem_cons_self, met⟩
      rw [ih free' sized', if_pos some, afterClock_insig, afterClock_afterClock]
      split
      · rfl
      · rename_i unmet
        rw [foldl_unmet wires (replaceSig_length sig a c.insig sized)
          (fun a' member met => unmet ⟨a', member, met⟩)]
    · rw [collectAction_unmet wires met]
      show l.foldlM (collectAction sig rule) c = _
      have same : replaceSig sig a c.insig = c.insig :=
        foldl_unmet wires (l := [a]) sized (by simpa using met)
      rw [ih free sized, same]
      simp [met]

end

private theorem collectSync_clock (clock : clockRule p.1 = true) (nonempty : sig ≠ [])
    (whole : ∀ b ∈ sig, b ∈ ruleTargets p.1) (free : c.syncEdge = none)
    (undriven : c.insig = floating sig.length) :
    collectSync sig c p = .ok (afterClock (ruleAt p) (given sig p.1) c) := by
  have kind : p.1.type = .STp ∨ p.1.type = .STn ∨ p.1.type = .STg := by
    simpa [clockRule, or_assoc] using clock
  have sized : c.insig.length = sig.length := undriven ▸ floating_length _
  rw [collectSync, collectActions_clock wires kind (by simp [free]) sized,
    if_pos (exists_meets nonempty whole), undriven, foldl_floating wires]

end

def Whole (sig : SigSpec) (sync : SyncRule) : Prop := ∀ b ∈ sig, b ∈ ruleTargets sync

instance (sig : SigSpec) (sync : SyncRule) : Decidable (Whole sig sync) :=
  inferInstanceAs (Decidable (∀ b ∈ sig, b ∈ ruleTargets sync))

/-- The level rules of a signal, each with the value it assigns. -/
def levelsOf (sig : SigSpec) (l : List (SyncRule × Nat)) : List (SigSpec × Rule) :=
  (l.filter (fun p => levelRule p.1 && decide (Whole sig p.1))).map
    (fun p => (given sig p.1, ruleAt p))

/-- The level rules met so far: those in the map and the pending one. -/
def met (c : Collected) : List (SigSpec × Rule) :=
  c.manyAsyncRules ++ c.syncLevel.toList.map (c.rstval, ·)

/-- Two states that know the same of the clock. -/
structure SameClock (c c' : Collected) : Prop where
  insig : c'.insig = c.insig
  syncEdge : c'.syncEdge = c.syncEdge
  syncAlways : c'.syncAlways = c.syncAlways
  globalClock : c'.globalClock = c.globalClock

/-- Before the first level rule the reset value is undriven. -/
def Fresh (sig : SigSpec) (c : Collected) : Prop :=
  c.syncLevel = none → c.rstval = floating sig.length ∧ c.manyAsyncRules = []

/-- A rule whose part in the loop is settled: it leaves the signal alone or is a level rule that
assigns it at once. -/
def Settles (sig : SigSpec) (sync : SyncRule) : Prop :=
  (∀ b ∈ sig, b ∉ ruleTargets sync) ∨
    (Whole sig sync ∧ levelRule sync = true ∧ AtOnce sig sync)

private theorem levelsOf_append (l m : List (SyncRule × Nat)) :
    levelsOf sig (l ++ m) = levelsOf sig l ++ levelsOf sig m := by
  simp [levelsOf]

private theorem levelsOf_skip {p : SyncRule × Nat} (h : ¬ (levelRule p.1 = true ∧ Whole sig p.1))
    (l : List (SyncRule × Nat)) : levelsOf sig (p :: l) = levelsOf sig l := by
  rw [levelsOf, levelsOf, filter_cons_of_neg (by simpa using h)]

private theorem collect_levels (wires : ∀ b ∈ sig, b.isWire = true) (nonempty : sig ≠ [])
    {l : List (SyncRule × Nat)} (settles : ∀ p ∈ l, Settles sig p.1)
    (places : l.Pairwise (fun p q => p.2 ≠ q.2))
    (apart : ∀ rule, c.syncLevel = some rule → ∀ p ∈ l, rule.index ≠ p.2) :
    ∃ c', l.foldlM (collectSync sig) c = .ok c' ∧ met c' = met c ++ levelsOf sig l ∧
      SameClock c c' ∧ (Fresh sig c → Fresh sig c') ∧
      ∀ rule, c'.syncLevel = some rule →
        c.syncLevel = some rule ∨ ∃ p ∈ l, rule.index = p.2 := by
  induction l generalizing c with
  | nil =>
    exact ⟨c, rfl, by simp [levelsOf], ⟨rfl, rfl, rfl, rfl⟩, id, fun _ h => .inl h⟩
  | cons p l ih =>
    obtain ⟨away, places⟩ := pairwise_cons.mp places
    have rest : ∀ q ∈ l, Settles sig q.1 := fun q h => settles q (by simp [h])
    rw [foldlM_cons]
    rcases settles p (by simp) with unmet | ⟨whole, level, atOnce⟩
    · obtain ⟨c', run, levels, clock, fresh, origin⟩ :=
        ih rest places (fun rule found q h => apart rule found q (by simp [h]))
      have skip : ¬ (levelRule p.1 = true ∧ Whole sig p.1) := by
        intro h
        obtain ⟨b, inside⟩ := exists_mem_of_ne_nil _ nonempty
        exact unmet b inside (h.2 b inside)
      refine ⟨c', ?_, ?_, clock, fresh, fun rule found => ?_⟩
      · rw [collectSync_unmet wires unmet]
        exact run
      · rw [levels, levelsOf_skip skip]
      · rcases origin rule found with same | ⟨q, h, same⟩
        · exact .inl same
        · exact .inr ⟨q, by simp [h], same⟩
    · have different : ∀ rule, c.syncLevel = some rule → rule ≠ ruleAt p := by
        intro rule found same
        exact apart rule found p (by simp) (congrArg Rule.index same)
      have apart' : ∀ rule, (afterLevel (ruleAt p) (given sig p.1) c).syncLevel = some rule →
          ∀ q ∈ l, rule.index ≠ q.2 := by
        intro rule found q member
        rw [← Option.some.inj found]
        exact away q member
      obtain ⟨c', run, levels, clock, fresh, origin⟩ := ih rest places apart'
      refine ⟨c', ?_, ?_, ⟨clock.insig, clock.syncEdge, clock.syncAlways, clock.globalClock⟩,
        fun _ => fresh (fun none => by cases none), fun rule found => ?_⟩
      · rw [collectSync_level wires level atOnce (exists_meets nonempty whole) different]
        exact run
      · have here : levelsOf sig (p :: l) = (given sig p.1, ruleAt p) :: levelsOf sig l := by
          rw [levelsOf, filter_cons_of_pos (by simp [level, whole]), map_cons]
          rfl
        rw [levels, here]
        simp [met, afterLevel]
      · rcases origin rule found with same | ⟨q, h, same⟩
        · exact .inr ⟨p, by simp, by rw [← Option.some.inj same]; rfl⟩
        · exact .inr ⟨q, by simp [h], same⟩

/-- What the rule loop finds out about a signal with one clock rule. -/
structure Found (sig : SigSpec) (syncs : List SyncRule) (clock : SyncRule) (c : Collected) :
    Prop where
  levels : met c = levelsOf sig syncs.zipIdx
  fresh : Fresh sig c
  insig : c.insig = given sig clock
  syncAlways : c.syncAlways = none
  edge : clock.type ≠ .STg → ∃ index, c.syncEdge = some ⟨index, clock.type, clock.signal⟩
  global : clock.type = .STg → c.syncEdge = none ∧ c.globalClock = true

theorem zipIdx_places (syncs : List SyncRule) : syncs.zipIdx.Pairwise (fun p q => p.2 ≠ q.2) := by
  have places : (syncs.zipIdx.map Prod.snd).Nodup := by
    rw [zipIdx_map_snd]
    exact nodup_range'
  exact pairwise_map.mp places

theorem collect_spec {syncs : List SyncRule} {clock : SyncRule} {place : Nat}
    {before after : List (SyncRule × Nat)} (wires : ∀ b ∈ sig, b.isWire = true)
    (nonempty : sig ≠ []) (split : syncs.zipIdx = before ++ (clock, place) :: after)
    (isClock : clockRule clock = true) (whole : Whole sig clock)
    (settlesBefore : ∀ p ∈ before, Settles sig p.1) (settlesAfter : ∀ p ∈ after, Settles sig p.1) :
    ∃ c, collect sig syncs = .ok c ∧ Found sig syncs clock c := by
  have places := zipIdx_places syncs
  rw [split] at places
  obtain ⟨placesBefore, placesRest, across⟩ := pairwise_append.mp places
  obtain ⟨away, placesAfter⟩ := pairwise_cons.mp placesRest
  obtain ⟨c₁, run₁, levels₁, clock₁, fresh₁, origin₁⟩ := collect_levels
    (c := { insig := floating sig.length, rstval := floating sig.length }) wires nonempty
    settlesBefore placesBefore (by simp)
  have marked : collectSync sig c₁ (clock, place) =
      .ok (afterClock (ruleAt (clock, place)) (given sig clock) c₁) :=
    collectSync_clock wires isClock nonempty whole clock₁.syncEdge clock₁.insig
  obtain ⟨sameMet, sameLevel, sameFresh⟩ :
      met (afterClock (ruleAt (clock, place)) (given sig clock) c₁) = met c₁ ∧
      (afterClock (ruleAt (clock, place)) (given sig clock) c₁).syncLevel = c₁.syncLevel ∧
      (Fresh sig c₁ → Fresh sig (afterClock (ruleAt (clock, place)) (given sig clock) c₁)) := by
    unfold afterClock
    split
    · exact ⟨rfl, rfl, id⟩
    · exact ⟨rfl, rfl, id⟩
  obtain ⟨c₂, run₂, levels₂, clock₂, fresh₂, -⟩ := collect_levels
    (c := afterClock (ruleAt (clock, place)) (given sig clock) c₁) wires nonempty settlesAfter
    placesAfter (by
      intro rule found p member
      rw [sameLevel] at found
      rcases origin₁ rule found with same | ⟨q, h, same⟩
      · cases same
      · rw [same]
        exact across q h p (by simp [member]))
  have notLevel : ¬ (levelRule clock = true ∧ Whole sig clock) := by
    intro h
    have level := h.1
    have kind : clock.type = .STp ∨ clock.type = .STn ∨ clock.type = .STg := by
      simpa [clockRule, or_assoc] using isClock
    rcases kind with h | h | h <;> simp [levelRule, h] at level
  refine ⟨c₂, ?_, ?_, ?_, ?_, ?_, ?_, ?_⟩
  · rw [collect, split, foldlM_append, run₁]
    show foldlM (collectSync sig) c₁ ((clock, place) :: after) = _
    rw [foldlM_cons, marked]
    exact run₂
  · rw [levels₂, sameMet, levels₁, split, levelsOf_append, levelsOf_skip notLevel]
    rfl
  · exact fresh₂ (sameFresh (fresh₁ (fun _ => ⟨rfl, rfl⟩)))
  · rw [clock₂.insig, afterClock_insig]
  · rw [clock₂.syncAlways]
    unfold afterClock
    split <;> exact clock₁.syncAlways
  · intro edge
    have kind : (ruleAt (clock, place)).type ≠ .STg := edge
    refine ⟨place, ?_⟩
    rw [clock₂.syncEdge, afterClock, if_neg kind]
    rfl
  · intro global
    have kind : (ruleAt (clock, place)).type = .STg := global
    rw [clock₂.syncEdge, clock₂.globalClock, afterClock, if_pos kind]
    exact ⟨clock₁.syncEdge, rfl⟩

end ManticoreFrontend.Passes.ProcDffCollect
