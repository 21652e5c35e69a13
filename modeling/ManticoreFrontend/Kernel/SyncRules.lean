/- source: kernel/rtlil.h (SyncRule), passes/proc/proc_arst.cc (the order of the level rules)
   digest: What the sync rules of a process do to a bit from one instant to the next. -/

import ManticoreFrontend.Kernel.Nets
import ManticoreFrontend.Kernel.Processes

namespace ManticoreFrontend.Kernel.SyncRules

open Constants Signals Processes Nets

def lastRhs (pairs : List (SigBit × SigBit)) (b : SigBit) : Option SigBit :=
  (pairs.reverse.find? (fun p => p.1 == b)).map Prod.snd

variable (sync : SyncRule)

def rulePairs : List (SigBit × SigBit) := sync.actions.flatMap Action.pairs

def ruleTargets : List SigBit := sync.actions.flatMap Action.lhs

def targets (syncs : List SyncRule) : List SigBit := syncs.flatMap ruleTargets

def levelRule : Bool := sync.type == .ST0 || sync.type == .ST1

/-- A rule that fires at an edge of its signal, or at every step of the global clock. -/
def clockRule : Bool :=
  sync.type == .STp || sync.type == .STn || sync.type == .STg

def edge (prev now : Reading) (clk : SigSpec) (positive : Bool) : Bool :=
  prev.sig clk == [State.ofBool (!positive)] && now.sig clk == [State.ofBool positive]

def active (now : Reading) (sync : SyncRule) : Bool :=
  match sync.type with
  | .ST0 => now.sig sync.signal == [.S0]
  | .ST1 => now.sig sync.signal == [.S1]
  | _ => false

def triggered (prev now : Reading) (sync : SyncRule) : Bool :=
  match sync.type with
  | .STp => edge prev now sync.signal true
  | .STn => edge prev now sync.signal false
  | .STg => true
  | _ => false

def firstRhs (force : SyncRule → Bool) (syncs : List SyncRule) (b : SigBit) : Option SigBit :=
  syncs.findSome? (fun sync => if force sync then lastRhs (rulePairs sync) b else none)

/-- The state of a bit after the second of two instants. A level rule in force comes before the
clock, and an earlier one before a later one. -/
def next (syncs : List SyncRule) (prev now : Reading) (b : SigBit) : State :=
  match firstRhs (active now) syncs b with
  | some rhs => now.bit rhs
  | none =>
    match firstRhs (triggered prev now) syncs b with
    | some rhs => now.bit rhs
    | none => now.bit b

variable {pairs : List (SigBit × SigBit)} {b : SigBit}

@[simp] theorem lastRhs_nil : lastRhs [] b = none := rfl

theorem lastRhs_append (l m : List (SigBit × SigBit)) :
    lastRhs (l ++ m) b = (lastRhs m b).or (lastRhs l b) := by
  rw [lastRhs, List.reverse_append, List.find?_append, Option.map_or]
  rfl

theorem lastRhs_singleton (p : SigBit × SigBit) :
    lastRhs [p] b = if p.1 = b then some p.2 else none := by
  by_cases h : p.1 = b <;> simp [lastRhs]

theorem lastRhs_eq_none : lastRhs pairs b = none ↔ b ∉ pairs.map Prod.fst := by
  rw [lastRhs, Option.map_eq_none_iff, List.find?_eq_none]
  constructor
  · intro h member
    obtain ⟨p, inside, rfl⟩ := List.mem_map.mp member
    exact h p (List.mem_reverse.mpr inside) (beq_self_eq_true _)
  · intro h p inside same
    exact h (List.mem_map.mpr ⟨p, List.mem_reverse.mp inside, eq_of_beq same⟩)

theorem lastRhs_filter (keep : SigBit → Bool) (kept : keep b = true) :
    lastRhs (pairs.filter (fun p => keep p.1)) b = lastRhs pairs b := by
  induction pairs using List.reverseRecOn with
  | nil => rfl
  | append_singleton pairs p ih =>
    rw [List.filter_append, lastRhs_append, lastRhs_append, ih]
    by_cases h : keep p.1 = true
    · simp [h]
    · have other : p.1 ≠ b := fun same => h (same ▸ kept)
      simp [h, lastRhs_singleton, other]

theorem pairs_fst (a : Action) : a.pairs.map Prod.fst = a.lhs :=
  List.map_fst_zip (Nat.le_of_eq a.length)

theorem rulePairs_fst : (rulePairs sync).map Prod.fst = ruleTargets sync := by
  simp only [rulePairs, ruleTargets, List.map_flatMap, pairs_fst]

theorem lastRhs_rule_eq_none {sync : SyncRule} :
    lastRhs (rulePairs sync) b = none ↔ b ∉ ruleTargets sync := by
  rw [lastRhs_eq_none, rulePairs_fst]

theorem exists_lastRhs {sync : SyncRule} (h : b ∈ ruleTargets sync) :
    ∃ rhs, lastRhs (rulePairs sync) b = some rhs := by
  cases found : lastRhs (rulePairs sync) b with
  | some rhs => exact ⟨rhs, rfl⟩
  | none => exact absurd h (lastRhs_rule_eq_none.mp found)

end ManticoreFrontend.Kernel.SyncRules
