/- digest: Lists of runs in which neighbours that can be joined are joined as they arrive. -/

import Mathlib.Data.List.Chain

namespace ManticoreFrontend.Foundation.MaximalRuns

open List

variable {α β : Type} (join : α → α → Option α)

def addRun (runs : List α) (c : α) : List α :=
  match runs.getLast? with
  | none => [c]
  | some last =>
    match join last c with
    | some joined => runs.dropLast ++ [joined]
    | none => runs ++ [c]

/-- Joining is associative, and whether a run joins what precedes it does not depend on what
follows in it. -/
structure Joins : Prop where
  assoc : ∀ a b c ab bc, join a b = some ab → join b c = some bc → join ab c = join a bc
  start : ∀ a b c bc, join b c = some bc → join a b = none → join a bc = none
  grows : ∀ a b c ab bc, join a b = some ab → join b c = some bc → (join a bc).isSome

def Apart (runs : List α) : Prop := runs.IsChain (fun a b => join a b = none)

variable {join}

@[simp] theorem addRun_nil (c : α) : addRun join [] c = [c] := rfl

theorem addRun_joined {last c j : α} (runs : List α) (h : join last c = some j) :
    addRun join (runs ++ [last]) c = runs ++ [j] := by
  simp [addRun, h]

theorem addRun_apart {last c : α} (runs : List α) (h : join last c = none) :
    addRun join (runs ++ [last]) c = runs ++ [last, c] := by
  simp [addRun, h]

variable {runs : List α}

theorem addRun_forall {P : α → Prop} (joined : ∀ a b j, join a b = some j → P a → P b → P j)
    (all : ∀ r ∈ runs, P r) {c : α} (one : P c) :
    ∀ r ∈ addRun join runs c, P r := by
  cases runs using reverseRecOn with
  | nil => simpa using one
  | append_singleton runs last =>
    have lastP : P last := all last (by simp)
    have front : ∀ r ∈ runs, P r := fun r hr => all r (by simp [hr])
    cases h : join last c with
    | some j =>
      intro r hr
      rw [addRun_joined runs h, mem_append, mem_singleton] at hr
      rcases hr with hr | rfl
      · exact front r hr
      · exact joined last c r h lastP one
    | none =>
      intro r hr
      rw [addRun_apart runs h, mem_append] at hr
      simp only [mem_cons, not_mem_nil, or_false] at hr
      rcases hr with hr | rfl | rfl
      · exact front r hr
      · exact lastP
      · exact one

theorem addRun_addRun (joins : Joins join) {b c bc : α} (parts : join b c = some bc)
    (runs : List α) : addRun join (addRun join runs b) c = addRun join runs bc := by
  cases runs using reverseRecOn with
  | nil => simpa using addRun_joined [] parts
  | append_singleton runs last =>
    cases h : join last b with
    | some j =>
      obtain ⟨whole, hwhole⟩ := Option.isSome_iff_exists.mp (joins.grows _ _ _ _ _ h parts)
      have regroup : join j c = some whole := (joins.assoc _ _ _ _ _ h parts).trans hwhole
      rw [addRun_joined runs h, addRun_joined runs regroup, addRun_joined runs hwhole]
    | none =>
      have none' := joins.start _ _ _ _ parts h
      have grouped : runs ++ [last, b] = (runs ++ [last]) ++ [b] := by simp
      rw [addRun_apart runs h, addRun_apart runs none', grouped, addRun_joined _ parts]
      simp

theorem addRun_isApart (joins : Joins join) (apart : Apart join runs) (c : α) :
    Apart join (addRun join runs c) := by
  cases runs using reverseRecOn with
  | nil => simp [Apart]
  | append_singleton runs last =>
    unfold Apart at apart ⊢
    rw [isChain_append] at apart
    obtain ⟨front, -, seam⟩ := apart
    cases h : join last c with
    | some j =>
      rw [addRun_joined runs h, isChain_append]
      refine ⟨front, by simp, ?_⟩
      intro x hx y hy
      obtain rfl : j = y := by simpa using hy
      exact joins.start _ _ _ _ h (seam x hx last (by simp))
    | none =>
      rw [addRun_apart runs h, isChain_append]
      refine ⟨front, by simpa using h, ?_⟩
      intro x hx y hy
      obtain rfl : last = y := by simpa using hy
      exact seam x hx last (by simp)

theorem foldl_addRun (apart : Apart join runs) : runs.foldl (addRun join) [] = runs := by
  induction runs using reverseRecOn with
  | nil => rfl
  | append_singleton runs c ih =>
    have split := isChain_append.mp apart
    rw [foldl_append, ih split.1]
    cases runs using reverseRecOn with
    | nil => rfl
    | append_singleton runs last =>
      have next : join last c = none := split.2.2 last (by simp) c (by simp)
      simp [addRun_apart runs next]

end ManticoreFrontend.Foundation.MaximalRuns
