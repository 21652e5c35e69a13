/- digest: Functions that pick representatives, and the equivalence that their classes generate. -/

import Mathlib.Logic.Relation

namespace ManticoreFrontend.Foundation.Representatives

open Relation

variable {α : Type} {rep rep' : α → α} {pairs : List (α × α)} {a b : α}

/-- The equivalence that a list of pairs generates. -/
abbrev Joined (pairs : List (α × α)) : α → α → Prop := EqvGen (fun x y => (x, y) ∈ pairs)

/-- The classes of `rep` are those that the pairs generate. -/
def Classes (rep : α → α) (pairs : List (α × α)) : Prop :=
  ∀ x y, rep x = rep y ↔ Joined pairs x y

theorem Joined.mono {pairs' : List (α × α)} (sub : pairs ⊆ pairs') {x y : α} (h : Joined pairs x y) :
    Joined pairs' x y :=
  EqvGen.mono (fun _ _ member => sub member) x y h

theorem classes_start : Classes (fun x : α => x) [] := by
  intro x y
  constructor
  · rintro rfl
    exact EqvGen.refl x
  · intro h
    induction h with
    | rel x y member => simp at member
    | refl x => rfl
    | symm x y _ ih => exact ih.symm
    | trans x y z _ _ first second => exact first.trans second

theorem Classes.congr (h : Classes rep pairs) (same : ∀ x y, rep' x = rep' y ↔ rep x = rep y) :
    Classes rep' pairs :=
  fun x y => (same x y).trans (h x y)

/-- The classes of `a` and `b` are one class for `rep'`, and all other classes are as before. -/
def Unites (rep rep' : α → α) (a b : α) : Prop :=
  ∀ x y, rep' x = rep' y ↔
    rep x = rep y ∨ (rep x = rep a ∧ rep y = rep b) ∨ (rep x = rep b ∧ rep y = rep a)

theorem Unites.symm (h : Unites rep rep' a b) : Unites rep rep' b a := by
  intro x y
  rw [h x y]
  exact or_congr_right or_comm

theorem Classes.unite (h : Classes rep pairs) (unites : Unites rep rep' a b) :
    Classes rep' (pairs ++ [(a, b)]) := by
  have old : pairs ⊆ pairs ++ [(a, b)] := List.subset_append_left _ _
  have new : Joined (pairs ++ [(a, b)]) a b := EqvGen.rel a b (by simp)
  have keep : ∀ {x y}, rep x = rep y → Joined (pairs ++ [(a, b)]) x y := fun {x y} same =>
    Joined.mono old ((h x y).mp same)
  intro x y
  constructor
  · intro same
    rcases (unites x y).mp same with plain | ⟨toA, toB⟩ | ⟨toB, toA⟩
    · exact keep plain
    · exact ((keep toA).trans _ _ _ new).trans _ _ _ (keep toB.symm)
    · exact ((keep toB).trans _ _ _ (new.symm _ _)).trans _ _ _ (keep toA.symm)
  · intro joined
    induction joined with
    | rel x y member =>
      rcases List.mem_append.mp member with before | last
      · exact (unites x y).mpr (Or.inl ((h x y).mpr (EqvGen.rel x y before)))
      · obtain ⟨rfl, rfl⟩ := Prod.mk.inj (List.mem_singleton.mp last)
        exact (unites x y).mpr (Or.inr (Or.inl ⟨rfl, rfl⟩))
    | refl x => rfl
    | symm x y _ ih => exact ih.symm
    | trans x y z _ _ first second => exact first.trans second

theorem Classes.absorb (h : Classes rep pairs) (same : rep a = rep b) :
    Classes rep (pairs ++ [(a, b)]) := by
  refine h.unite (fun x y => ?_)
  constructor
  · exact Or.inl
  · rintro (plain | ⟨toA, toB⟩ | ⟨toB, toA⟩)
    · exact plain
    · rw [toA, toB, same]
    · rw [toB, toA, same]

section Moves

variable [DecidableEq α]

/-- Moving the class of `a` to the representative of `b` unites the two classes. -/
theorem unites_of_move (move : ∀ x, rep' x = if rep x = rep a then rep b else rep x) :
    Unites rep rep' a b := by
  intro x y
  rw [move x, move y]
  by_cases hx : rep x = rep a <;> by_cases hy : rep y = rep a
  · simp [hx, hy]
  · rw [if_pos hx, if_neg hy]
    constructor
    · intro same
      exact Or.inr (Or.inl ⟨hx, same.symm⟩)
    · rintro (plain | ⟨-, toB⟩ | ⟨-, toA⟩)
      · exact absurd (plain.symm.trans hx) hy
      · exact toB.symm
      · exact absurd toA hy
  · rw [if_neg hx, if_pos hy]
    constructor
    · intro same
      exact Or.inr (Or.inr ⟨same, hy⟩)
    · rintro (plain | ⟨toA, -⟩ | ⟨toB, -⟩)
      · exact absurd (plain.trans hy) hx
      · exact absurd toA hx
      · exact toB
  · simp [hx, hy]

/-- Naming the class of `a` after `a` itself keeps all classes. -/
theorem same_of_promote (idempotent : ∀ x, rep (rep x) = rep x)
    (move : ∀ x, rep' x = if rep x = rep a then a else rep x) (x y : α) :
    rep' x = rep' y ↔ rep x = rep y := by
  have apart : ∀ z, rep z ≠ rep a → rep z ≠ a := by
    intro z differ same
    apply differ
    rw [← idempotent z, same]
  rw [move x, move y]
  by_cases hx : rep x = rep a <;> by_cases hy : rep y = rep a
  · simp [hx, hy]
  · rw [if_pos hx, if_neg hy]
    exact iff_of_false (apart y hy).symm (fun same => hy (same.symm.trans hx))
  · rw [if_neg hx, if_pos hy]
    exact iff_of_false (apart x hx) (fun same => hx (same.trans hy))
  · simp [hx, hy]

end Moves

end ManticoreFrontend.Foundation.Representatives
