/- digest: Constraint systems over more names that have the same solutions on the old names. -/

import Mathlib.Logic.Function.Basic

namespace ManticoreFrontend.Foundation.Conservative

variable {N : Type} {V : N → Type}

def AgreeOn (names : N → Prop) (σ τ : (n : N) → V n) : Prop := ∀ n, names n → σ n = τ n

variable {names names' : N → Prop}

theorem AgreeOn.mono {σ τ : (n : N) → V n} (agree : AgreeOn names σ τ)
    (sub : ∀ n, names' n → names n) : AgreeOn names' σ τ :=
  fun n here => agree n (sub n here)

theorem AgreeOn.trans {names : N → Prop} {σ τ υ : (n : N) → V n} (first : AgreeOn names σ τ)
    (second : AgreeOn names τ υ) : AgreeOn names σ υ :=
  fun n here => (first n here).trans (second n here)

/-- A constraint that only looks at some names. -/
def Local (names : N → Prop) (P : ((n : N) → V n) → Prop) : Prop :=
  ∀ σ τ, AgreeOn names σ τ → (P σ ↔ P τ)

theorem Local.mono {P : ((n : N) → V n) → Prop} (local_ : Local names P)
    (sub : ∀ n, names n → names' n) : Local names' P :=
  fun σ τ agree => local_ σ τ (agree.mono sub)

theorem Local.and {names : N → Prop} {P Q : ((n : N) → V n) → Prop} (left : Local names P)
    (right : Local names Q) : Local names (fun σ => P σ ∧ Q σ) :=
  fun σ τ agree => and_congr (left σ τ agree) (right σ τ agree)

/-- `Q` over `new` is `P` over `old` and a definition of everything else: each solution of `Q` is
one of `P`, and each one of `P` extends to exactly one of `Q`. -/
structure Extension (old new : N → Prop) (P Q : ((n : N) → V n) → Prop) : Prop where
  sub : ∀ n, old n → new n
  restrict : ∀ τ, Q τ → P τ
  extend : ∀ σ, P σ → ∃ τ, AgreeOn old σ τ ∧ Q τ
  unique : ∀ τ τ', Q τ → Q τ' → AgreeOn old τ τ' → AgreeOn new τ τ'

namespace Extension

variable {old mid new : N → Prop} {P Q R : ((n : N) → V n) → Prop}

theorem refl (names : N → Prop) (P : ((n : N) → V n) → Prop) : Extension names names P P where
  sub := fun _ here => here
  restrict := fun _ holds => holds
  extend := fun σ holds => ⟨σ, fun _ _ => rfl, holds⟩
  unique := fun _ _ _ _ agree => agree

theorem trans (first : Extension old mid P Q) (second : Extension mid new Q R) :
    Extension old new P R where
  sub := fun n here => second.sub n (first.sub n here)
  restrict := fun τ holds => first.restrict τ (second.restrict τ holds)
  extend := by
    intro σ holds
    obtain ⟨τ, agree, holds'⟩ := first.extend σ holds
    obtain ⟨υ, agree', holds''⟩ := second.extend τ holds'
    exact ⟨υ, agree.trans (agree'.mono first.sub), holds''⟩
  unique := by
    intro τ τ' holds holds' agree
    have between := first.unique τ τ' (second.restrict τ holds) (second.restrict τ' holds') agree
    exact second.unique τ τ' holds holds' between

theorem congr {P' Q' : ((n : N) → V n) → Prop} (ext : Extension old new P Q)
    (left : ∀ σ, P' σ ↔ P σ) (right : ∀ σ, Q' σ ↔ Q σ) : Extension old new P' Q' where
  sub := ext.sub
  restrict := fun τ holds => (left τ).mpr (ext.restrict τ ((right τ).mp holds))
  extend := by
    intro σ holds
    obtain ⟨τ, agree, holds'⟩ := ext.extend σ ((left σ).mp holds)
    exact ⟨τ, agree, (right τ).mpr holds'⟩
  unique := fun τ τ' holds holds' agree =>
    ext.unique τ τ' ((right τ).mp holds) ((right τ').mp holds') agree

theorem names_congr {new' : N → Prop} (ext : Extension old new P Q) (same : ∀ n, new' n ↔ new n) :
    Extension old new' P Q where
  sub := fun n here => (same n).mpr (ext.sub n here)
  restrict := ext.restrict
  extend := ext.extend
  unique := fun τ τ' holds holds' agree n here =>
    ext.unique τ τ' holds holds' agree n ((same n).mp here)

/-- A new name with a definition in terms of the old names. -/
theorem define [DecidableEq N] (name : N) (value : ((n : N) → V n) → V name) (fresh : ¬ old name)
    (local_ : Local old P) (reads : ∀ σ τ, AgreeOn old σ τ → value σ = value τ) :
    Extension old (fun n => old n ∨ n = name) P (fun τ => P τ ∧ τ name = value τ) where
  sub := fun _ here => .inl here
  restrict := fun _ holds => holds.1
  extend := by
    intro σ holds
    have agree : AgreeOn old σ (Function.update σ name (value σ)) := by
      intro n here
      have other : n ≠ name := by
        rintro rfl
        exact fresh here
      rw [Function.update_of_ne other]
    refine ⟨Function.update σ name (value σ), agree, (local_ _ _ agree).mp holds, ?_⟩
    rw [Function.update_self]
    exact reads _ _ agree
  unique := by
    intro τ τ' holds holds' agree n here
    rcases here with here | rfl
    · exact agree n here
    · rw [holds.2, holds'.2]
      exact reads _ _ agree

end Extension

end ManticoreFrontend.Foundation.Conservative
