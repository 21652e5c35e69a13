/- digest: Stores of words under a bit mask. -/

import Mathlib.Logic.Function.Basic

namespace ManticoreFrontend.Foundation.MaskedStores

variable {w : Nat}

abbrev Contents (w : Nat) := Nat → BitVec w

/-- A store of the masked bits of `data`; without a target nothing is stored. -/
structure Store (w : Nat) where
  target : Option Nat
  mask : BitVec w
  data : BitVec w
  deriving DecidableEq

def blend (mask data old : BitVec w) : BitVec w := (data &&& mask) ||| (old &&& ~~~mask)

theorem blend_getLsbD (mask data old : BitVec w) {i : Nat} (h : i < w) :
    (blend mask data old).getLsbD i = if mask.getLsbD i then data.getLsbD i else old.getLsbD i := by
  simp only [blend, BitVec.getLsbD_or, BitVec.getLsbD_and, BitVec.getLsbD_not, h]
  cases mask.getLsbD i <;> simp

theorem blend_allOnes (data old : BitVec w) : blend (BitVec.allOnes w) data old = data := by
  apply BitVec.eq_of_getLsbD_eq
  intro i hi
  rw [blend_getLsbD _ _ _ hi, BitVec.getLsbD_allOnes, if_pos (decide_eq_true hi)]

theorem blend_zero (data old : BitVec w) : blend (0#w) data old = old := by
  apply BitVec.eq_of_getLsbD_eq
  intro i hi
  rw [blend_getLsbD _ _ _ hi, BitVec.getLsbD_zero, if_neg Bool.false_ne_true]

/-- Two masks give the same word exactly when they agree where the data is new. -/
theorem blend_eq_iff {mask mask' data old : BitVec w} :
    blend mask data old = blend mask' data old ↔
      ∀ i < w, mask.getLsbD i ≠ mask'.getLsbD i → data.getLsbD i = old.getLsbD i := by
  rw [BitVec.eq_of_getLsbD_eq_iff]
  refine forall₂_congr fun i hi => ?_
  rw [blend_getLsbD _ _ _ hi, blend_getLsbD _ _ _ hi]
  cases mask.getLsbD i <;> cases mask'.getLsbD i <;> simp [eq_comm]

namespace Store

def apply (s : Store w) (m : Contents w) : Contents w :=
  match s.target with
  | none => m
  | some x => Function.update m x (blend s.mask s.data (m x))

theorem apply_mask_zero (target : Option Nat) (data : BitVec w) (m : Contents w) :
    (⟨target, 0#w, data⟩ : Store w).apply m = m := by
  cases target with
  | none => rfl
  | some x => simp [apply, blend_zero]

/-- A store with a mask really changes some contents at its target. -/
theorem apply_ne {mask : BitVec w} (nonzero : mask ≠ 0#w) (x : Nat) (data : BitVec w) :
    (⟨some x, mask, data⟩ : Store w).apply (fun _ => ~~~data) x ≠ ~~~data := by
  intro same
  apply nonzero
  apply BitVec.eq_of_getLsbD_eq
  intro i hi
  have bit := congrArg (BitVec.getLsbD · i) same
  simp only [apply, Function.update_self, blend_getLsbD _ _ _ hi, BitVec.getLsbD_not] at bit
  cases set : mask.getLsbD i <;> simp_all

/-- Stores of the same bits agree on all contents exactly when they have the same target, or no
bits to store. -/
theorem apply_eq_iff_target {target target' : Option Nat} {mask data : BitVec w} :
    (∀ m, (⟨target, mask, data⟩ : Store w).apply m = (⟨target', mask, data⟩ : Store w).apply m) ↔
      target = target' ∨ mask = 0#w := by
  constructor
  · intro agree
    by_contra apart
    obtain ⟨differ, nonzero⟩ := not_or.mp apart
    have seen := fun x => congrFun (agree (fun _ => ~~~data)) x
    have keeps : ∀ (t : Option Nat) (x : Nat), t ≠ some x →
        (⟨t, mask, data⟩ : Store w).apply (fun _ => ~~~data) x = ~~~data := by
      intro t x away
      cases t with
      | none => rfl
      | some y =>
        have other : x ≠ y := fun equal => away (congrArg some equal.symm)
        simp [apply, Function.update_of_ne other]
    cases target with
    | some x => exact apply_ne nonzero x data ((seen x).trans (keeps target' x (Ne.symm differ)))
    | none =>
      cases target' with
      | none => exact differ rfl
      | some y => exact apply_ne nonzero y data ((seen y).symm.trans (keeps none y differ))
  · rintro (rfl | rfl) m
    · rfl
    · rw [apply_mask_zero, apply_mask_zero]

end Store

end ManticoreFrontend.Foundation.MaskedStores
