/- source: kernel/sigtools.h, kernel/rtlil.h
   digest: A bit and its alias have the same value where the alias has one, undefined constants included. -/

import ManticoreFrontend.Kernel.InformationOrder
import ManticoreFrontend.Kernel.Netlist
import ManticoreFrontend.Kernel.Processes

namespace ManticoreFrontend.Kernel.AliasValues

open Constants Signals SigTools InformationOrder Processes

variable {v : Valuation}

theorem sigConst_eq (sig : SigSpec) : sigConst v sig = sig.map (bitState v) := rfl

theorem refines_trans {a b c : State} (h : Refines a b) (h' : Refines b c) : Refines a c := by
  intro defined
  have same := h defined
  rw [← same]
  exact h' (same ▸ defined)

theorem bitState_wire {b : SigBit} (h : b.isWire = true) : (bitState v b).isDef = true := by
  cases b with
  | wire w offset => exact State.ofBool_isDef _
  | const s => cases h

/-- The wires have values that respect the connections; a wire connected to an undefined constant
may have any value. -/
def Respects (v : Valuation) (connections : List Connection) : Prop :=
  ∀ c ∈ connections, ∀ p ∈ c.pairs, Refines (bitState v p.2) (bitState v p.1)

variable {rep : SigBit → SigBit}

theorem joined_refines {lhs rhs : SigBit}
    (known : ∀ b, Refines (bitState v (rep b)) (bitState v b))
    (drives : Refines (bitState v rhs) (bitState v lhs)) (b : SigBit) :
    Refines (bitState v (joined rep lhs rhs b)) (bitState v b) := by
  -- a class whose representative is a wire has one defined value
  have wireValue : ∀ x y, (rep x).isWire = true → rep y = rep x → bitState v y = bitState v x := by
    intro x y wire same
    have hx := known x (bitState_wire wire)
    have hy := known y (same ▸ bitState_wire wire)
    rw [hx, hy, same]
  unfold joined
  split
  · rename_i wire
    split
    · rename_i same
      rw [wireValue lhs b wire same]
      exact refines_trans (known rhs) drives
    · exact known b
  · split
    · rename_i wire
      split
      · rename_i same
        have defined : (bitState v rhs).isDef = true := by
          rw [known rhs (bitState_wire wire)]
          exact bitState_wire wire
        rw [wireValue rhs b wire same, ← drives defined]
        exact known lhs
      · exact known b
    · exact known b

variable {connections : List Connection}

theorem apply_refines (respects : Respects v connections) (b : SigBit) :
    Refines (bitState v (apply (set connections) b)) (bitState v b) :=
  (set_keeps (P := fun rep => ∀ b, Refines (bitState v (rep b)) (bitState v b))
    (fun _ => Refines.refl _)
    (fun c listed p inside _ known => joined_refines known (respects c listed p inside))).2 b

theorem apply_const (connections : List Connection) (s : State) :
    apply (set connections) (.const s) = .const s :=
  (set_keeps (P := fun rep => rep (.const s) = .const s) rfl
    (fun _ _ _ _ _ fixed => joined_constant fixed rfl)).2

theorem apply_apply (connections : List Connection) (b : SigBit) :
    apply (set connections) (apply (set connections) b) = apply (set connections) b :=
  (set_keeps (P := fun _ => True) trivial (fun _ _ _ _ _ _ => trivial)).1.find_idempotent b

end ManticoreFrontend.Kernel.AliasValues
