/- digest: Numbered steps run in increasing order, where only some of them change the state. -/

import Mathlib.Data.List.Sort

namespace ManticoreFrontend.Foundation.OrderedRun

variable {α : Type} (order : α → Nat)

/-- A run order of numbered steps: any arrangement with increasing numbers. -/
structure Schedule (l s : List α) : Prop where
  perm : s.Perm l
  sorted : s.Pairwise (fun a b => order a ≤ order b)

def Numbered (changes : α → Bool) (l : List α) : Prop :=
  (l.filter changes).Pairwise (fun a b => order a < order b)

variable {order} {changes : α → Bool} {l s : List α}

theorem Schedule.filter_eq (schedule : Schedule order l s) (numbered : Numbered order changes l) :
    s.filter changes = l.filter changes := by
  have perm : (s.filter changes).Perm (l.filter changes) := schedule.perm.filter changes
  have sorted : (s.filter changes).Pairwise (fun a b => order a ≤ order b) :=
    schedule.sorted.filter changes
  have distinct : (s.filter changes).Pairwise (fun a b => order a ≠ order b) := by
    have symmetric : ∀ {a b : α}, order a ≠ order b → order b ≠ order a := fun h => h.symm
    exact (perm.pairwise_iff symmetric).mpr (numbered.imp Nat.ne_of_lt)
  have strict : (s.filter changes).Pairwise (fun a b => order a < order b) :=
    sorted.and distinct |>.imp (fun h => Nat.lt_of_le_of_ne h.1 h.2)
  refine perm.eq_of_pairwise (fun a b _ _ h h' => ?_) strict numbered
  exact absurd (h.trans h') (Nat.lt_irrefl _)

end ManticoreFrontend.Foundation.OrderedRun
