/- digest: Systems of equations between names, and the solution of a system written in use order. -/

import Mathlib.Data.List.Basic

namespace ManticoreFrontend.Foundation.Dataflow

/-- Equations `dest = value`, one per item. A value reads the names it uses and the width of
its destination, and has that width. -/
structure System (N W I : Type) where
  dest : I → N
  uses : I → List N
  width : W → Nat
  value : (N → W) → I → W
  value_width : ∀ σ i, width (value σ i) = width (σ (dest i))
  value_congr : ∀ {σ τ : N → W} {i : I}, (∀ n ∈ uses i, σ n = τ n) →
    width (σ (dest i)) = width (τ (dest i)) → value σ i = value τ i

variable {N W I : Type}

def System.Solves (E : System N W I) (σ : N → W) (i : I) : Prop := σ (E.dest i) = E.value σ i

/-- Items in use order: each destination is free, new to the items before it and to its own
operands. -/
inductive System.Ordered (E : System N W I) (fixed : N → Prop) : List I → Prop
  | nil : E.Ordered fixed []
  | snoc {l : List I} {i : I} (before : E.Ordered fixed l) (free : ¬ fixed (E.dest i))
      (fresh : ∀ j ∈ l, E.dest i ≠ E.dest j ∧ E.dest i ∉ E.uses j) (own : E.dest i ∉ E.uses i) :
      E.Ordered fixed (l ++ [i])

theorem System.Ordered.dest_free {E : System N W I} {fixed : N → Prop} {l : List I}
    (ordered : E.Ordered fixed l) : ∀ i ∈ l, ¬ fixed (E.dest i) := by
  induction ordered with
  | nil => intro i hi; simp at hi
  | @snoc l i before free fresh own ih =>
    intro j hj
    rcases List.mem_append.mp hj with hj | hj
    · exact ih j hj
    · obtain rfl := List.mem_singleton.mp hj
      exact free

section Execution

variable [DecidableEq N] (E : System N W I)

def System.assign (σ : N → W) (i : I) : N → W := Function.update σ (E.dest i) (E.value σ i)

def System.exec (σ : N → W) (l : List I) : N → W := l.foldl E.assign σ

theorem System.exec_snoc (σ : N → W) (l : List I) (i : I) :
    E.exec σ (l ++ [i]) = E.assign (E.exec σ l) i := by
  simp [System.exec]

variable {σ : N → W} {fixed : N → Prop} {l : List I}

theorem System.assign_of_ne {i : I} {n : N} (h : n ≠ E.dest i) : E.assign σ i n = σ n :=
  Function.update_of_ne h _ _

theorem System.assign_width (σ : N → W) (i : I) (n : N) :
    E.width (E.assign σ i n) = E.width (σ n) := by
  by_cases h : n = E.dest i
  · subst h
    rw [System.assign, Function.update_self, E.value_width]
  · rw [E.assign_of_ne h]

theorem System.exec_width (σ : N → W) (l : List I) (n : N) :
    E.width (E.exec σ l n) = E.width (σ n) := by
  induction l generalizing σ with
  | nil => rfl
  | cons i l ih =>
    change E.width (E.exec (E.assign σ i) l n) = _
    rw [ih, E.assign_width]

theorem System.exec_of_not_dest {n : N} (h : ∀ i ∈ l, E.dest i ≠ n) : E.exec σ l n = σ n := by
  induction l generalizing σ with
  | nil => rfl
  | cons i l ih =>
    change E.exec (E.assign σ i) l n = _
    rw [ih (fun j hj => h j (List.mem_cons_of_mem _ hj)),
      E.assign_of_ne (h i List.mem_cons_self).symm]

/-- Assigning a name that an item neither uses nor defines keeps the item solved. -/
theorem System.solves_assign {i j : I} (solved : E.Solves σ j)
    (fresh : E.dest i ≠ E.dest j ∧ E.dest i ∉ E.uses j) : E.Solves (E.assign σ i) j := by
  have same : E.value (E.assign σ i) j = E.value σ j := by
    apply E.value_congr
    · intro n hn
      exact E.assign_of_ne (fun equal => fresh.2 (equal ▸ hn))
    · exact E.assign_width σ i _
  rw [System.Solves, same, E.assign_of_ne fresh.1.symm]
  exact solved

theorem System.solves_own {i : I} (own : E.dest i ∉ E.uses i) : E.Solves (E.assign σ i) i := by
  have same : E.value (E.assign σ i) i = E.value σ i := by
    apply E.value_congr
    · intro n hn
      exact E.assign_of_ne (fun equal => own (equal ▸ hn))
    · exact E.assign_width σ i _
  rw [System.Solves, same, System.assign, Function.update_self]

section

variable {E : System N W I} (ordered : E.Ordered fixed l)

include ordered

/-- Items in use order are solved by assigning them in order, from any start. -/
theorem System.Ordered.exec_solves (σ : N → W) : ∀ i ∈ l, E.Solves (E.exec σ l) i := by
  induction ordered with
  | nil => intro i hi; simp at hi
  | @snoc l i before free fresh own ih =>
    intro j hj
    rw [E.exec_snoc]
    rcases List.mem_append.mp hj with hj | hj
    · exact E.solves_assign (ih j hj) (fresh j hj)
    · obtain rfl := List.mem_singleton.mp hj
      exact E.solves_own own

theorem System.Ordered.exec_fixed (σ : N → W) {n : N} (h : fixed n) : E.exec σ l n = σ n :=
  E.exec_of_not_dest (fun i hi equal => ordered.dest_free i hi (equal ▸ h))

theorem System.Ordered.solves_fixed {j : I} (solved : E.Solves σ j) (dest : fixed (E.dest j))
    (uses : ∀ n ∈ E.uses j, fixed n) : E.Solves (E.exec σ l) j := by
  have same : E.value (E.exec σ l) j = E.value σ j := by
    apply E.value_congr
    · intro n hn
      exact ordered.exec_fixed σ (uses n hn)
    · exact E.exec_width σ l _
  rw [System.Solves, same, ordered.exec_fixed σ dest]
  exact solved

end

end Execution

end ManticoreFrontend.Foundation.Dataflow
