/- digest: Forests given by parent pointers: the root of a node, and how redirecting, linking and
     promoting change it. -/

import Mathlib.Data.Fintype.Card

namespace ManticoreFrontend.Foundation.ParentForest

/-- `r` is the root above `i`, reached in `k` steps. -/
inductive Climbs (par : Nat → Option Nat) : Nat → Nat → Nat → Prop
  | here {i : Nat} (root : par i = none) : Climbs par i 0 i
  | up {i p k r : Nat} (parent : par i = some p) (rest : Climbs par p k r) : Climbs par i (k + 1) r

def Root (par : Nat → Option Nat) (i r : Nat) : Prop := ∃ k, Climbs par i k r

def Forest (par : Nat → Option Nat) : Prop := ∀ i, ∃ r, Root par i r

variable {par par' : Nat → Option Nat} {i j p r k l : Nat}

theorem Climbs.unique (h : Climbs par i k r) (h' : Climbs par i l j) : k = l ∧ r = j := by
  induction h generalizing l with
  | here root =>
    cases h' with
    | here => exact ⟨rfl, rfl⟩
    | up parent => simp [root] at parent
  | up parent rest ih =>
    cases h' with
    | here root => simp [parent] at root
    | up parent' rest' =>
      obtain rfl := Option.some.inj (parent.symm.trans parent')
      obtain ⟨rfl, rfl⟩ := ih rest'
      exact ⟨rfl, rfl⟩

theorem Climbs.root_none (h : Climbs par i k r) : par r = none := by
  induction h with
  | here root => exact root
  | up _ _ ih => exact ih

theorem Root.unique (h : Root par i r) (h' : Root par i j) : r = j := by
  obtain ⟨k, h⟩ := h
  obtain ⟨l, h'⟩ := h'
  exact (h.unique h').2

theorem Root.root_none (h : Root par i r) : par r = none := by
  obtain ⟨k, h⟩ := h
  exact h.root_none

theorem Root.self (root : par i = none) : Root par i i := ⟨0, .here root⟩

theorem Root.up (parent : par i = some p) (rest : Root par p r) : Root par i r := by
  obtain ⟨k, rest⟩ := rest
  exact ⟨k + 1, .up parent rest⟩

theorem Root.of_parent (h : Root par i r) (parent : par i = some p) : Root par p r := by
  obtain ⟨k, h⟩ := h
  cases h with
  | here root => simp [parent] at root
  | up parent' rest =>
    obtain rfl := Option.some.inj (parent.symm.trans parent')
    exact ⟨_, rest⟩

theorem Root.eq_self (h : Root par i r) (root : par i = none) : r = i := h.unique (.self root)

private def ancestor (par : Nat → Option Nat) (i : Nat) : Nat → Nat
  | 0 => i
  | t + 1 => (par (ancestor par i t)).getD (ancestor par i t)

private theorem Climbs.above (h : Climbs par i k r) {t : Nat} (le : t ≤ k) :
    Climbs par (ancestor par i t) (k - t) r := by
  induction t with
  | zero => simpa [ancestor] using h
  | succ t ih =>
    have step := ih (by omega)
    obtain ⟨d, hd⟩ : ∃ d, k - t = d + 1 := ⟨k - t - 1, by omega⟩
    rw [hd] at step
    cases step with
    | up parent rest =>
      rw [ancestor, parent, Option.getD_some, show k - (t + 1) = d by omega]
      exact rest

/-- When only the first `n` nodes have parents, no climb is longer than `n`: the nodes on the way
are at different heights. -/
theorem Climbs.le_of_bounded {n : Nat} (h : Climbs par i k r)
    (bounded : ∀ i, par i ≠ none → i < n) : k ≤ n := by
  have inside : ∀ t : Fin k, ancestor par i t < n := by
    intro t
    have climb := h.above (Nat.le_of_lt t.isLt)
    obtain ⟨d, hd⟩ : ∃ d, k - t = d + 1 := ⟨k - t - 1, by omega⟩
    rw [hd] at climb
    cases climb with
    | up parent rest => exact bounded _ (by simp [parent])
  have injective : Function.Injective (fun t : Fin k => (⟨ancestor par i t, inside t⟩ : Fin n)) := by
    intro t u same
    have node : ancestor par i t = ancestor par i u := congrArg Fin.val same
    have climb := h.above (Nat.le_of_lt t.isLt)
    rw [node] at climb
    have height := (climb.unique (h.above (Nat.le_of_lt u.isLt))).1
    omega
  simpa using Fintype.card_le_of_injective _ injective

variable {i j r x : Nat}

/-- Nodes may be pointed at their root at any time. -/
def Redirected (par par' : Nat → Option Nat) : Prop :=
  ∀ i, par' i = par i ∨ ∃ p, par' i = some p ∧ i ≠ p ∧ Root par i p

theorem Redirected.refl (par : Nat → Option Nat) : Redirected par par := fun _ => Or.inl rfl

section

variable (h : Redirected par par')

include h

theorem Redirected.root_none (root : par i = none) : par' i = none := by
  rcases h i with same | ⟨p, -, differ, above⟩
  · rw [same, root]
  · exact absurd (above.eq_self root).symm differ

theorem Redirected.root (above : Root par i r) : Root par' i r := by
  obtain ⟨k, climb⟩ := above
  induction climb with
  | here root => exact .self (h.root_none root)
  | @up i p k r parent rest ih =>
    rcases h i with same | ⟨q, pointer, -, above⟩
    · exact .up (same.trans parent) ih
    · obtain rfl := above.unique ⟨k + 1, .up parent rest⟩
      exact .up pointer (.self (h.root_none above.root_none))

theorem Redirected.forest (forest : Forest par) : Forest par' := by
  intro i
  obtain ⟨r, above⟩ := forest i
  exact ⟨r, h.root above⟩

theorem Redirected.root_iff (forest : Forest par) : Root par' i r ↔ Root par i r := by
  constructor
  · intro above
    obtain ⟨r', before⟩ := forest i
    rw [above.unique (h.root before)]
    exact before
  · exact h.root

theorem Redirected.trans {par'' : Nat → Option Nat} (h' : Redirected par' par'')
    (forest : Forest par) : Redirected par par'' := by
  intro x
  rcases h' x with same | ⟨p, pointer, differ, above⟩
  · rw [same]
    exact h x
  · exact Or.inr ⟨p, pointer, differ, (h.root_iff forest).mp above⟩

end

theorem Root.link (above : Root par x r) (rootI : par i = none) (rootJ : par j = none)
    (differ : i ≠ j) : Root (Function.update par i (some j)) x (if r = i then j else r) := by
  have rootJ' : Root (Function.update par i (some j)) j j :=
    .self (by rw [Function.update_of_ne differ.symm, rootJ])
  obtain ⟨k, climb⟩ := above
  induction climb with
  | @here x root =>
    by_cases h : x = i
    · subst h
      rw [if_pos rfl]
      exact .up (Function.update_self x (some j) par) rootJ'
    · rw [if_neg h]
      exact .self (by rw [Function.update_of_ne h, root])
  | @up x p k r parent rest ih =>
    have other : x ≠ i := by
      rintro rfl
      simp [rootI] at parent
    exact .up (by rw [Function.update_of_ne other, parent]) ih

/-- `x` lies on the way from `i` to its root. -/
inductive OnPath (par : Nat → Option Nat) : Nat → Nat → Prop
  | here (i : Nat) : OnPath par i i
  | up {i p x : Nat} (parent : par i = some p) (rest : OnPath par p x) : OnPath par i x

theorem OnPath.root (h : OnPath par i x) (above : Root par i r) : Root par x r := by
  induction h with
  | here => exact above
  | up parent _ ih => exact ih (above.of_parent parent)

theorem OnPath.of_root (above : Root par i r) : OnPath par i r := by
  obtain ⟨k, climb⟩ := above
  induction climb with
  | here => exact .here _
  | up parent _ ih => exact .up parent ih

theorem OnPath.climbs {k : Nat} (h : OnPath par i x) (climb : Climbs par i k r) :
    ∃ l ≤ k, Climbs par x l r := by
  induction h generalizing k with
  | here => exact ⟨k, Nat.le_refl k, climb⟩
  | up parent _ ih =>
    cases climb with
    | here root => simp [parent] at root
    | up parent' rest =>
      obtain rfl := Option.some.inj (parent.symm.trans parent')
      obtain ⟨l, le, climb⟩ := ih rest
      exact ⟨l, by omega, climb⟩

theorem OnPath.ne_child {p : Nat} (path : OnPath par p x) (parent : par i = some p)
    (above : Root par p r) : x ≠ i := by
  rintro rfl
  obtain ⟨k, climb⟩ := above
  obtain ⟨l, le, back⟩ := path.climbs climb
  have height := (back.unique (.up parent climb)).1
  omega

/-- Promotion: the whole way from `i` to its root is pointed at `i`, which becomes the root. -/
def Promoted (par par' : Nat → Option Nat) (i : Nat) : Prop :=
  par' i = none ∧ ∀ x, x ≠ i → (OnPath par i x → par' x = some i) ∧ (¬ OnPath par i x → par' x = par x)

theorem Promoted.root {top : Nat} (h : Promoted par par' i) (own : Root par i top)
    (above : Root par x r) : Root par' x (if r = top then i else r) := by
  have rootI : Root par' i i := .self h.1
  obtain ⟨k, climb⟩ := above
  induction climb with
  | @here x root =>
    by_cases equal : x = top
    · rw [if_pos equal]
      by_cases same : x = i
      · exact same ▸ rootI
      · exact .up ((h.2 x same).1 (equal ▸ OnPath.of_root own)) rootI
    · rw [if_neg equal]
      have apart : ¬ OnPath par i x := fun path =>
        equal ((path.root own).eq_self root).symm
      have other : x ≠ i := by
        rintro rfl
        exact apart (.here x)
      exact .self (by rw [(h.2 x other).2 apart, root])
  | @up x p k r parent rest ih =>
    by_cases same : x = i
    · subst same
      have equal : r = top := Root.unique ⟨k + 1, .up parent rest⟩ own
      rw [if_pos equal]
      exact rootI
    · by_cases path : OnPath par i x
      · have equal : r = top := Root.unique ⟨k + 1, .up parent rest⟩ (path.root own)
        rw [if_pos equal]
        exact .up ((h.2 x same).1 path) rootI
      · exact .up (by rw [(h.2 x same).2 path, parent]) ih

end ManticoreFrontend.Foundation.ParentForest
