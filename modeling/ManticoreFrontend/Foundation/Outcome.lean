/- digest: Computations that can fail, and rules for what they return when only some failures are
     allowed. -/

import Mathlib.Data.List.Induction
import Mathlib.Data.List.Range

namespace ManticoreFrontend.Foundation.Outcome

variable {ε α β : Type}

def orFail (x : Option α) (failure : ε) : Except ε α :=
  match x with
  | some a => .ok a
  | none => .error failure

def check (condition : Prop) [Decidable condition] (failure : ε) : Except ε Unit :=
  if condition then .ok () else .error failure

/-- The computation returns a value with the property, or fails in an allowed way. -/
def Returns (allowed : ε → Prop) (x : Except ε α) (P : α → Prop) : Prop :=
  match x with
  | .ok a => P a
  | .error e => allowed e

variable {allowed : ε → Prop} {x : Except ε α} {P Q : α → Prop}

theorem Returns.ok {a : α} (h : P a) : Returns allowed (.ok a) P := h

theorem Returns.of_eq {a : α} (eq : x = .ok a) (h : P a) : Returns allowed x P := by
  rw [eq]
  exact h

theorem Returns.mono (h : Returns allowed x P) (weaker : ∀ a, P a → Q a) : Returns allowed x Q := by
  cases x with
  | ok a => exact weaker a h
  | error e => exact h

theorem Returns.weaken {allowed' : ε → Prop} (h : Returns allowed x P)
    (weaker : ∀ e, allowed e → allowed' e) : Returns allowed' x P := by
  cases x with
  | ok a => exact h
  | error e => exact weaker e h

variable {f : α → Except ε β}

theorem Returns.bind {R : β → Prop} (h : Returns allowed x P)
    (next : ∀ a, P a → Returns allowed (f a) R) : Returns allowed (x >>= f) R := by
  cases x with
  | ok a => exact next a h
  | error e => exact h

variable {l : List α}

theorem Returns.mapM {R : α → β → Prop} (each : ∀ a ∈ l, Returns allowed (f a) (R a)) :
    Returns allowed (l.mapM f) (List.Forall₂ R l) := by
  induction l with
  | nil => exact List.Forall₂.nil
  | cons a rest ih =>
    rw [List.forall_mem_cons] at each
    rw [List.mapM_cons]
    refine each.1.bind fun b hb => ?_
    refine (ih each.2).bind fun bs hbs => ?_
    exact List.Forall₂.cons hb hbs

theorem Returns.forM {f : α → Except ε Unit} (each : ∀ a ∈ l, Returns allowed (f a) (fun _ => P a)) :
    Returns allowed (l.forM f) (fun _ => ∀ a ∈ l, P a) := by
  induction l with
  | nil => exact fun a member => absurd member List.not_mem_nil
  | cons a rest ih =>
    rw [List.forall_mem_cons] at each
    exact each.1.bind fun _ ha => (ih each.2).mono fun _ hrest => List.forall_mem_cons.mpr ⟨ha, hrest⟩

/-- A step that cannot fail needs no rule of its own. -/
theorem ok_bind (a : α) (f : α → Except ε β) : (Except.ok a >>= f) = f a := rfl

theorem orFail_some {o : Option α} {a : α} {failure : ε} (h : o = some a) :
    orFail o failure = .ok a := by
  rw [h]
  rfl

theorem check_true {condition : Prop} [Decidable condition] {failure : ε} (h : condition) :
    check condition failure = .ok () := if_pos h

/-- A loop over the first numbers keeps an invariant that counts the finished rounds. -/
theorem returns_range {σ : Type} {f : σ → Nat → Except ε σ} (Inv : Nat → σ → Prop) {s : σ}
    (n : Nat) (start : Inv 0 s)
    (round : ∀ i t, i < n → Inv i t → Returns allowed (f t i) (Inv (i + 1))) :
    Returns allowed ((List.range n).foldlM f s) (Inv n) := by
  induction n with
  | zero => exact start
  | succ n ih =>
    rw [List.range_succ, List.foldlM_append]
    refine (ih fun i t hi => round i t (by omega)).bind fun t ht => ?_
    refine (round n t (by omega) ht).bind fun u hu => ?_
    exact hu

section Programs

variable {S Op : Type} {step : S → Op → Option S} {init : S} {Good : List Op → S → Prop}
  {Bad : S → Op → Prop}

/-- If a bad step from a sound state ends in a state that is not good and every other step keeps it
sound, the states of a program are good exactly when it makes no bad step. -/
theorem foldlM_good_iff (Sound : List Op → S → Prop) (start : Sound [] init)
    (keeps : ∀ {before s op s'}, Sound before s → ¬ Bad s op → step s op = some s' →
      Sound (before ++ [op]) s')
    (breaks : ∀ {before s op}, Sound before s → Bad s op →
      ∃ s', step s op = some s' ∧ ¬ Good (before ++ [op]) s')
    (good : ∀ {before s}, Sound before s → Good before s) (ops : List Op) :
    (∀ before, before <+: ops → ∀ s, before.foldlM step init = some s → Good before s) ↔
      ∀ before op, before ++ [op] <+: ops → ∀ s, before.foldlM step init = some s → ¬ Bad s op := by
  have one {before op s'} : (before ++ [op]).foldlM step init = some s' ↔
      ∃ s, before.foldlM step init = some s ∧ step s op = some s' := by
    simp [Option.bind_eq_some_iff]
  have sound (safe : ∀ before op, before ++ [op] <+: ops → ∀ s, before.foldlM step init = some s →
      Sound before s → ¬ Bad s op) :
      ∀ before, before <+: ops → ∀ s, before.foldlM step init = some s → Sound before s := by
    intro before
    induction before using List.reverseRecOn with
    | nil =>
      intro _ s reached
      obtain rfl := Option.some.inj reached
      exact start
    | append_singleton before op ih =>
      intro inside s' reached
      obtain ⟨s, reached₁, done⟩ := one.mp reached
      have sound := ih ((List.prefix_append before [op]).trans inside) s reached₁
      exact keeps sound (safe before op inside s reached₁ sound) done
  constructor
  · intro all
    have safe : ∀ before op, before ++ [op] <+: ops → ∀ s, before.foldlM step init = some s →
        Sound before s → ¬ Bad s op := by
      intro before op inside s reached sound bad
      obtain ⟨s', done, broken⟩ := breaks sound bad
      exact broken (all _ inside s' (one.mpr ⟨s, reached, done⟩))
    intro before op inside s reached
    have part := (List.prefix_append before [op]).trans inside
    exact safe before op inside s reached (sound safe before part s reached)
  · intro safe before inside s reached
    exact good (sound (fun before op inside s reached _ => safe before op inside s reached)
      before inside s reached)

end Programs

end ManticoreFrontend.Foundation.Outcome
