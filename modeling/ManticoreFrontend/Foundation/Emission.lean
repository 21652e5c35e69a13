/- digest: A program logic for builders that only ever add constraints to their state. -/

import Mathlib.Init

namespace ManticoreFrontend.Foundation.Emission

/-- A state that grows by constraints. `Sat` says that one fixed assignment meets every constraint
so far, `Good` that the indexes kept beside the constraints are true of it. -/
structure Ledger (S : Type) where
  le : S → S → Prop
  refl : ∀ s, le s s
  trans : ∀ {s t u}, le s t → le t u → le s u
  Sat : S → Prop
  mono : ∀ {s t}, le s t → Sat t → Sat s
  Good : S → Prop

abbrev Build (S α : Type) := StateT S Option α

variable {S α β : Type} {s : S}

theorem bind_eq_some {m : Build S α} {f : α → Build S β} {u : S} {b : β} :
    (m >>= f) s = some (b, u) ↔ ∃ a t, m s = some (a, t) ∧ f a t = some (b, u) := by
  change (m s).bind (fun p => f p.1 p.2) = some (b, u) ↔ _
  rw [Option.bind_eq_some_iff]
  constructor
  · rintro ⟨⟨a, t⟩, hm, hf⟩
    exact ⟨a, t, hm, hf⟩
  · rintro ⟨a, t, hm, hf⟩
    exact ⟨(a, t), hm, hf⟩

theorem pure_eq_some {a b : α} {t : S} : (pure a : Build S α) s = some (b, t) ↔ a = b ∧ s = t := by
  change some (a, s) = some (b, t) ↔ _
  simp

theorem get_eq_some {a t : S} : (get : Build S S) s = some (a, t) ↔ a = s ∧ t = s := by
  change some (s, s) = some (a, t) ↔ _
  simp [eq_comm]

theorem modify_eq_some {f : S → S} {t : S} {u : Unit} :
    (modify f : Build S Unit) s = some (u, t) ↔ t = f s := by
  change some ((), f s) = some (u, t) ↔ _
  simp [eq_comm]

theorem lift_eq_some {o : Option α} {a : α} {t : S} :
    (liftM o : Build S α) s = some (a, t) ↔ o = some a ∧ t = s := by
  cases o with
  | none =>
    constructor
    · intro h
      cases h
    · rintro ⟨h, -⟩
      cases h
  | some b =>
    change some (b, s) = some (a, t) ↔ _
    simp [eq_comm]

/-- Every successful run of `m` grows the ledger, whatever is known. When the facts `P` hold and an
assignment meets the ledger after the run, the run keeps the indexes true and establishes `Q`. -/
def Spec {S α : Type} (L : Ledger S) (P : Prop) (m : Build S α) (Q : α → Prop) : Prop :=
  ∀ s a t, m s = some (a, t) →
    L.le s t ∧ (P → L.Sat t → L.Good s → L.Good t ∧ Q a)

variable {c : Prop}

namespace Spec

variable {L : Ledger S} {P : Prop} {Q : α → Prop} {m : Build S α}

theorem ret {a : α} (h : P → Q a) : Spec L P (pure a) Q := by
  intro s b t run
  obtain ⟨rfl, rfl⟩ := pure_eq_some.mp run
  exact ⟨L.refl s, fun facts _ good => ⟨good, h facts⟩⟩

/-- Sequencing: what the first part establishes is put in front of the known facts. -/
theorem bind {f : α → Build S β} {R : β → Prop} (first : Spec L P m Q)
    (second : ∀ a, Spec L (Q a ∧ P) (f a) R) : Spec L P (m >>= f) R := by
  intro s b u run
  obtain ⟨a, t, hm, hf⟩ := bind_eq_some.mp run
  obtain ⟨grow, gives⟩ := first s a t hm
  obtain ⟨grow', gives'⟩ := second a t b u hf
  refine ⟨L.trans grow grow', ?_⟩
  intro facts sat good
  obtain ⟨good', fact⟩ := gives facts (L.mono grow' sat) good
  exact gives' ⟨fact, facts⟩ sat good'

theorem weaken {P' : Prop} {R : α → Prop} (h : Spec L P' m Q) (pre : P → P')
    (post : ∀ a, P → Q a → R a) : Spec L P m R := by
  intro s a t run
  obtain ⟨grow, gives⟩ := h s a t run
  refine ⟨grow, fun facts sat good => ?_⟩
  obtain ⟨good', fact⟩ := gives (pre facts) sat good
  exact ⟨good', post a facts fact⟩

theorem under (h : Spec L True m Q) : Spec L P m Q :=
  h.weaken (fun _ => trivial) (fun _ _ => id)

/-- Name a consequence of the known facts. -/
theorem note {F : Prop} (fact : P → F) (h : Spec L (F ∧ P) m Q) : Spec L P m Q :=
  h.weaken (fun facts => ⟨fact facts, facts⟩) (fun _ _ => id)

theorem abort : Spec L P (failure : Build S α) Q := by
  intro s a t run
  cases run

theorem ite [Decidable c] {m' : Build S α} (yes : c → Spec L P m Q)
    (no : ¬ c → Spec L P m' Q) : Spec L P (if c then m else m') Q := by
  split
  · exact yes ‹_›
  · exact no ‹_›

/-- An assertion of the source: the run goes on only when it holds. -/
theorem assert [Decidable c] : Spec L P (guard c : Build S Unit) (fun _ => c) := by
  exact ite (fun h => ret (fun _ => h)) fun _ => abort

/-- A lookup that may fail. -/
theorem lift {o : Option α} : Spec L P (liftM o : Build S α) (fun a => o = some a) := by
  intro s a t run
  obtain ⟨found, rfl⟩ := lift_eq_some.mp run
  exact ⟨L.refl _, fun _ _ good => ⟨good, found⟩⟩

/-- The results of a loop, each with what its round establishes. -/
theorem mapM {Q : β → α → Prop} {f : β → Build S α} {l : List β}
    (each : ∀ b ∈ l, ∀ P, Spec L P (f b) (Q b)) : Spec L P (l.mapM f)
      (fun results => results.length = l.length ∧
        ∀ (i : Nat) b a, l[i]? = some b → results[i]? = some a → Q b a) := by
  induction l generalizing P with
  | nil => exact ret (fun _ => ⟨rfl, fun i b a at_i => by simp at at_i⟩)
  | cons b l ih =>
    rw [List.mapM_cons]
    refine bind (each b (by simp) P) fun result => ?_
    refine bind (ih (fun b h => each b (by simp [h]))) fun results => ret ?_
    rintro ⟨⟨length, rest⟩, first, -⟩
    refine ⟨by simp [length], ?_⟩
    rintro (_ | i) c a at_i result_i
    · obtain rfl : b = c := by simpa using at_i
      obtain rfl : result = a := by simpa using result_i
      exact first
    · exact rest i c a (by simpa using at_i) (by simpa using result_i)

end Spec

def Returns {S α : Type} (m : Build S α) (Q : α → Prop) : Prop := ∀ s a t, m s = some (a, t) → Q a

variable {S α : Type} {m : Build S α}

theorem Returns.ret {a : α} {Q : α → Prop} (h : Q a) : Returns (pure a : Build S α) Q := by
  intro s b t run
  obtain ⟨rfl, -⟩ := pure_eq_some.mp run
  exact h

theorem Returns.bind {β : Type} {f : α → Build S β} {Q : β → Prop} (h : ∀ a, Returns (f a) Q) :
    Returns (m >>= f) Q := by
  intro s b u run
  obtain ⟨a, t, -, hf⟩ := bind_eq_some.mp run
  exact h a t b u hf

def Total {S α : Type} (m : Build S α) : Prop := ∀ s, ∃ a t, m s = some (a, t)

theorem Total.ret (a : α) : Total (pure a : Build S α) := fun s => ⟨a, s, rfl⟩

theorem Total.bind {β : Type} {f : α → Build S β} (first : Total m) (second : ∀ a, Total (f a)) :
    Total (m >>= f) := by
  intro s
  obtain ⟨a, t, hm⟩ := first s
  obtain ⟨b, u, hf⟩ := second a t
  exact ⟨b, u, bind_eq_some.mpr ⟨a, t, hm, hf⟩⟩

theorem Total.ite [Decidable c] {m' : Build S α} (yes : c → Total m)
    (no : ¬ c → Total m') : Total (if c then m else m') := by
  split
  · exact yes ‹_›
  · exact no ‹_›

theorem guard_eq_pure [Decidable c] (h : c) : (guard c : Build S Unit) = pure () :=
  if_pos h

theorem Total.assert [Decidable c] (h : c) : Total (guard c : Build S Unit) := by
  rw [guard_eq_pure h]
  exact Total.ret ()

theorem Total.mapM {β : Type} {f : α → Build S β} {l : List α} (each : ∀ a ∈ l, Total (f a)) :
    Total (l.mapM f) := by
  induction l with
  | nil => exact Total.ret []
  | cons a l ih =>
    rw [List.mapM_cons]
    refine (each a (by simp)).bind fun b => ?_
    exact (ih (fun a h => each a (by simp [h]))).bind (fun bs => Total.ret (b :: bs))

end ManticoreFrontend.Foundation.Emission
