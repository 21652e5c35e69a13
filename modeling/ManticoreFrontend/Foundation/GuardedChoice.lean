/- digest: Lists of guarded alternatives of which the first open one runs, and when a list may be shortened. -/

import Mathlib.Data.List.Basic

namespace ManticoreFrontend.Foundation.GuardedChoice

variable {α β σ : Type} (guard : α → Bool) (body : α → σ → σ)

/-- Run the first alternative whose guard holds; nothing happens when there is none. -/
def choose : List α → σ → σ
  | [], s => s
  | a :: rest, s => if guard a then body a s else choose rest s

def Exclusive (l : List α) : Prop := l.Pairwise (fun a b => ¬ (guard a = true ∧ guard b = true))

variable {guard body}

@[simp] theorem choose_nil (s : σ) : choose guard body [] s = s := rfl

theorem choose_open {a : α} (h : guard a = true) (rest : List α) (s : σ) :
    choose guard body (a :: rest) s = body a s := by
  simp [choose, h]

theorem choose_closed {a : α} (h : guard a = false) (rest : List α) (s : σ) :
    choose guard body (a :: rest) s = choose guard body rest s := by
  simp [choose, h]

variable {l : List α}

theorem choose_eq_find (s : σ) :
    choose guard body l s = ((l.find? guard).map (fun a => body a s)).getD s := by
  induction l with
  | nil => rfl
  | cons a l ih =>
    cases h : guard a with
    | true =>
      rw [choose_open h, List.find?_cons_of_pos h]
      rfl
    | false => rw [choose_closed h, List.find?_cons_of_neg (by simp [h]), ih]

def Idle (guard : α → Bool) (body : α → σ → σ) (l : List α) : Prop :=
  ∀ a ∈ l, guard a = true → ∀ s, body a s = s

theorem Idle.tail {a : α} (idle : Idle guard body (a :: l)) : Idle guard body l :=
  fun b member => idle b (List.mem_cons_of_mem a member)

theorem Idle.sublist {m : List α} (idle : Idle guard body l) (sub : m.Sublist l) :
    Idle guard body m :=
  fun a member => idle a (sub.subset member)

theorem choose_idle (idle : Idle guard body l) (s : σ) : choose guard body l s = s := by
  induction l with
  | nil => rfl
  | cons a l ih =>
    cases h : guard a with
    | true => rw [choose_open h, idle a (by simp) h]
    | false => rw [choose_closed h, ih idle.tail]

theorem choose_append_idle {l m : List α} (idle : Idle guard body m) (s : σ) :
    choose guard body (l ++ m) s = choose guard body l s := by
  induction l with
  | nil => simpa using choose_idle idle s
  | cons a l ih =>
    cases h : guard a with
    | true => rw [List.cons_append, choose_open h, choose_open h]
    | false => rw [List.cons_append, choose_closed h, choose_closed h, ih]

/-- The property holds of the alternative that runs and of those behind it. -/
def Chosen (guard : α → Bool) (P : α → List α → Prop) : List α → Prop
  | [] => True
  | a :: rest => if guard a then P a rest else Chosen guard P rest

variable {P Q : α → List α → Prop}

theorem chosen_open {a : α} (h : guard a = true) {rest : List α} :
    Chosen guard P (a :: rest) ↔ P a rest := by
  simp [Chosen, h]

theorem chosen_closed {a : α} (h : guard a = false) {rest : List α} :
    Chosen guard P (a :: rest) ↔ Chosen guard P rest := by
  simp [Chosen, h]

theorem Chosen.mono (chosen : Chosen guard P l) (h : ∀ a rest, P a rest → Q a rest) :
    Chosen guard Q l := by
  induction l with
  | nil => exact True.intro
  | cons a l ih =>
    cases isOpen : guard a with
    | true => exact (chosen_open isOpen).mpr (h a l ((chosen_open isOpen).mp chosen))
    | false => exact (chosen_closed isOpen).mpr (ih ((chosen_closed isOpen).mp chosen))

theorem Chosen.of_forall (h : ∀ a rest, P a rest) (l : List α) : Chosen guard P l := by
  induction l with
  | nil => exact True.intro
  | cons a l ih =>
    unfold Chosen
    split
    · exact h a l
    · exact ih

theorem Chosen.of_idle (idle : Idle guard body l)
    (h : ∀ a rest, Idle guard body (a :: rest) → P a rest) : Chosen guard P l := by
  induction l with
  | nil => exact True.intro
  | cons a l ih =>
    cases isOpen : guard a with
    | true => exact (chosen_open isOpen).mpr (h a l idle)
    | false => exact (chosen_closed isOpen).mpr (ih idle.tail)

theorem Chosen.left {m : List α} (chosen : Chosen guard P (l ++ m))
    (h : ∀ a rest, P a (rest ++ m) → P a rest) : Chosen guard P l := by
  induction l with
  | nil => exact True.intro
  | cons a l ih =>
    rw [List.cons_append] at chosen
    cases isOpen : guard a with
    | true => exact (chosen_open isOpen).mpr (h a l ((chosen_open isOpen).mp chosen))
    | false => exact (chosen_closed isOpen).mpr (ih ((chosen_closed isOpen).mp chosen))

/-- Alternatives are dropped. If the one that runs is among them, those behind it idle. -/
theorem Chosen.filter {keep : α → Bool} (chosen : Chosen guard P l)
    (kept : ∀ a rest, P a rest → keep a = true → P a (rest.filter keep))
    (dropped : ∀ a rest, P a rest → keep a = false → Idle guard body rest)
    (h : ∀ a rest, Idle guard body (a :: rest) → P a rest) :
    Chosen guard P (l.filter keep) := by
  induction l with
  | nil => exact True.intro
  | cons a l ih =>
    cases isOpen : guard a with
    | true =>
      have here := (chosen_open isOpen).mp chosen
      cases stays : keep a with
      | true =>
        rw [List.filter_cons_of_pos stays]
        exact (chosen_open isOpen).mpr (kept a l here stays)
      | false =>
        rw [List.filter_cons_of_neg (by simp [stays])]
        exact Chosen.of_idle ((dropped a l here stays).sublist List.filter_sublist) h
    | false =>
      have rest := ih ((chosen_closed isOpen).mp chosen)
      cases stays : keep a with
      | true =>
        rw [List.filter_cons_of_pos stays]
        exact (chosen_closed isOpen).mpr rest
      | false => rwa [List.filter_cons_of_neg (by simp [stays])]

/-- Idle alternatives can be dropped unless one that runs has a busy one behind it. -/
theorem choose_filter {keep : α → Bool}
    (chosen : Chosen guard (fun a rest => keep a = false → Idle guard body rest) l)
    (idle : ∀ a ∈ l, keep a = false → ∀ s, body a s = s) (s : σ) :
    choose guard body (l.filter keep) s = choose guard body l s := by
  induction l with
  | nil => rfl
  | cons a l ih =>
    cases isOpen : guard a with
    | true =>
      rw [choose_open isOpen]
      cases kept : keep a with
      | true => rw [List.filter_cons_of_pos kept, choose_open isOpen]
      | false =>
        have behind := (chosen_open isOpen).mp chosen kept
        rw [List.filter_cons_of_neg (by simp [kept]), idle a (by simp) kept,
          choose_idle (behind.sublist List.filter_sublist)]
    | false =>
      have rest := ih ((chosen_closed isOpen).mp chosen) (fun b hb => idle b (by simp [hb]))
      rw [choose_closed isOpen, ← rest]
      cases kept : keep a with
      | true => rw [List.filter_cons_of_pos kept, choose_closed isOpen]
      | false => rw [List.filter_cons_of_neg (by simp [kept])]

theorem choose_preserves {P : σ → Prop} (each : ∀ a ∈ l, ∀ s, P s → P (body a s))
    {s : σ} (h : P s) : P (choose guard body l s) := by
  induction l with
  | nil => exact h
  | cons a l ih =>
    rw [choose]
    split
    · exact each a (by simp) s h
    · exact ih (fun b hb => each b (by simp [hb]))

end ManticoreFrontend.Foundation.GuardedChoice
