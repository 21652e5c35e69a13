/- digest: Marking by rounds: what a worklist has reached and what it leaves over. -/

import Mathlib.Data.List.Basic

namespace ManticoreFrontend.Foundation.Marking

variable {α : Type} {items : List α} {root : α → Prop} {feeds : α → α → Prop}

/-- The items from which a root is reached: the roots, and what feeds a marked item. -/
inductive Marked (items : List α) (root : α → Prop) (feeds : α → α → Prop) : α → Prop
  | root {a : α} : a ∈ items → root a → Marked items root feeds a
  | feeds {a b : α} : Marked items root feeds b → a ∈ items → feeds a b → Marked items root feeds a

theorem Marked.inside {a : α} (marked : Marked items root feeds a) : a ∈ items := by
  cases marked with
  | root inside _ => exact inside
  | feeds _ inside _ => exact inside

/-- What holds between two rounds: everything taken out of `unused` is marked, and only the items
of the queue may still have unused feeders. -/
structure Progress (items : List α) (root : α → Prop) (feeds : α → α → Prop)
    (queue unused : List α) : Prop where
  marked : ∀ a ∈ items, a ∉ unused → Marked items root feeds a
  roots : ∀ a ∈ items, root a → a ∉ unused
  inside : ∀ a ∈ unused, a ∈ items
  queued : ∀ a ∈ queue, a ∈ items ∧ a ∉ unused
  closed : ∀ b ∈ items, b ∉ unused → b ∉ queue → ∀ a ∈ items, feeds a b → a ∉ unused

namespace Progress

variable {queue unused : List α}

theorem start (queued : ∀ a, a ∈ queue ↔ a ∈ items ∧ root a)
    (left : ∀ a, a ∈ unused ↔ a ∈ items ∧ ¬ root a) : Progress items root feeds queue unused where
  marked := by
    intro a inside out
    apply Marked.root inside
    by_contra notRoot
    exact out ((left a).mpr ⟨inside, notRoot⟩)
  roots := fun a _ isRoot member => ((left a).mp member).2 isRoot
  inside := fun a member => ((left a).mp member).1
  queued := by
    intro a member
    obtain ⟨inside, isRoot⟩ := (queued a).mp member
    exact ⟨inside, fun member => ((left a).mp member).2 isRoot⟩
  closed := by
    intro b inside out waiting
    by_cases isRoot : root b
    · exact absurd ((queued b).mpr ⟨inside, isRoot⟩) waiting
    · exact absurd ((left b).mpr ⟨inside, isRoot⟩) out

theorem step (now : Progress items root feeds queue unused) (p : α → Bool)
    (decides : ∀ a ∈ unused, p a = true ↔ ∃ b ∈ queue, feeds a b) :
    Progress items root feeds (unused.filter p) (unused.filter (fun a => !p a)) where
  marked := by
    intro a inside out
    by_cases before : a ∈ unused
    · have moved : p a = true := by simpa [before] using out
      obtain ⟨b, waiting, feed⟩ := (decides a before).mp moved
      obtain ⟨insideB, outB⟩ := now.queued b waiting
      exact .feeds (now.marked b insideB outB) inside feed
    · exact now.marked a inside before
  roots := by
    intro a inside isRoot member
    exact now.roots a inside isRoot (List.mem_filter.mp member).1
  inside := fun a member => now.inside a (List.mem_filter.mp member).1
  queued := by
    intro a member
    obtain ⟨before, moved⟩ := List.mem_filter.mp member
    exact ⟨now.inside a before, by simp [moved]⟩
  closed := by
    intro b inside out waiting a insideA feed member
    obtain ⟨before, stays⟩ := List.mem_filter.mp member
    by_cases beforeB : b ∈ unused
    · -- an item that left in this round is in the new queue
      cases moved : p b with
      | true => exact waiting (List.mem_filter.mpr ⟨beforeB, moved⟩)
      | false => exact out (List.mem_filter.mpr ⟨beforeB, by simp [moved]⟩)
    · by_cases queuedB : b ∈ queue
      · have moved : p a = true := (decides a before).mpr ⟨b, queuedB, feed⟩
        simp [moved] at stays
      · exact now.closed b inside beforeB queuedB a insideA feed before

/-- When the queue is empty exactly the items that are not marked are left. -/
theorem final (now : Progress items root feeds [] unused) {a : α} (inside : a ∈ items) :
    a ∈ unused ↔ ¬ Marked items root feeds a := by
  constructor
  · intro left marked
    induction marked with
    | root inside isRoot => exact now.roots _ inside isRoot left
    | @feeds a b marked inside feed ih =>
      have out : b ∉ unused := fun left => ih marked.inside left
      exact now.closed b marked.inside out (List.not_mem_nil) a inside feed left
  · intro unmarked
    by_contra out
    exact unmarked (now.marked a inside out)

end Progress

end ManticoreFrontend.Foundation.Marking
