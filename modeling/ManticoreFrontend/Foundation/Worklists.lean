/- digest: A worklist takes its elements in any order, handles them and adds what they lead to. It
     ends and handles all that can be reached, and it handles nothing twice exactly on trees. -/

import Mathlib.Data.Finset.SDiff
import Mathlib.Logic.Hydra

namespace ManticoreFrontend.Foundation.Worklists

open Relation

variable {α : Type}

/-- The elements that wait, and the handled ones in their order. -/
structure State (α : Type) where
  pending : Finset α
  handled : List α := []

def Seen (s : State α) (a : α) : Prop := a ∈ s.pending ∨ a ∈ s.handled

variable (next : α → Option (Finset α)) (top : α)

/-- Any waiting element may be taken; one that cannot be handled stops the run. -/
inductive Step [DecidableEq α] : State α → State α → Prop
  | take {s : State α} {a : α} {new : Finset α} (waits : a ∈ s.pending) (leads : next a = some new) :
      Step s ⟨s.pending.erase a ∪ new, s.handled ++ [a]⟩

abbrev Run [DecidableEq α] : State α → Prop := ReflTransGen (Step next) ⟨{top}, []⟩

def Leads (a b : α) : Prop := ∃ new, next a = some new ∧ b ∈ new

abbrev Reachable : α → Prop := ReflTransGen (Leads next) top

/-- No element is reached from two different ones. -/
def Single : Prop :=
  ∀ a b c, Reachable next top a → Reachable next top b → Leads next a c → Leads next b c → a = b

/-- What has been seen can be reached, and handled elements lead to seen ones. -/
structure Explores (s : State α) : Prop where
  reached : ∀ a, Seen s a → Reachable next top a
  closed : ∀ a ∈ s.handled, ∀ b, Leads next a b → Seen s b
  first : Seen s top

variable {next top} {s t : State α} {a b p q c : α} {new : Finset α}

theorem explores_start : Explores next top ⟨{top}, []⟩ := by
  refine ⟨fun a seen => ?_, by simp, by simp [Seen]⟩
  obtain rfl : a = top := by simpa [Seen] using seen
  exact .refl

/-- A run at its end has handled what can be reached. -/
theorem Explores.handled_iff (h : Explores next top s) (empty : s.pending = ∅) (a : α) :
    Reachable next top a ↔ a ∈ s.handled := by
  have seen : ∀ b, Seen s b ↔ b ∈ s.handled := by simp [Seen, empty]
  constructor
  · intro path
    induction path with
    | refl => exact (seen top).mp h.first
    | tail _ leads ih => exact (seen _).mp (h.closed _ ih _ leads)
  · exact fun handled => h.reached a (.inr handled)

variable [DecidableEq α]

theorem seen_take (waits : a ∈ s.pending) :
    Seen ⟨s.pending.erase a ∪ new, s.handled ++ [a]⟩ b ↔ Seen s b ∨ b ∈ new := by
  simp only [Seen, Finset.mem_union, Finset.mem_erase, List.mem_append, List.mem_singleton]
  by_cases own : b = a
  · simp [own, waits]
  · simp only [own, ne_eq, not_false_eq_true, true_and, or_false]
    exact or_right_comm

theorem Explores.step (h : Explores next top s) (step : Step next s t) : Explores next top t := by
  obtain @⟨a, new, waits, leads⟩ := step
  refine ⟨fun b seen => ?_, fun x handled b onward => ?_, (seen_take waits).mpr (.inl h.first)⟩
  · rcases (seen_take waits).mp seen with old | member
    · exact h.reached b old
    · exact (h.reached a (.inl waits)).tail ⟨new, leads, member⟩
  · rw [seen_take waits]
    rcases List.mem_append.mp handled with old | own
    · exact .inl (h.closed x old b onward)
    · obtain ⟨found, same, member⟩ := onward
      rw [List.mem_singleton.mp own, leads] at same
      exact .inr (Option.some.inj same ▸ member)

theorem Explores.run (h : Explores next top s) (run : ReflTransGen (Step next) s t) :
    Explores next top t := by
  induction run with
  | refl => exact h
  | tail _ step ih => exact ih.step step

/-- An element that is handled before one that leads to it is handled again. -/
theorem handled_again (run : ReflTransGen (Step next) s t) (leads : Leads next q c)
    (before : c ∈ s.handled) (later : q ∉ s.handled) :
    c ∈ t.handled ∧ (q ∉ t.handled ∨ c ∈ t.pending ∨ ¬ t.handled.Nodup) := by
  induction run with
  | refl => exact ⟨before, .inl later⟩
  | tail _ step ih =>
    obtain @⟨a, new, waits, same⟩ := step
    obtain ⟨handled, absent | again | twice⟩ := ih <;>
      refine ⟨List.mem_append_left _ handled, ?_⟩
    · by_cases own : q = a
      · obtain ⟨found, same', member⟩ := leads
        rw [own, same] at same'
        obtain rfl := Option.some.inj same'
        exact .inr (.inl (Finset.mem_union_right _ member))
      · exact .inl (by simp [absent, own])
    · by_cases own : c = a
      · exact .inr (.inr fun nodup => (List.nodup_append.mp nodup).2.2 c handled a (by simp) own)
      · exact .inr (.inl (Finset.mem_union_left _ (Finset.mem_erase.mpr ⟨own, again⟩)))
    · exact .inr (.inr fun nodup => twice nodup.of_append_left)

section Ranked

variable {rank : α → Nat} (ranked : ∀ a b, Reachable next top a → Leads next a b → rank b < rank a)
  (accepts : ∀ a, Reachable next top a → (next a).isSome)

include ranked

/-- A step exchanges an element for lower ones. -/
theorem Explores.cut (h : Explores next top s) (step : Step next s t) :
    CutExpand (InvImage (· < ·) rank) t.pending.val s.pending.val := by
  obtain @⟨a, new, waits, leads⟩ := step
  refine ⟨(new \ s.pending.erase a).val, a, fun b member => ?_, ?_⟩
  · exact ranked a b (h.reached a (.inl waits)) ⟨new, leads, (Finset.mem_sdiff.mp member).1⟩
  · have parts : s.pending.erase a ∪ new =
        (s.pending.erase a).disjUnion (new \ s.pending.erase a) Finset.disjoint_sdiff := by
      rw [Finset.disjUnion_eq_union, Finset.union_sdiff_self_eq_union]
    have whole : s.pending.val.erase a + {a} = s.pending.val := by
      rw [add_comm, Multiset.singleton_add, Multiset.cons_erase waits]
    rw [parts, Finset.disjUnion_val, Finset.erase_val, add_right_comm, whole]

theorem no_endless_run {f : Nat → State α} (start : f 0 = ⟨{top}, []⟩) :
    ∃ k, ¬ Step next (f k) (f (k + 1)) := by
  by_contra endless
  push Not at endless
  have explores : ∀ k, Explores next top (f k) := by
    intro k
    induction k with
    | zero => exact start ▸ explores_start
    | succ k ih => exact ih.step (endless k)
  have : IsWellFounded _ (CutExpand (InvImage (· < ·) rank)) := ⟨(measure rank).wf.cutExpand⟩
  obtain ⟨k, stop⟩ := WellFounded.not_rel_apply_succ (r := CutExpand (InvImage (· < ·) rank))
    fun k => (f k).pending.val
  exact stop ((explores k).cut ranked (endless k))

include accepts in
theorem Explores.exists_end (h : Explores next top s) :
    ∃ t, ReflTransGen (Step next) s t ∧ t.pending = ∅ := by
  have descends := (measure rank).wf.cutExpand
  generalize size : s.pending.val = m
  induction m using descends.induction generalizing s with
  | _ m ih =>
    subst size
    rcases s.pending.eq_empty_or_nonempty with empty | ⟨a, waits⟩
    · exact ⟨s, .refl, empty⟩
    · obtain ⟨new, leads⟩ := Option.isSome_iff_exists.mp (accepts a (h.reached a (.inl waits)))
      have step : Step next s _ := .take waits leads
      obtain ⟨t, run, empty⟩ := ih _ (h.cut ranked step) (h.step step) rfl
      exact ⟨t, run.head step, empty⟩

/-- A run can go straight to an element, through higher ones. -/
theorem exists_run_to (path : Reachable next top p) :
    ∃ s, Run next top s ∧ p ∈ s.pending ∧ ∀ a ∈ s.handled, rank p < rank a := by
  induction path with
  | refl => exact ⟨_, .refl, by simp, by simp⟩
  | @tail x p before leads ih =>
    obtain ⟨s, run, waits, above⟩ := ih
    have lower := ranked x p before leads
    obtain ⟨new, leads, member⟩ := leads
    refine ⟨_, run.tail (.take waits leads), Finset.mem_union_right _ member, fun a handled => ?_⟩
    rcases List.mem_append.mp handled with old | own
    · exact lower.trans (above a old)
    · exact List.mem_singleton.mp own ▸ lower

include accepts in
theorem exists_twice (reachedP : Reachable next top p) (reachedQ : Reachable next top q)
    (leadsP : Leads next p c) (leadsQ : Leads next q c) (other : p ≠ q) (below : rank q ≤ rank p) :
    ∃ t, Run next top t ∧ ¬ t.handled.Nodup := by
  obtain ⟨s, run, waits, above⟩ := exists_run_to ranked reachedP
  obtain ⟨_, leads⟩ := Option.isSome_iff_exists.mp (accepts c (reachedP.tail leadsP))
  obtain ⟨_, toC, member⟩ := leadsP
  have run := (run.tail (.take waits toC)).tail (.take (Finset.mem_union_right _ member) leads)
  obtain ⟨t, rest, empty⟩ := (explores_start.run run).exists_end ranked accepts
  have lower := ranked q c reachedQ leadsQ
  have later : q ∉ s.handled ++ [p] ++ [c] := by
    simp only [List.mem_append, List.mem_singleton, not_or]
    refine ⟨⟨fun seen => ?_, other.symm⟩, ?_⟩
    · exact absurd (above q seen) (by omega)
    · rintro rfl
      exact lt_irrefl _ lower
  obtain ⟨-, absent | waits | twice⟩ := handled_again rest leadsQ (by simp) later
  · exact absurd (((explores_start.run (run.trans rest)).handled_iff empty q).mp reachedQ) absent
  · simp [empty] at waits
  · exact ⟨t, run.trans rest, twice⟩

omit [DecidableEq α] in
theorem rank_le (path : Reachable next top a) : rank a ≤ rank top := by
  induction path with
  | refl => exact le_rfl
  | tail before leads ih => exact (ranked _ _ before leads).le.trans ih

/-- On a tree everything seen comes from a handled element, and nothing handled waits. -/
structure Fresh (next : α → Option (Finset α)) (top : α) (s : State α) : Prop
    extends Explores next top s where
  nodup : s.handled.Nodup
  fresh : ∀ a ∈ s.pending, a ∉ s.handled
  origin : ∀ a, Seen s a → a = top ∨ ∃ p ∈ s.handled, Leads next p a

theorem Fresh.step (single : Single next top) (h : Fresh next top s) (step : Step next s t) :
    Fresh next top t := by
  have explores := h.toExplores.step step
  obtain @⟨a, new, waits, leads⟩ := step
  have reached := h.reached a (.inl waits)
  refine ⟨explores, ?_, fun c member seen => ?_, fun c seen => ?_⟩
  · exact (List.perm_append_singleton a _).nodup_iff.mpr
      (List.nodup_cons.mpr ⟨h.fresh a waits, h.nodup⟩)
  · simp only [Finset.mem_union, Finset.mem_erase, List.mem_append, List.mem_singleton] at member seen
    rcases member with ⟨other, old⟩ | member
    · exact seen.elim (h.fresh c old) other
    · have leads : Leads next a c := ⟨new, leads, member⟩
      have lower := ranked a c reached leads
      rcases seen with handled | rfl
      · rcases h.origin c (.inr handled) with rfl | ⟨p, before, parent⟩
        · exact absurd (rank_le ranked reached) (by omega)
        · obtain rfl := single p a c (h.reached p (.inr before)) reached parent leads
          exact h.fresh p waits before
      · exact lt_irrefl _ lower
  · rcases (seen_take waits).mp seen with old | member
    · rcases h.origin c old with first | ⟨p, before, parent⟩
      · exact .inl first
      · exact .inr ⟨p, List.mem_append_left _ before, parent⟩
    · exact .inr ⟨a, by simp, new, leads, member⟩

include accepts in
theorem nodup_iff_single :
    (∀ t, Run next top t → t.handled.Nodup) ↔ Single next top := by
  constructor
  · intro once p q c reachedP reachedQ leadsP leadsQ
    by_contra other
    obtain ⟨t, run, twice⟩ : ∃ t, Run next top t ∧ ¬ t.handled.Nodup := by
      rcases le_total (rank q) (rank p) with below | below
      · exact exists_twice ranked accepts reachedP reachedQ leadsP leadsQ other below
      · exact exists_twice ranked accepts reachedQ reachedP leadsQ leadsP (Ne.symm other) below
    exact twice (once t run)
  · intro single t run
    have fresh : Fresh next top t := by
      induction run with
      | refl =>
        refine ⟨explores_start, List.nodup_nil, by simp, fun a seen => .inl ?_⟩
        simpa [Seen] using seen
      | tail _ step ih => exact ih.step ranked single step
    exact fresh.nodup

end Ranked

end ManticoreFrontend.Foundation.Worklists
