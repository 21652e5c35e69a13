/- source: passes/proc/proc_clean.cc
   digest: The clean-up of a process ends, and when it leaves what the process assigns unchanged. -/

import ManticoreFrontend.Passes.ProcCleanSize
import Mathlib.Logic.Relation

namespace ManticoreFrontend.Passes.ProcCleanRuns

open List hiding choose
open Foundation.GuardedChoice Kernel Constants Signals Processes ProcClean ProcCleanSize

variable {step : CaseRule → CaseRule → Prop} {v : Valuation}

/-- What the pass does to a case of a switch: patterns are erased, and it is cleaned up to some
depth. -/
inductive CleanStep : CaseRule → CaseRule → Prop
  | prune (cs : CaseRule) (compare : List SigSpec) : CleanStep cs { cs with compare := compare }
  | clean (cs : CaseRule) (maxDepth : Nat) : CleanStep cs (procCleanCase maxDepth cs).1

/-- The case is empty, or steps make it so. -/
def Vanishes (step : CaseRule → CaseRule → Prop) (cs : CaseRule) : Prop :=
  ∃ result, Relation.ReflTransGen step cs result ∧ result.empty = true

/-- Where the selector is constant, its comparison with the patterns finds the case: a default, a
pattern that equals the selector, or one that is not constant and matches. -/
def Recognized (v : Valuation) (signal : SigSpec) (cs : CaseRule) : Prop :=
  cs.compare = [] ∨ signal ∈ cs.compare ∨
    ∃ pattern ∈ cs.compare, isFullyConst pattern = false ∧ patternMatches v signal pattern = true

/-- The cases that match assign nothing. -/
abbrev IdleCases (v : Valuation) (signal : SigSpec) (cases : List CaseRule) : Prop :=
  Idle (CaseRule.matches v signal) (CaseRule.exec v) cases

/-- What the rewriting of a switch relies on, for the case that runs and those behind it. -/
structure Secure (step : CaseRule → CaseRule → Prop) (v : Valuation) (signal : SigSpec)
    (parallel : Bool) (cs : CaseRule) (rest : List CaseRule) : Prop where
  found : isFullyConst signal = true → Recognized v signal cs ∨ IdleCases v signal (cs :: rest)
  kept : parallel = true → Vanishes step cs → IdleCases v signal rest

structure Sound (step : CaseRule → CaseRule → Prop) (v : Valuation) (sw : SwitchRule) : Prop where
  checked : sw.Checked
  secure : Chosen (CaseRule.matches v sw.signal)
    (Secure step v sw.signal (sw.parallelCase && !sw.fullCase)) sw.cases

variable {signal : SigSpec} {parallel : Bool} {cs : CaseRule} {cases : List CaseRule}

private theorem Secure.of_idle (cs : CaseRule) (rest : List CaseRule)
    (idle : IdleCases v signal (cs :: rest)) : Secure step v signal parallel cs rest :=
  ⟨fun _ => .inr idle, fun _ _ => idle.tail⟩

theorem Secure.sublist {rest rest' : List CaseRule} (secure : Secure step v signal parallel cs rest)
    (sub : rest'.Sublist rest) : Secure step v signal parallel cs rest' :=
  ⟨fun const => (secure.found const).imp_right (·.sublist (sub.cons_cons cs)),
    fun isParallel vanishes => (secure.kept isParallel vanishes).sublist sub⟩

theorem Vanishes.of_steps {before after : CaseRule} (steps : Relation.ReflTransGen step before after)
    (vanishes : Vanishes step after) : Vanishes step before := by
  obtain ⟨result, reach, empty⟩ := vanishes
  exact ⟨result, steps.trans reach, empty⟩

private theorem Vanishes.of_empty (h : cs.empty = true) : Vanishes step cs := ⟨cs, .refl, h⟩

/-- The steps of the clean-up are among those considered. -/
def Covers (step : CaseRule → CaseRule → Prop) : Prop :=
  ∀ before after, CleanStep before after → step before after

theorem exec_compare (cs : CaseRule) (compare : List SigSpec) (s : Assigned) :
    ({ cs with compare := compare } : CaseRule).exec v s = cs.exec v s := by
  rw [CaseRule.exec_eq, CaseRule.exec_eq]

private theorem patternMatches_self (signal : SigSpec) : patternMatches v signal signal = true := by
  have all : ∀ p ∈ signal.zip signal, bitMatches v p.1 p.2 = true := by
    intro p member
    obtain ⟨i, inside, rfl⟩ := getElem_of_mem member
    simp [bitMatches]
  simpa [patternMatches] using all

theorem prunePatterns_none {patterns : List SigSpec} (h : prunePatterns signal patterns = none) :
    signal ∈ patterns := by
  induction patterns with
  | nil => cases h
  | cons val rest ih =>
    simp only [prunePatterns] at h
    split at h
    · exact mem_cons_of_mem _ (ih (Option.map_eq_none_iff.mp h))
    · split at h
      · rename_i same
        exact same ▸ mem_cons_self
      · exact mem_cons_of_mem _ (ih h)

theorem prunePatterns_some {patterns kept : List SigSpec} (const : isFullyConst signal = true)
    (h : prunePatterns signal patterns = some kept) :
    kept = patterns.filter (fun pattern => !isFullyConst pattern) ∧ signal ∉ patterns := by
  induction patterns generalizing kept with
  | nil =>
    obtain rfl : [] = kept := Option.some.inj h
    exact ⟨rfl, not_mem_nil⟩
  | cons val rest ih =>
    simp only [prunePatterns] at h
    split at h
    · rename_i open'
      obtain ⟨kept, prune, rfl⟩ := Option.map_eq_some_iff.mp h
      obtain ⟨rfl, absent⟩ := ih prune
      refine ⟨by rw [filter_cons_of_pos (by simp [open'])], ?_⟩
      rw [mem_cons, not_or]
      exact ⟨fun same => (by rw [same, open'] at const; cases const), absent⟩
    · rename_i isConst
      split at h
      · cases h
      · rename_i different
        obtain ⟨rfl, absent⟩ := ih h
        refine ⟨by rw [filter_cons_of_neg (by simpa using isConst)], ?_⟩
        rw [mem_cons, not_or]
        exact ⟨fun same => different same.symm, absent⟩

/-- A case after pruning has some of its patterns, or lost them all because one equals the
selector. -/
structure PrunedCase (v : Valuation) (signal : SigSpec) (before after : CaseRule) : Prop where
  same : after = { before with compare := after.compare }
  compare : after.compare.Sublist before.compare
  fewer : after.matches v signal = true → before.matches v signal = true

private theorem matches_of_mem (h : signal ∈ cs.compare) : cs.matches v signal = true := by
  have hit : cs.hits v signal = true := any_eq_true.mpr ⟨signal, h, patternMatches_self signal⟩
  simp [CaseRule.matches, hit]

section

variable {before after : CaseRule} (pruned : PrunedCase v signal before after)

include pruned

private theorem PrunedCase.exec (s : Assigned) : after.exec v s = before.exec v s := by
  rw [pruned.same, exec_compare]

private theorem PrunedCase.vanishes (covers : Covers step) (vanishes : Vanishes step after) :
    Vanishes step before := by
  refine .of_steps (.single (covers _ _ ?_)) vanishes
  rw [pruned.same]
  exact .prune before _

theorem PrunedCase.every {p : SwitchRule → Prop} (every : before.Every p) : after.Every p := by
  rw [CaseRule.every_iff] at every
  rw [pruned.same, CaseRule.every_iff]
  exact every

end

private theorem PrunedCase.refl (signal : SigSpec) (cs : CaseRule) : PrunedCase v signal cs cs :=
  ⟨by cases cs; rfl, List.Sublist.refl _, id⟩

private theorem PrunedCase.cleared (h : prunePatterns signal cs.compare = none) :
    PrunedCase v signal cs { cs with compare := [] } :=
  ⟨rfl, nil_sublist _, fun _ => matches_of_mem (prunePatterns_none h)⟩

private theorem hits_of_matches (some : cs.compare ≠ []) (h : cs.matches v signal = true) :
    ∃ pattern ∈ cs.compare, patternMatches v signal pattern = true := by
  rw [CaseRule.matches, isEmpty_eq_false_iff.mpr some, Bool.false_or] at h
  exact any_eq_true.mp h

theorem matches_of_pattern {pattern : SigSpec} (member : pattern ∈ cs.compare)
    (h : patternMatches v signal pattern = true) : cs.matches v signal = true := by
  have hit : cs.hits v signal = true := any_eq_true.mpr ⟨pattern, member, h⟩
  simp [CaseRule.matches, hit]

theorem PrunedCase.sublist {kept : List SigSpec} (sub : kept.Sublist cs.compare) (left : kept ≠ []) :
    PrunedCase v signal cs { cs with compare := kept } := by
  refine ⟨rfl, sub, fun found => ?_⟩
  obtain ⟨pattern, member, hit⟩ := hits_of_matches left found
  exact matches_of_pattern (sub.subset member) hit

private theorem sublistForall₂_mem {R : CaseRule → CaseRule → Prop} {l m : List CaseRule}
    (h : List.SublistForall₂ R l m) {a : CaseRule} (member : a ∈ l) : ∃ b ∈ m, R a b := by
  induction h with
  | nil => cases member
  | cons here _ ih =>
    rcases mem_cons.mp member with rfl | member
    · exact ⟨_, by simp, here⟩
    · obtain ⟨b, hb, r⟩ := ih member
      exact ⟨b, mem_cons_of_mem _ hb, r⟩
  | cons_right _ ih =>
    obtain ⟨b, hb, r⟩ := ih member
    exact ⟨b, mem_cons_of_mem _ hb, r⟩

section

variable (const : isFullyConst signal = true)

include const

private theorem pruneCases_pruned (i : Nat) (cases : List CaseRule) :
    List.SublistForall₂ (fun a b => PrunedCase v signal b a) (pruneCases signal i cases).1 cases := by
  induction cases generalizing i with
  | nil => exact .nil
  | cons cs rest ih =>
    simp only [pruneCases]
    split
    · generalize cs :: rest = l
      induction l with
      | nil => exact .nil
      | cons c l ihl => exact .cons (PrunedCase.refl signal c) ihl
    · split
      · rename_i found
        exact .cons (PrunedCase.cleared found) .nil
      · exact .cons_right (ih i)
      · rename_i kept nonempty some
        obtain ⟨rfl, -⟩ := prunePatterns_some const some
        exact .cons (PrunedCase.sublist filter_sublist (fun none => nonempty none)) (ih (i + 1))

private theorem pruneCases_idle (i : Nat) (idle : IdleCases v signal cases) :
    IdleCases v signal (pruneCases signal i cases).1 := by
  intro a member isOpen s
  obtain ⟨b, there, pruned⟩ := sublistForall₂_mem (pruneCases_pruned const i cases) member
  rw [pruned.exec, idle b there (pruned.fewer isOpen)]

/-- Pruning keeps what the cases do: the case that runs is found, or all that match idle. -/
private theorem pruneCases_secure (covers : Covers step) (i : Nat)
    (secure : Chosen (CaseRule.matches v signal) (Secure step v signal parallel) cases) :
    Chosen (CaseRule.matches v signal) (Secure step v signal parallel)
        (pruneCases signal i cases).1 ∧
      ∀ s, choose (CaseRule.matches v signal) (CaseRule.exec v) (pruneCases signal i cases).1 s =
        choose (CaseRule.matches v signal) (CaseRule.exec v) cases s := by
  induction cases generalizing i with
  | nil => exact ⟨True.intro, fun _ => rfl⟩
  | cons cs rest ih =>
    by_cases idle : IdleCases v signal (cs :: rest)
    · have after := pruneCases_idle const i idle
      refine ⟨.of_idle after Secure.of_idle, fun s => ?_⟩
      rw [choose_idle after, choose_idle idle]
    have recognized : cs.matches v signal = true → Recognized v signal cs := fun isOpen =>
      (((chosen_open isOpen).mp secure).found const).resolve_right idle
    have later : cs.matches v signal = false →
        Chosen (CaseRule.matches v signal) (Secure step v signal parallel) rest :=
      fun isClosed => (chosen_closed isClosed).mp secure
    simp only [pruneCases]
    split
    · exact ⟨secure, fun _ => rfl⟩
    rename_i had
    split
    · rename_i found
      have isOpen := matches_of_mem (v := v) (prunePatterns_none found)
      refine ⟨(chosen_open rfl).mpr ⟨fun _ => .inl (.inl rfl), ?_⟩, fun s => ?_⟩
      · exact fun _ _ _ member => absurd member not_mem_nil
      rw [choose_open rfl, choose_open isOpen, exec_compare]
    · rename_i gone
      obtain ⟨none, absent⟩ := prunePatterns_some const gone
      have isClosed : cs.matches v signal = false := by
        refine Bool.eq_false_iff.mpr fun isOpen => ?_
        rcases recognized isOpen with empty | equal | ⟨pattern, member, isWire, -⟩
        · exact had empty
        · exact absent equal
        · have : pattern ∈ ([] : List SigSpec) := none ▸ mem_filter.mpr ⟨member, by simp [isWire]⟩
          cases this
      obtain ⟨chosen, run⟩ := ih i (later isClosed)
      exact ⟨chosen, fun s => by rw [choose_closed isClosed, run]⟩
    · rename_i kept nonempty some
      obtain ⟨rfl, absent⟩ := prunePatterns_some const some
      have pruned : PrunedCase v signal cs _ :=
        PrunedCase.sublist filter_sublist (fun none => nonempty none)
      cases isOpen : cs.matches v signal with
      | true =>
        -- The pattern that matches is not constant, so it is left.
        obtain ⟨pattern, member, isWire, hit⟩ : ∃ pattern ∈ cs.compare,
            isFullyConst pattern = false ∧ patternMatches v signal pattern = true := by
          rcases recognized isOpen with empty | equal | other
          · exact absurd empty had
          · exact absurd equal absent
          · exact other
        have left : pattern ∈ cs.compare.filter (fun pattern => !isFullyConst pattern) :=
          mem_filter.mpr ⟨member, by simp [isWire]⟩
        have isOpen' : CaseRule.matches v signal { cs with
            compare := cs.compare.filter (fun pattern => !isFullyConst pattern) } = true :=
          matches_of_pattern left hit
        refine ⟨(chosen_open isOpen').mpr
          ⟨fun _ => .inl (.inr (.inr ⟨pattern, left, isWire, hit⟩)), fun isParallel vanishes => ?_⟩,
          fun s => ?_⟩
        · exact pruneCases_idle const (i + 1) (((chosen_open isOpen).mp secure).kept isParallel
            (pruned.vanishes covers vanishes))
        · rw [choose_open isOpen', choose_open isOpen, exec_compare]
      | false =>
        have isClosed' : CaseRule.matches v signal { cs with
            compare := cs.compare.filter (fun pattern => !isFullyConst pattern) } = false :=
          Bool.eq_false_iff.mpr fun isOpen' => by
            rw [pruned.fewer isOpen'] at isOpen
            cases isOpen
        obtain ⟨chosen, run⟩ := ih (i + 1) (later isOpen)
        exact ⟨(chosen_closed isClosed').mpr chosen, fun s => by
          rw [choose_closed isClosed', choose_closed isOpen, run]⟩

end

private theorem pruneCases_found (signal : SigSpec) (i : Nat) (cases : List CaseRule) :
    ∀ j, (pruneCases signal i cases).2 = some j →
      i ≤ j ∧ (j = i → ∃ cs, (pruneCases signal i cases).1 = [cs] ∧ cs.compare = []) := by
  induction cases generalizing i with
  | nil => intro j h; cases h
  | cons cs rest ih =>
    intro j
    simp only [pruneCases]
    split
    · intro h; cases h
    · split
      · intro h
        obtain rfl : i = j := Option.some.inj h
        exact ⟨le_refl _, fun _ => ⟨_, rfl, rfl⟩⟩
      · exact ih i j
      · intro h
        obtain ⟨le, -⟩ := ih (i + 1) j h
        exact ⟨by omega, fun same => absurd same (by omega)⟩

/-- A rewritten switch: still sound below, and it runs as before. -/
structure Keeps (step : CaseRule → CaseRule → Prop) (v : Valuation) (before after : SwitchRule) :
    Prop where
  every : after.Every (Sound step v)
  run : ∀ s, after.exec v s = before.exec v s

theorem pruneSwitch_keeps (covers : Covers step) {sw : SwitchRule} (sound : sw.Every (Sound step v)) :
    Keeps step v sw (pruneSwitch sw) := by
  obtain ⟨here, below⟩ := SwitchRule.every_iff.mp sound
  unfold pruneSwitch
  split
  · rename_i const
    have fully : isFullyConst sw.signal = true := (Bool.and_eq_true_iff.mp const).2
    have pruned := pruneCases_pruned (v := v) fully 0 sw.cases
    obtain ⟨secure, run⟩ := pruneCases_secure fully covers 0 here.secure
    have found := pruneCases_found sw.signal 0 sw.cases
    generalize pruneCases sw.signal 0 sw.cases = result at pruned secure run found ⊢
    have cases : ∀ cs ∈ result.1, cs.Every (Sound step v) := by
      intro cs member
      obtain ⟨o, there, case⟩ := sublistForall₂_mem pruned member
      exact case.every (below o there)
    dsimp only
    split
    · rename_i zero
      obtain ⟨-, single⟩ := found 0 zero
      obtain ⟨cs, only, none⟩ := single rfl
      have isOpen : ∀ signal, cs.matches v signal = true := by simp [CaseRule.matches, none]
      refine ⟨SwitchRule.every_iff.mpr ⟨⟨?_, ?_⟩, cases⟩, fun s => ?_⟩
      · simp [SwitchRule.Checked, only, none]
      · rw [only]
        exact (chosen_open (isOpen _)).mpr ⟨fun _ => .inl (.inl none), fun _ _ _ => nofun⟩
      · rw [SwitchRule.exec_eq, SwitchRule.exec_eq, ← run s, only]
        rw [choose_open (isOpen _), choose_open (isOpen _)]
    · refine ⟨SwitchRule.every_iff.mpr ⟨⟨fun cs member pattern inside => ?_, secure⟩, cases⟩,
        fun s => ?_⟩
      · obtain ⟨o, there, case⟩ := sublistForall₂_mem pruned member
        exact here.checked o there pattern (case.compare.subset inside)
      · rw [SwitchRule.exec_eq, SwitchRule.exec_eq]
        exact run s
  · exact ⟨sound, fun _ => rfl⟩

variable {visit : CaseRule → CaseRule × Progress} {visitSwitch : Bool → SwitchRule → Visit}
  {sw : SwitchRule}

private theorem soleCase?_run {cs : CaseRule} (checked : sw.Checked) (h : soleCase? sw = some cs)
    (s : Assigned) : cs.exec v s = sw.exec v s := by
  have single := soleCase?_cases h
  have isOpen : cs.matches v sw.signal = true := by
    have unconditional : sw.signal.length = 0 ∨ cs.compare = [] := by
      unfold soleCase? at h
      rw [single] at h
      dsimp only at h
      split at h
      · rename_i either
        simpa using either
      · cases h
    by_cases none : cs.compare = []
    · simp [CaseRule.matches, none]
    · obtain ⟨pattern, rest, row⟩ := exists_cons_of_ne_nil none
      have short : sw.signal.length = 0 := unconditional.resolve_right none
      have width := checked cs (by simp [single]) pattern (by simp [row])
      have empty : pattern = [] := length_eq_zero_iff.mp (width.symm.trans short)
      have same : sw.signal = pattern := by rw [length_eq_zero_iff.mp short, empty]
      exact matches_of_mem (by simp [row, same])
  rw [SwitchRule.exec_eq, single, choose_open isOpen]

private theorem removeEmpty_secure (sw : SwitchRule)
    (secure : Chosen (CaseRule.matches v sw.signal)
      (Secure step v sw.signal (sw.parallelCase && !sw.fullCase)) sw.cases) :
    Chosen (CaseRule.matches v sw.signal)
        (Secure step v sw.signal (sw.parallelCase && !sw.fullCase)) (removeEmpty sw).1.cases ∧
      ∀ s, choose (CaseRule.matches v sw.signal) (CaseRule.exec v) (removeEmpty sw).1.cases s =
        choose (CaseRule.matches v sw.signal) (CaseRule.exec v) sw.cases s := by
  unfold removeEmpty
  split
  · split
    · rename_i all
      refine ⟨True.intro, fun s => (choose_idle (fun cs member _ => ?_) s).symm⟩
      exact CaseRule.exec_empty v (all_eq_true.mp all cs member)
    · exact ⟨secure, fun _ => rfl⟩
  · rename_i notFull
    split
    · rename_i isParallel
      have dropped : ∀ cs rest, Secure step v sw.signal (sw.parallelCase && !sw.fullCase) cs rest →
          (!cs.empty) = false → IdleCases v sw.signal rest := fun cs rest secure empty =>
        secure.kept (by simp [isParallel, notFull]) (.of_empty (by simpa using empty))
      refine ⟨secure.filter (fun cs rest secure _ => secure.sublist filter_sublist) dropped
        Secure.of_idle, fun s => ?_⟩
      exact choose_filter (secure.mono dropped)
        (fun cs _ empty => CaseRule.exec_empty v (by simpa using empty)) s
    · have trailing := rdropWhile_append_rtakeWhile (p := CaseRule.empty) (l := sw.cases)
      refine ⟨Chosen.left (m := sw.cases.rtakeWhile CaseRule.empty) (by rwa [trailing])
        fun cs rest secure => secure.sublist (sublist_append_left _ _), fun s => ?_⟩
      have idle : IdleCases v sw.signal (sw.cases.rtakeWhile CaseRule.empty) :=
        fun cs member _ => CaseRule.exec_empty v (mem_rtakeWhile_imp member)
      rw [← choose_append_idle idle s, trailing]

theorem removeEmpty_keeps (sound : sw.Every (Sound step v)) : Keeps step v sw (removeEmpty sw).1 := by
  obtain ⟨here, below⟩ := SwitchRule.every_iff.mp sound
  have fields : (removeEmpty sw).1 = { sw with cases := (removeEmpty sw).1.cases } := by
    cases sw
    unfold removeEmpty
    split
    · split <;> rfl
    · split <;> rfl
  have sub := (removeEmpty_cases sw).1
  obtain ⟨secure, run⟩ := removeEmpty_secure sw here.secure
  rw [fields]
  refine ⟨SwitchRule.every_iff.mpr ⟨⟨fun cs member => ?_, secure⟩, fun cs member => ?_⟩, fun s => ?_⟩
  · exact here.checked cs (sub.subset member)
  · exact below cs (sub.subset member)
  · rw [SwitchRule.exec_eq, SwitchRule.exec_eq]
    exact run s

/-- A rewritten case: the patterns are its own, it is sound below and it runs as before. -/
structure Rewritten (step : CaseRule → CaseRule → Prop) (v : Valuation) (before after : CaseRule) :
    Prop where
  compare : after.compare = before.compare
  every : after.Every (Sound step v)
  run : ∀ s, after.exec v s = before.exec v s
  steps : Relation.ReflTransGen step before after

private theorem Rewritten.refl (sound : cs.Every (Sound step v)) : Rewritten step v cs cs :=
  ⟨rfl, sound, fun _ => rfl, .refl⟩

private theorem Rewritten.trans {a b c : CaseRule} (first : Rewritten step v a b)
    (second : Rewritten step v b c) : Rewritten step v a c where
  compare := second.compare.trans first.compare
  every := second.every
  run s := (second.run s).trans (first.run s)
  steps := first.steps.trans second.steps

theorem Rewritten.matches_eq {before after : CaseRule} (rewritten : Rewritten step v before after)
    (signal : SigSpec) : after.matches v signal = before.matches v signal := by
  simp only [CaseRule.matches, CaseRule.hits, rewritten.compare]

section

variable {before after : List CaseRule} (rewritten : List.Forall₂ (Rewritten step v) before after)

include rewritten

private theorem rewritten_idle (idle : IdleCases v signal before) : IdleCases v signal after := by
  induction rewritten with
  | nil => exact idle
  | cons head _ ih =>
    intro c member isOpen s
    rcases mem_cons.mp member with rfl | member
    · rw [head.run, idle _ (by simp) (head.matches_eq signal ▸ isOpen)]
    · exact ih idle.tail c member isOpen s

private theorem rewritten_secure
    (secure : Chosen (CaseRule.matches v signal) (Secure step v signal parallel) before) :
    Chosen (CaseRule.matches v signal) (Secure step v signal parallel) after := by
  induction rewritten with
  | nil => exact secure
  | @cons c c' _ _ head tail ih =>
    have same := head.matches_eq signal
    cases isOpen : c.matches v signal with
    | true =>
      have here := (chosen_open isOpen).mp secure
      refine (chosen_open (same.trans isOpen)).mpr ⟨fun const => ?_, fun isParallel vanishes => ?_⟩
      · refine (here.found const).imp (fun found => ?_) (rewritten_idle (.cons head tail))
        rwa [Recognized, head.compare]
      · exact rewritten_idle tail (here.kept isParallel (vanishes.of_steps head.steps))
    | false =>
      exact (chosen_closed (same.trans isOpen)).mpr (ih ((chosen_closed isOpen).mp secure))

private theorem rewritten_run (signal : SigSpec) (s : Assigned) :
    choose (CaseRule.matches v signal) (CaseRule.exec v) after s =
      choose (CaseRule.matches v signal) (CaseRule.exec v) before s := by
  induction rewritten with
  | nil => rfl
  | cons head _ ih => rw [choose, choose, head.matches_eq, head.run, ih]

/-- A switch whose cases are rewritten. -/
theorem rewritten_keeps {sw : SwitchRule} (sound : Sound step v sw) (cases : sw.cases = before) :
    Keeps step v sw { sw with cases := after } := by
  subst cases
  have origin : ∀ c' ∈ after, ∃ c ∈ sw.cases, Rewritten step v c c' := fun c' member =>
    sublistForall₂_mem (sublistForall₂_iff.mpr ⟨_, rewritten.flip, List.Sublist.refl _⟩) member
  refine ⟨SwitchRule.every_iff.mpr ⟨⟨fun c' member => ?_, rewritten_secure rewritten sound.secure⟩,
    fun c' member => ?_⟩, fun s => ?_⟩
  · obtain ⟨c, there, one⟩ := origin c' member
    rw [one.compare]
    exact sound.checked c there
  · obtain ⟨c, -, one⟩ := origin c' member
    exact one.every
  · rw [SwitchRule.exec_eq, SwitchRule.exec_eq]
    exact rewritten_run rewritten sw.signal s

end

def KeepsCases (step : CaseRule → CaseRule → Prop) (v : Valuation)
    (visit : CaseRule → CaseRule × Progress) : Prop :=
  ∀ cs, cs.Every (Sound step v) → Rewritten step v cs (visit cs).1

private theorem cleanCases_rewritten (keeps : KeepsCases step v visit)
    (sound : ∀ cs ∈ cases, cs.Every (Sound step v)) :
    List.Forall₂ (Rewritten step v) cases (cleanCases visit cases).1 := by
  induction cases with
  | nil => exact .nil
  | cons cs rest ih =>
    exact .cons (keeps cs (sound cs (by simp))) (ih fun c member => sound c (by simp [member]))

/-- All that a visit of a switch does: the switch is rewritten, or its only case moves out of it
and what is left of the switch does nothing. -/
structure Visits (step : CaseRule → CaseRule → Prop) (v : Valuation) (front : Bool) (sw : SwitchRule)
    (result : Visit) : Prop where
  every : result.sw.Every (Sound step v)
  stays : result.moved = none → ∀ s, result.sw.exec v s = sw.exec v s
  moves : ∀ cs, result.moved = some cs → front = true ∧ result.sw.empty = true ∧
    cs.Every (Sound step v) ∧ ∀ s, cs.exec v s = sw.exec v s

theorem procCleanSwitch_visits (covers : Covers step) (keeps : KeepsCases step v visit) (front : Bool)
    (sound : sw.Every (Sound step v)) : Visits step v front sw (procCleanSwitch visit front sw) := by
  have pruned := pruneSwitch_keeps covers sound
  unfold procCleanSwitch
  dsimp only
  generalize pruneSwitch sw = sw' at pruned
  obtain ⟨here, below⟩ := SwitchRule.every_iff.mp pruned.every
  split
  · rename_i cs sole
    obtain ⟨atFront, sole⟩ : front = true ∧ soleCase? sw' = some cs := by
      cases front with
      | true => exact ⟨rfl, sole⟩
      | false => cases sole
    have single := soleCase?_cases sole
    refine ⟨?_, fun h => (by cases h), ?_⟩
    · exact SwitchRule.every_iff.mpr ⟨⟨by simp [SwitchRule.Checked], True.intro⟩, by simp⟩
    · intro c moved
      obtain rfl : cs = c := Option.some.inj moved
      refine ⟨atFront, rfl, below cs (by simp [single]), fun s => ?_⟩
      rw [soleCase?_run here.checked sole, pruned.run]
  · have inner := rewritten_keeps (cleanCases_rewritten keeps below) here rfl
    have kept := removeEmpty_keeps inner.every
    refine ⟨kept.every, fun _ s => ?_, fun cs h => (by cases h)⟩
    rw [kept.run, inner.run, pruned.run]

/-- What the loops over the switches of a case rely on. -/
def VisitsAll (step : CaseRule → CaseRule → Prop) (v : Valuation)
    (visit : Bool → SwitchRule → Visit) : Prop :=
  ∀ front sw, sw.Every (Sound step v) → Visits step v front sw (visit front sw)

variable {switches : List SwitchRule}

private theorem cleanLater_keeps (visits : VisitsAll step v visitSwitch)
    (sound : ∀ sw ∈ switches, sw.Every (Sound step v)) :
    (∀ sw ∈ (cleanLater visitSwitch switches).1, sw.Every (Sound step v)) ∧
      ∀ s, execSwitches v (cleanLater visitSwitch switches).1 s = execSwitches v switches s := by
  induction switches with
  | nil => simp [cleanLater]
  | cons sw rest ih =>
    obtain ⟨everys, runs⟩ := ih (fun sw member => sound sw (by simp [member]))
    simp only [cleanLater]
    split
    · rename_i empty
      refine ⟨everys, fun s => ?_⟩
      rw [execSwitches_cons, SwitchRule.exec_empty v empty, runs]
    · have here := visits false sw (sound sw (by simp))
      have stays : (visitSwitch false sw).moved = none := by
        cases moved : (visitSwitch false sw).moved with
        | none => rfl
        | some cs => exact absurd (here.moves cs moved).1 (by simp)
      refine ⟨?_, fun s => ?_⟩
      · exact forall_mem_cons.mpr ⟨here.every, everys⟩
      · rw [execSwitches_cons, execSwitches_cons, here.stays stays, runs]

private theorem execSwitches_head_tail (l : List SwitchRule) (s : Assigned) :
    execSwitches v l s = execSwitches v l.tail (execSwitches v l.head?.toList s) := by
  cases l <;> simp

private theorem cleanFirst_keeps (visits : VisitsAll step v visitSwitch)
    (sound : ∀ sw ∈ switches, sw.Every (Sound step v)) :
    (∀ sw ∈ (cleanFirst visitSwitch switches).1.2, sw.Every (Sound step v)) ∧
      ∀ s, execSwitches v (cleanFirst visitSwitch switches).1.2
          ((cleanFirst visitSwitch switches).1.1.foldl (Action.assign v) s) =
        execSwitches v switches s := by
  induction switches with
  | nil => simp [cleanFirst]
  | cons sw rest ih =>
    have behind : ∀ sw ∈ rest, sw.Every (Sound step v) := fun sw member => sound sw (by simp [member])
    simp only [cleanFirst]
    split
    · rename_i empty
      obtain ⟨everys, runs⟩ := ih behind
      refine ⟨everys, fun s => ?_⟩
      rw [execSwitches_cons, SwitchRule.exec_empty v empty, runs]
    · have here := visits true sw (sound sw (by simp))
      split
      · rename_i stays
        obtain ⟨everys, runs⟩ := cleanLater_keeps visits behind
        refine ⟨?_, fun s => ?_⟩
        · exact forall_mem_cons.mpr ⟨here.every, everys⟩
        · rw [execSwitches_cons, execSwitches_cons, foldl_nil, here.stays stays, runs]
      · rename_i cs moved
        obtain ⟨-, empty, every, run⟩ := here.moves cs moved
        have whole : ∀ sw' ∈ cs.switches ++ (visitSwitch true sw).sw :: rest,
            sw'.Every (Sound step v) := by
          intro sw' member
          simp only [mem_append, mem_cons] at member
          rcases member with member | rfl | member
          · exact CaseRule.every_iff.mp every sw' member
          · exact here.every
          · exact behind sw' member
        obtain ⟨everys, runs⟩ := cleanLater_keeps visits
          (fun sw' member => whole sw' (mem_of_mem_tail member))
        refine ⟨?_, fun s => ?_⟩
        · intro c member
          rcases mem_append.mp member with member | member
          · exact whole c (mem_of_mem_head? (Option.mem_toList.mp member))
          · exact everys c member
        · rw [execSwitches_append, runs, ← execSwitches_head_tail, execSwitches_append,
            execSwitches_cons, execSwitches_cons, SwitchRule.exec_empty v empty,
            ← CaseRule.exec_eq, run]

private theorem assign_filter (actions : List Action) (s : Assigned) :
    (actions.filter (fun a => !a.lhs.isEmpty)).foldl (Action.assign v) s =
      actions.foldl (Action.assign v) s := by
  induction actions generalizing s with
  | nil => rfl
  | cons a rest ih =>
    cases empty : a.lhs.isEmpty with
    | false => rw [filter_cons_of_pos (by simp [empty]), foldl_cons, foldl_cons, ih]
    | true =>
      have nothing : a.assign v s = s := by
        simp [Action.assign, Action.pairs, isEmpty_iff.mp empty]
      rw [filter_cons_of_neg (by simp [empty]), foldl_cons, nothing, ih]

theorem cleanCase_keeps (visits : VisitsAll step v visitSwitch) (sound : cs.Every (Sound step v))
    (steps : Relation.ReflTransGen step cs (cleanCase visitSwitch cs).1) :
    Rewritten step v cs (cleanCase visitSwitch cs).1 := by
  obtain ⟨everys, runs⟩ := cleanFirst_keeps visits (CaseRule.every_iff.mp sound)
  refine ⟨rfl, CaseRule.every_iff.mpr everys, fun s => ?_, steps⟩
  rw [cleanCase_eq, CaseRule.exec_eq, CaseRule.exec_eq]
  rw [foldl_append, assign_filter, runs]

section

variable (covers : Covers step)

include covers

theorem procCleanCase_keeps (maxDepth : Nat) : KeepsCases step v (procCleanCase maxDepth) := by
  have steps : ∀ maxDepth cs, Relation.ReflTransGen step cs (procCleanCase maxDepth cs).1 :=
    fun maxDepth cs => .single (covers _ _ (.clean cs maxDepth))
  induction maxDepth using Nat.twoStepInduction with
  | zero =>
    exact fun cs sound =>
      cleanCase_keeps (fun front sw sound => ⟨sound, fun _ _ => rfl, nofun⟩) sound (steps 0 cs)
  | one =>
    exact fun cs sound => cleanCase_keeps (fun front sw sound =>
      procCleanSwitch_visits covers (fun cs sound => .refl sound) front sound) sound (steps 1 cs)
  | more maxDepth ih _ =>
    exact fun cs sound => cleanCase_keeps (fun front sw sound =>
      procCleanSwitch_visits covers ih front sound) sound (steps (maxDepth + 2) cs)

theorem cleanLoop_keeps {limit : CaseRule → Nat} {fuel : Nat} {cs : CaseRule} {result : CaseRule × Nat}
    (sound : cs.Every (Sound step v)) (ends : cleanLoop limit fuel cs = some result) :
    Rewritten step v cs result.1 := by
  induction fuel generalizing cs result with
  | zero => cases ends
  | succ fuel ih =>
    have round := procCleanCase_keeps covers (limit cs) cs sound
    simp only [cleanLoop] at ends
    split at ends
    · obtain ⟨rest, loop, rfl⟩ := Option.map_eq_some_iff.mp ends
      have later := ih round.every loop
      exact round.trans later
    · obtain rfl := Option.some.inj ends
      exact round

end

/-- The triggered rules that are left are those that were triggered, stripped, and without those
that do nothing. -/
theorem cleanSyncs_keeps (fires : SyncType → SigSpec → Bool) (syncs : List SyncRule) (s : Assigned) :
    execSyncs v fires (cleanSyncs syncs) s = execSyncs v fires syncs s := by
  unfold execSyncs
  dsimp only
  rw [cleanSyncs, filter_comm, filter_map, flatMap_filter_of_nil (g := SyncRule.actions),
    flatMap_filter_of_nil (g := SyncRule.memWriteActions),
    flatMap_map, flatMap_map]
  · rw [← List.filter_flatMap, assign_filter]
    rfl
  · intro sync _ dropped
    simp only [Bool.not_eq_false', Bool.and_eq_true, List.isEmpty_iff] at dropped
    exact dropped.2
  · intro sync _ dropped
    simp only [Bool.not_eq_false', Bool.and_eq_true, List.isEmpty_iff] at dropped
    exact dropped.1

private theorem procClean_mono {fuel more : Nat} {proc : Process} {result : Process × Nat}
    (ends : procClean fuel proc = some result) (le : fuel ≤ more) :
    procClean more proc = some result := by
  obtain ⟨r, loop, rfl⟩ := Option.map_eq_some_iff.mp ends
  rw [procClean, cleanLoop_mono loop le, Option.map_some]

/-- The clean-up does not misjudge the switch. If its selector is constant, the case that runs is
recognized. If it is parallel but not full and the case that runs is or becomes empty, no case behind
it that matches, such as a default, assigns anything. -/
def Clean (step : CaseRule → CaseRule → Prop) (v : Valuation) (sw : SwitchRule) : Prop :=
  Chosen (CaseRule.matches v sw.signal) (fun cs rest =>
    (isFullyConst sw.signal = true → Recognized v sw.signal cs) ∧
    (sw.parallelCase = true → sw.fullCase = false → Vanishes step cs →
      IdleCases v sw.signal rest)) sw.cases

theorem Clean.sound (clean : Clean step v sw) (checked : sw.Checked) : Sound step v sw where
  checked := checked
  secure := clean.mono fun cs rest h => ⟨fun const => .inl (h.1 const), fun both vanishes => by
    obtain ⟨isParallel, notFull⟩ := Bool.and_eq_true_iff.mp both
    exact h.2 isParallel (by simpa using notFull) vanishes⟩

/-- A case that vanishes assigns nothing, unless the clean-up misjudges a switch in it. -/
theorem Vanishes.idle (vanishes : Vanishes CleanStep cs) (sound : cs.Every (Sound CleanStep v))
    (s : Assigned) : cs.exec v s = s := by
  obtain ⟨result, steps, empty⟩ := vanishes
  induction steps using Relation.ReflTransGen.head_induction_on with
  | refl => exact CaseRule.exec_empty v empty s
  | head one _ ih =>
    cases one with
    | prune compare =>
      rw [CaseRule.every_iff] at sound
      rw [← exec_compare _ compare, ih (CaseRule.every_iff.mpr sound)]
    | clean maxDepth =>
      have round := procCleanCase_keeps (fun _ _ h => h) maxDepth _ sound
      rw [← round.run, ih round.every]

def selWire : Wire := { name := "sel", width := 1 }

def outWire : Wire := { name := "out", width := 1 }

def outBit : SigBit := .wire outWire ⟨0, by decide⟩

def assignOut (data : State) : Action := ⟨[outBit], [.const data], rfl⟩

/-- A constant selector `2'b10`, the pattern `2'b1?` and a default. -/
def wildcardProcess : Process where
  name := "wildcard"
  rootCase :=
    { switches := [
        { signal := [.const .S0, .const .S1]
          cases := [
            { compare := [[.const .Sa, .const .S1]], actions := [assignOut .S1] },
            { actions := [assignOut .S0] }] }] }

/-- An empty case before a default, in a switch marked as parallel. -/
def parallelProcess : Process where
  name := "parallel"
  rootCase :=
    { switches := [
        { signal := [.wire selWire ⟨0, by decide⟩]
          parallelCase := true
          cases := [{ compare := [[.const .S0]] }, { actions := [assignOut .S1] }] }] }

def zeros : Valuation := fun w => 0#(w.width)

/-- The selector `2'b10` with the same pattern before a wildcard, and a parallel switch with a default
whose other case assigns something. -/
def decidedProcess : Process where
  name := "decided"
  rootCase :=
    { switches := [
        { signal := [.const .S0, .const .S1]
          cases := [
            { compare := [[.const .S0, .const .S1]], actions := [assignOut .S1] },
            { compare := [[.const .Sa, .const .S1]], actions := [assignOut .S0] }] },
        { signal := [.wire selWire ⟨0, by decide⟩]
          parallelCase := true
          cases := [
            { compare := [[.const .S0]], actions := [assignOut .S0] },
            { actions := [assignOut .S1] }] }] }

private theorem assignOut_stays {compare : List SigSpec} {data : State} :
    ¬ Vanishes CleanStep { compare := compare, actions := [assignOut data] } := by
  intro vanishes
  have idle := congrFun (vanishes.idle (v := zeros) (CaseRule.every_iff.mpr (by simp))
    (fun _ => none)) outBit
  rw [CaseRule.exec_eq, execSwitches_nil] at idle
  simp [assignOut, Action.assign, Action.pairs, assignBit, outBit, SigBit.isWire] at idle

end ManticoreFrontend.Passes.ProcCleanRuns
