/- source: passes/proc/proc_clean.cc
   digest: Every round of the clean-up that reports progress leaves a smaller tree, so its loop ends. -/

import ManticoreFrontend.Passes.ProcClean

namespace ManticoreFrontend.Passes.ProcCleanSize

open Kernel Signals Processes ProcClean List

variable {visit : CaseRule → CaseRule × Progress} {visitSwitch : Bool → SwitchRule → Visit}

@[simp] theorem and_didSomething (p q : Progress) :
    (p.and q).didSomething = (p.didSomething || q.didSomething) := rfl

private theorem toNat_or_le (a b : Bool) : (a || b).toNat ≤ a.toNat + b.toNat := by
  cases a <;> cases b <;> decide

private theorem pruneCases_size (signal : SigSpec) (i : Nat) (cases : List CaseRule) :
    caseSizes (pruneCases signal i cases).1 ≤ caseSizes cases := by
  induction cases generalizing i with
  | nil => simp [pruneCases]
  | cons cs rest ih =>
    simp only [pruneCases]
    split
    · exact le_refl _
    · have same : ∀ compare, ({ cs with compare := compare } : CaseRule).size = cs.size :=
        fun compare => by rw [CaseRule.size_eq, CaseRule.size_eq]
      split
      · simp only [caseSizes_cons, caseSizes_nil, same]
        omega
      · have := ih i
        simp only [caseSizes_cons]
        omega
      · have := ih (i + 1)
        simp only [caseSizes_cons, same]
        omega

private theorem pruneSwitch_size (sw : SwitchRule) : (pruneSwitch sw).size ≤ sw.size := by
  have smaller := pruneCases_size sw.signal 0 sw.cases
  unfold pruneSwitch
  split
  · rw [SwitchRule.size_eq, SwitchRule.size_eq sw]
    simpa using smaller
  · exact le_refl _

variable {cs : CaseRule}

theorem soleCase?_cases {sw : SwitchRule} (h : soleCase? sw = some cs) : sw.cases = [cs] := by
  unfold soleCase? at h
  split at h
  · rename_i only single
    split at h
    · rw [single, Option.some.inj h]
    · cases h
  · cases h

theorem caseSizes_sublist {l m : List CaseRule} (h : l.Sublist m) : caseSizes l ≤ caseSizes m := by
  induction h with
  | slnil => exact le_refl _
  | cons cs _ ih => rw [caseSizes_cons]; omega
  | cons_cons cs _ ih => rw [caseSizes_cons, caseSizes_cons]; omega

private theorem caseSizes_sublist_lt {l m : List CaseRule} (h : l.Sublist m) (ne : l ≠ m) :
    caseSizes l < caseSizes m := by
  induction h with
  | slnil => exact absurd rfl ne
  | cons cs sub _ =>
    have := caseSizes_sublist sub
    rw [caseSizes_cons]
    omega
  | @cons_cons l m cs _ ih =>
    have := ih (fun same => ne (same ▸ rfl))
    rw [caseSizes_cons, caseSizes_cons]
    omega

theorem removeEmpty_cases (sw : SwitchRule) :
    (removeEmpty sw).1.cases.Sublist sw.cases ∧
      ((removeEmpty sw).2.didSomething = true → (removeEmpty sw).1.cases ≠ sw.cases) := by
  unfold removeEmpty
  split
  · split
    · exact ⟨nil_sublist _, by simp⟩
    · exact ⟨List.Sublist.refl _, by simp⟩
  · split
    · refine ⟨filter_sublist, fun some same => ?_⟩
      obtain ⟨cs, member, empty⟩ := any_eq_true.mp some
      have kept := filter_eq_self.mp same cs member
      simp [empty] at kept
    · refine ⟨( rdropWhile_prefix _ _).sublist, fun last same => ?_⟩
      obtain ⟨cs, isLast, empty⟩ : ∃ cs, sw.cases.getLast? = some cs ∧ cs.empty = true := by
        cases h : sw.cases.getLast? with
        | none => simp [h] at last
        | some cs => exact ⟨cs, rfl, by simpa [h] using last⟩
      have some : sw.cases ≠ [] := by
        intro none
        simp [none] at isLast
      have notEmpty := rdropWhile_eq_self_iff.mp same some
      rw [getLast?_eq_some_getLast some] at isLast
      rw [Option.some.inj isLast] at notEmpty
      exact notEmpty empty

private theorem removeEmpty_size (sw : SwitchRule) :
    (removeEmpty sw).1.size + (removeEmpty sw).2.didSomething.toNat ≤ sw.size := by
  obtain ⟨sub, fewer⟩ := removeEmpty_cases sw
  rw [SwitchRule.size_eq, SwitchRule.size_eq sw]
  cases did : (removeEmpty sw).2.didSomething with
  | false =>
    have := caseSizes_sublist sub
    simpa using this
  | true =>
    have := caseSizes_sublist_lt sub (fewer did)
    show 1 + caseSizes (removeEmpty sw).1.cases + 1 ≤ 1 + caseSizes sw.cases
    omega

section

variable (shrinks : ∀ cs, (visit cs).1.size + (visit cs).2.didSomething.toNat ≤ cs.size)

include shrinks

private theorem cleanCases_size (cases : List CaseRule) :
    caseSizes (cleanCases visit cases).1 + (cleanCases visit cases).2.didSomething.toNat ≤
      caseSizes cases := by
  induction cases with
  | nil => simp [cleanCases]
  | cons cs rest ih =>
    have here := shrinks cs
    have both := toNat_or_le (visit cs).2.didSomething (cleanCases visit rest).2.didSomething
    simp only [cleanCases, caseSizes_cons, and_didSomething]
    omega

private theorem procCleanSwitch_size (front : Bool) (sw : SwitchRule) :
    (procCleanSwitch visit front sw).sw.size +
        ((procCleanSwitch visit front sw).moved.elim 0 CaseRule.size) +
        (procCleanSwitch visit front sw).progress.didSomething.toNat ≤ sw.size := by
  have pruned := pruneSwitch_size sw
  unfold procCleanSwitch
  dsimp only
  generalize pruneSwitch sw = sw' at pruned
  split
  · rename_i cs sole
    have single : sw'.cases = [cs] := by
      cases front with
      | true => exact soleCase?_cases sole
      | false => cases sole
    rw [SwitchRule.size_eq, single] at pruned
    simp only [SwitchRule.size_eq, caseSizes_nil, caseSizes_cons, Option.elim_some, Bool.toNat_true]
      at pruned ⊢
    omega
  · have inner := cleanCases_size shrinks sw'.cases
    have here := removeEmpty_size { sw' with cases := (cleanCases visit sw'.cases).1 }
    have both := toNat_or_le (cleanCases visit sw'.cases).2.didSomething
      (removeEmpty { sw' with cases := (cleanCases visit sw'.cases).1 }).2.didSomething
    rw [SwitchRule.size_eq { sw' with cases := (cleanCases visit sw'.cases).1 }] at here
    rw [SwitchRule.size_eq sw'] at pruned
    simp only [Option.elim_none, and_didSomething] at here both ⊢
    omega

end

def Shrinks (visit : Bool → SwitchRule → Visit) : Prop :=
  ∀ front sw, (visit front sw).sw.size + ((visit front sw).moved.elim 0 CaseRule.size) +
    (visit front sw).progress.didSomething.toNat ≤ sw.size

private theorem cleanLater_size (shrinks : Shrinks visitSwitch) (switches : List SwitchRule) :
    switchSizes (cleanLater visitSwitch switches).1 +
      (cleanLater visitSwitch switches).2.didSomething.toNat ≤ switchSizes switches := by
  induction switches with
  | nil => simp [cleanLater]
  | cons sw rest ih =>
    simp only [cleanLater]
    split
    · have one : 1 ≤ sw.size := by rw [SwitchRule.size_eq]; omega
      simp only [and_didSomething, Bool.true_or, Bool.toNat_true, switchSizes_cons]
      omega
    · have here := shrinks false sw
      have both := toNat_or_le (visitSwitch false sw).progress.didSomething
        (cleanLater visitSwitch rest).2.didSomething
      simp only [and_didSomething, switchSizes_cons]
      omega

private theorem head_tail_size (l : List SwitchRule) :
    switchSizes l.head?.toList + switchSizes l.tail = switchSizes l := by
  cases l <;> simp

private theorem cleanFirst_size (shrinks : Shrinks visitSwitch) (switches : List SwitchRule) :
    (cleanFirst visitSwitch switches).1.1.length +
        switchSizes (cleanFirst visitSwitch switches).1.2 +
        (cleanFirst visitSwitch switches).2.didSomething.toNat ≤ switchSizes switches := by
  induction switches with
  | nil => simp [cleanFirst]
  | cons sw rest ih =>
    simp only [cleanFirst]
    split
    · have one : 1 ≤ sw.size := by rw [SwitchRule.size_eq]; omega
      simp only [and_didSomething, Bool.true_or, Bool.toNat_true, switchSizes_cons]
      omega
    · have here := shrinks true sw
      split
      · rename_i moved
        have behind := cleanLater_size shrinks rest
        have both := toNat_or_le (visitSwitch true sw).progress.didSomething
          (cleanLater visitSwitch rest).2.didSomething
        simp only [moved, Option.elim_none, and_didSomething, switchSizes_cons,
          length_nil] at here ⊢
        omega
      · rename_i cs moved
        have behind := cleanLater_size shrinks (cs.switches ++ (visitSwitch true sw).sw :: rest).tail
        have whole := head_tail_size (cs.switches ++ (visitSwitch true sw).sw :: rest)
        have both := toNat_or_le (visitSwitch true sw).progress.didSomething
          (cleanLater visitSwitch (cs.switches ++ (visitSwitch true sw).sw :: rest).tail).2.didSomething
        rw [switchSizes_append cs.switches, switchSizes_cons] at whole
        rw [moved, Option.elim_some, CaseRule.size_eq] at here
        simp only [and_didSomething, switchSizes_cons, switchSizes_append]
        omega

theorem cleanCase_eq (cs : CaseRule) :
    cleanCase visitSwitch cs =
      ({ cs with
          actions := cs.actions.filter (fun a => !a.lhs.isEmpty) ++ (cleanFirst visitSwitch cs.switches).1.1
          switches := (cleanFirst visitSwitch cs.switches).1.2 },
        Progress.and ⟨cs.actions.any (fun a => a.lhs.isEmpty), 0⟩
          (cleanFirst visitSwitch cs.switches).2) := rfl

private theorem cleanCase_size (shrinks : Shrinks visitSwitch) (cs : CaseRule) :
    (cleanCase visitSwitch cs).1.size + (cleanCase visitSwitch cs).2.didSomething.toNat ≤ cs.size := by
  have inner := cleanFirst_size shrinks cs.switches
  have both := toNat_or_le (cs.actions.any (fun a => a.lhs.isEmpty))
    (cleanFirst visitSwitch cs.switches).2.didSomething
  have actions : (cs.actions.filter (fun a => !a.lhs.isEmpty)).length +
      (cs.actions.any (fun a => a.lhs.isEmpty)).toNat ≤ cs.actions.length := by
    cases some : cs.actions.any (fun a => a.lhs.isEmpty) with
    | false => simpa using length_filter_le _ _
    | true =>
      obtain ⟨a, member, empty⟩ := any_eq_true.mp some
      have fewer : (cs.actions.filter (fun a => !a.lhs.isEmpty)).length < cs.actions.length :=
        length_filter_lt_length_iff_exists.mpr ⟨a, member, by simpa using empty⟩
      rw [Bool.toNat_true]
      omega
  rw [cleanCase_eq, CaseRule.size_eq, CaseRule.size_eq cs]
  simp only [and_didSomething, length_append]
  omega

private theorem procCleanCase_size (maxDepth : Nat) (cs : CaseRule) :
    (procCleanCase maxDepth cs).1.size + (procCleanCase maxDepth cs).2.didSomething.toNat ≤
      cs.size := by
  induction maxDepth using Nat.twoStepInduction generalizing cs with
  | zero => exact cleanCase_size (fun front sw => by simp) cs
  | one => exact cleanCase_size (procCleanSwitch_size (fun cs => by simp)) cs
  | more maxDepth ih _ => exact cleanCase_size (procCleanSwitch_size ih) cs

theorem cleanLoop_ends (limit : CaseRule → Nat) (fuel : Nat) (cs : CaseRule)
    (enough : cs.size < fuel) : ∃ result, cleanLoop limit fuel cs = some result := by
  induction fuel generalizing cs with
  | zero => omega
  | succ fuel ih =>
    have smaller := procCleanCase_size (limit cs) cs
    simp only [cleanLoop]
    split
    · rename_i did
      rw [did, Bool.toNat_true] at smaller
      obtain ⟨result, ends⟩ := ih (procCleanCase (limit cs) cs).1 (by omega)
      exact ⟨_, by rw [ends]; rfl⟩
    · exact ⟨_, rfl⟩

theorem cleanLoop_size {limit : CaseRule → Nat} {fuel : Nat} {result : CaseRule × Nat}
    (ends : cleanLoop limit fuel cs = some result) :
    result.1.size + (procCleanCase (limit cs) cs).2.didSomething.toNat ≤ cs.size := by
  induction fuel generalizing cs result with
  | zero => cases ends
  | succ fuel ih =>
    have round := procCleanCase_size (limit cs) cs
    simp only [cleanLoop] at ends
    split at ends
    · obtain ⟨rest, loop, rfl⟩ := Option.map_eq_some_iff.mp ends
      have later := ih loop
      simp only
      omega
    · obtain rfl := Option.some.inj ends
      exact round

theorem cleanLoop_mono {limit : CaseRule → Nat} {fuel : Nat} {result : CaseRule × Nat}
    (ends : cleanLoop limit fuel cs = some result) {more : Nat} (le : fuel ≤ more) :
    cleanLoop limit more cs = some result := by
  induction fuel generalizing cs result more with
  | zero => cases ends
  | succ fuel ih =>
    obtain ⟨more, rfl⟩ : ∃ n, more = n + 1 := ⟨more - 1, by omega⟩
    simp only [cleanLoop] at ends ⊢
    split at ends
    · rename_i did
      obtain ⟨rest, loop, rfl⟩ := Option.map_eq_some_iff.mp ends
      rw [if_pos did, ih loop (by omega), Option.map_some]
    · rename_i did
      rw [if_neg did, ends]

variable {visit visit' : CaseRule → CaseRule × Progress}
  {visitSwitch visitSwitch' : Bool → SwitchRule → Visit}

theorem cleanCases_congr {cases : List CaseRule} (same : ∀ cs ∈ cases, visit cs = visit' cs) :
    cleanCases visit cases = cleanCases visit' cases := by
  induction cases with
  | nil => rfl
  | cons cs rest ih =>
    simp only [cleanCases, same cs (by simp), ih (fun c member => same c (by simp [member]))]

private theorem procCleanSwitch_congr {sw : SwitchRule}
    (same : ∀ cs : CaseRule, cs.size + 2 ≤ sw.size → visit cs = visit' cs) (front : Bool) :
    procCleanSwitch visit front sw = procCleanSwitch visit' front sw := by
  have smaller := pruneSwitch_size sw
  have cases : cleanCases visit (pruneSwitch sw).cases = cleanCases visit' (pruneSwitch sw).cases := by
    refine cleanCases_congr fun cs member => same cs ?_
    have := size_of_mem_cases member
    rw [SwitchRule.size_eq (pruneSwitch sw)] at smaller
    omega
  unfold procCleanSwitch
  simp only [cases]

variable {switches : List SwitchRule}

private theorem cleanLater_congr
    (same : ∀ front, ∀ sw ∈ switches, visitSwitch front sw = visitSwitch' front sw) :
    cleanLater visitSwitch switches = cleanLater visitSwitch' switches := by
  induction switches with
  | nil => rfl
  | cons sw rest ih =>
    have behind := ih (fun front c member => same front c (by simp [member]))
    simp only [cleanLater, behind, same false sw (by simp)]

private theorem cleanFirst_congr (shrinks : Shrinks visitSwitch) {n : Nat}
    (small : switchSizes switches ≤ n)
    (same : ∀ front sw, sw.size ≤ n → visitSwitch front sw = visitSwitch' front sw) :
    cleanFirst visitSwitch switches = cleanFirst visitSwitch' switches := by
  induction switches with
  | nil => rfl
  | cons sw rest ih =>
    rw [switchSizes_cons] at small
    have first := same true sw (by omega)
    have behind : cleanLater visitSwitch rest = cleanLater visitSwitch' rest := by
      refine cleanLater_congr fun front c member => same front c ?_
      have := size_of_mem_switches member
      omega
    have moved : ∀ cs, (visitSwitch true sw).moved = some cs →
        cleanLater visitSwitch (cs.switches ++ (visitSwitch true sw).sw :: rest).tail =
          cleanLater visitSwitch' (cs.switches ++ (visitSwitch true sw).sw :: rest).tail := by
      intro cs moves
      have bound := shrinks true sw
      rw [moves, Option.elim_some, CaseRule.size_eq] at bound
      refine cleanLater_congr fun front c member => same front c ?_
      have := size_of_mem_switches (mem_of_mem_tail member)
      rw [switchSizes_append, switchSizes_cons] at this
      omega
    simp only [cleanFirst, ih (by omega), ← first, behind]
    split
    · rfl
    · split
      · rfl
      · rename_i cs moves
        rw [moved cs moves]

private theorem switches_of_size (small : cs.size = 0) : cs.switches = [] := by
  cases switches : cs.switches with
  | nil => rfl
  | cons sw rest =>
    rw [CaseRule.size_eq, switches, switchSizes_cons, SwitchRule.size_eq] at small
    omega

theorem procCleanCase_unlimited {maxDepth : Nat} (enough : 2 * cs.size ≤ maxDepth) :
    procCleanCase (maxDepth + 1) cs = procCleanCase maxDepth cs := by
  induction maxDepth using Nat.twoStepInduction generalizing cs with
  | zero =>
    have none : cs.switches = [] := switches_of_size (by omega)
    simp only [procCleanCase, cleanCase, none, cleanFirst]
  | one =>
    have none : cs.switches = [] := switches_of_size (by omega)
    simp only [procCleanCase, cleanCase, none, cleanFirst]
  | more maxDepth ih _ =>
    rw [CaseRule.size_eq] at enough
    have shrinks : Shrinks (procCleanSwitch (procCleanCase (maxDepth + 1))) :=
      procCleanSwitch_size (procCleanCase_size (maxDepth + 1))
    have switches : cleanFirst (procCleanSwitch (procCleanCase (maxDepth + 1))) cs.switches =
        cleanFirst (procCleanSwitch (procCleanCase maxDepth)) cs.switches := by
      refine cleanFirst_congr shrinks (le_refl _) fun front sw small => ?_
      exact procCleanSwitch_congr (fun c smaller => ih (by omega)) front
    show cleanCase _ cs = cleanCase _ cs
    rw [cleanCase_eq, cleanCase_eq, switches]

theorem procCleanCase_depth (cs : CaseRule) (more : Nat) :
    procCleanCase (unlimited cs + more) cs = procCleanCase (unlimited cs) cs := by
  induction more with
  | zero => rfl
  | succ more ih => exact (procCleanCase_unlimited (Nat.le_add_right ..)).trans ih

end ManticoreFrontend.Passes.ProcCleanSize
