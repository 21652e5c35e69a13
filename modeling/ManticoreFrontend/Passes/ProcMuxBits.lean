/- source: passes/proc/proc_mux.cc
   digest: A decision tree seen from one bit: what the consumption of other bits leaves alone, and
     the bits that every honest run assigns. -/

import ManticoreFrontend.Passes.ProcMux

namespace ManticoreFrontend.Passes.ProcMuxBits

open List hiding choose
open Foundation.GuardedChoice Kernel.Signals
open Kernel.SigSets (covered covered_iff)
open Kernel.Processes
open Passes.ProcDff (removeSig removeSig_pairs zip_of_pairs)
open ProcMux

variable {v : Valuation} {b : SigBit}

/-- A run that sets the bit without looking at its old value, or keeps it. -/
def Overlays (b : SigBit) (f : Assigned → Assigned) : Prop :=
  ∀ s, f s b = (f (fun _ => none) b).or (s b)

private theorem Overlays.id : Overlays b (fun s => s) := fun s => by rw [Option.none_or]

variable {f : Assigned → Assigned}

theorem Overlays.comp {g : Assigned → Assigned} (second : Overlays b g) (first : Overlays b f) :
    Overlays b (fun s => g (f s)) := by
  intro s
  show g (f s) b = (g (f fun _ => none) b).or (s b)
  rw [second (f s), second (f fun _ => none), first s, Option.or_assoc]

private theorem Overlays.foldl {α : Type} {step : Assigned → α → Assigned} {l : List α}
    (each : ∀ a ∈ l, Overlays b (fun s => step s a)) : Overlays b (fun s => l.foldl step s) := by
  induction l with
  | nil => exact Overlays.id
  | cons a l ih =>
    exact (ih (fun c h => each c (by simp [h]))).comp (each a (by simp))

variable {l : List CaseRule}

private theorem Overlays.choose {guard : CaseRule → Bool} {body : CaseRule → Assigned → Assigned}
    (each : ∀ c ∈ l, Overlays b (body c)) :
    Overlays b (choose guard body l) := by
  induction l with
  | nil => exact Overlays.id
  | cons c l ih =>
    intro s
    cases taken : guard c with
    | true =>
      rw [choose_open taken, choose_open taken]
      exact each c (by simp) s
    | false =>
      rw [choose_closed taken, choose_closed taken]
      exact ih (fun d h => each d (by simp [h])) s

theorem Overlays.congr (overlays : Overlays b f) {s t : Assigned} (same : s b = t b) :
    f s b = f t b := by
  rw [overlays s, overlays t, same]

private theorem Overlays.keeps (overlays : Overlays b f) {s : Assigned} (set : (s b).isSome = true) :
    (f s b).isSome = true := by
  rw [overlays s]
  cases f (fun _ => none) b with
  | none => simpa using set
  | some x => rfl

theorem overlays_assignBit (p : SigBit × SigBit) : Overlays b (fun s => assignBit v s p) := by
  intro s
  show assignBit v s p b = (assignBit v (fun _ => none) p b).or (s b)
  unfold assignBit
  split
  · by_cases same : b = p.1
    · rw [same, Function.update_self, Function.update_self]
      rfl
    · rw [Function.update_of_ne same, Function.update_of_ne same]
      rfl
  · rfl

private theorem overlays_assign (a : Action) : Overlays b (fun s => a.assign v s) :=
  Overlays.foldl (fun p _ => overlays_assignBit p)

variable {sw : SwitchRule}

theorem overlays_switch (each : ∀ c ∈ sw.cases, Overlays b (c.exec v)) :
    Overlays b (sw.exec v) := by
  intro s
  rw [SwitchRule.exec_eq, SwitchRule.exec_eq]
  exact Overlays.choose each s

variable (cs : CaseRule)

theorem overlays_exec : Overlays b (cs.exec v) := by
  induction cs using CaseRule.byCases with
  | step cs ih =>
    intro s
    rw [CaseRule.exec_eq, CaseRule.exec_eq, execSwitches_foldl, execSwitches_foldl]
    exact (Overlays.foldl (fun sw h => overlays_switch (ih sw h))).comp
      (Overlays.foldl (fun a _ => overlays_assign a)) s

variable (b : SigBit)

/-- The part of an action that assigns the bit. -/
def onlyAction (a : Action) : Action :=
  let kept := a.pairs.filter (fun p => p.1 == b)
  { lhs := kept.map Prod.fst, rhs := kept.map Prod.snd, length := by simp }

mutual

/-- A decision tree with only the assignments of one bit. -/
def onlyCase : CaseRule → CaseRule
  | ⟨compare, actions, switches⟩ => ⟨compare, actions.map (onlyAction b), onlySwitches switches⟩

def onlySwitch : SwitchRule → SwitchRule
  | ⟨signal, full, parallel, cases⟩ => ⟨signal, full, parallel, onlyCases cases⟩

def onlySwitches : List SwitchRule → List SwitchRule
  | [] => []
  | sw :: rest => onlySwitch sw :: onlySwitches rest

def onlyCases : List CaseRule → List CaseRule
  | [] => []
  | cs :: rest => onlyCase cs :: onlyCases rest

end

variable {b}

private theorem onlySwitches_eq (l : List SwitchRule) : onlySwitches b l = l.map (onlySwitch b) := by
  induction l with
  | nil => rw [onlySwitches, map_nil]
  | cons sw l ih => rw [onlySwitches, map_cons, ih]

private theorem onlyCases_eq (l : List CaseRule) : onlyCases b l = l.map (onlyCase b) := by
  induction l with
  | nil => rw [onlyCases, map_nil]
  | cons cs l ih => rw [onlyCases, map_cons, ih]

theorem onlyCase_eq : onlyCase b cs =
    ⟨cs.compare, cs.actions.map (onlyAction b), cs.switches.map (onlySwitch b)⟩ := by
  cases cs
  rw [onlyCase, onlySwitches_eq]

theorem onlySwitch_eq (sw : SwitchRule) : onlySwitch b sw =
    ⟨sw.signal, sw.fullCase, sw.parallelCase, sw.cases.map (onlyCase b)⟩ := by
  cases sw
  rw [onlySwitch, onlyCases_eq]

@[simp] theorem onlyCase_compare : (onlyCase b cs).compare = cs.compare := by
  rw [onlyCase_eq]

@[simp] theorem onlyCase_actions :
    (onlyCase b cs).actions = cs.actions.map (onlyAction b) := by
  rw [onlyCase_eq]

@[simp] theorem onlyCase_switches :
    (onlyCase b cs).switches = cs.switches.map (onlySwitch b) := by
  rw [onlyCase_eq]

@[simp] theorem onlySwitch_signal (sw : SwitchRule) : (onlySwitch b sw).signal = sw.signal := by
  rw [onlySwitch_eq]

@[simp] theorem onlySwitch_fullCase (sw : SwitchRule) :
    (onlySwitch b sw).fullCase = sw.fullCase := by
  rw [onlySwitch_eq]

@[simp] theorem onlySwitch_parallelCase (sw : SwitchRule) :
    (onlySwitch b sw).parallelCase = sw.parallelCase := by
  rw [onlySwitch_eq]

@[simp] theorem onlySwitch_cases (sw : SwitchRule) :
    (onlySwitch b sw).cases = sw.cases.map (onlyCase b) := by
  rw [onlySwitch_eq]

@[simp] theorem onlyAction_pairs (a : Action) :
    (onlyAction b a).pairs = a.pairs.filter (fun p => p.1 == b) := zip_of_pairs _

private theorem onlyAction_congr {a a' : Action}
    (same : a.pairs.filter (fun p => p.1 == b) = a'.pairs.filter (fun p => p.1 == b)) :
    onlyAction b a = onlyAction b a' := by
  simp only [onlyAction, same]

variable {sig : SigSpec}

theorem onlyAction_remove (other : b ∉ sig) (a : Action) :
    onlyAction b (removeSig sig a) = onlyAction b a := by
  refine onlyAction_congr ?_
  rw [removeSig_pairs, filter_filter]
  refine filter_congr fun p _ => ?_
  by_cases here : p.1 = b
  · have free : covered sig b = false := by
      rw [Bool.eq_false_iff, Ne, covered_iff]
      exact fun h => other h.2
    simp [here, free]
  · simp [here]

private theorem mem_onlyAction {a : Action} : b ∈ (onlyAction b a).lhs ↔ b ∈ a.lhs := by
  show b ∈ (a.pairs.filter (fun p => p.1 == b)).map Prod.fst ↔ _
  have firsts : a.pairs.map Prod.fst = a.lhs := map_fst_zip (Nat.le_of_eq a.length)
  rw [← firsts, mem_map, mem_map]
  constructor
  · rintro ⟨p, member, same⟩
    exact ⟨p, (mem_filter.mp member).1, same⟩
  · rintro ⟨p, member, same⟩
    exact ⟨p, mem_filter.mpr ⟨member, by simp [same]⟩, same⟩

variable {b : SigBit} {p : SwitchRule → Prop} {s t : Assigned}

private theorem foldl_filter_bit {pairs : List (SigBit × SigBit)} (same : s b = t b) :
    (pairs.filter (fun p => p.1 == b)).foldl (assignBit v) s b = pairs.foldl (assignBit v) t b := by
  induction pairs generalizing s t with
  | nil => exact same
  | cons p pairs ih =>
    by_cases here : p.1 = b
    · rw [filter_cons_of_pos (by simp [here]), foldl_cons, foldl_cons]
      exact ih ((overlays_assignBit p).congr same)
    · rw [filter_cons_of_neg (by simp [here]), foldl_cons]
      refine ih ?_
      unfold assignBit
      split
      · rw [Function.update_of_ne (Ne.symm here), same]
      · exact same

private theorem exec_actions_only {actions : List Action} (same : s b = t b) :
    (actions.map (onlyAction b)).foldl (Action.assign v) s b =
      actions.foldl (Action.assign v) t b := by
  induction actions generalizing s t with
  | nil => exact same
  | cons a actions ih =>
    refine ih ?_
    rw [Action.assign, Action.assign, onlyAction_pairs]
    exact foldl_filter_bit same

private theorem matches_only (signal : SigSpec) (cs : CaseRule) :
    (onlyCase b cs).matches v signal = cs.matches v signal := by
  simp [CaseRule.matches, CaseRule.hits]

private theorem choose_only {signal : SigSpec} {cases : List CaseRule}
    (each : ∀ c ∈ cases, ∀ s t : Assigned, s b = t b → (onlyCase b c).exec v s b = c.exec v t b)
    (same : s b = t b) :
    choose (CaseRule.matches v signal) (CaseRule.exec v) (cases.map (onlyCase b)) s b =
      choose (CaseRule.matches v signal) (CaseRule.exec v) cases t b := by
  induction cases with
  | nil => exact same
  | cons c cases ih =>
    rw [map_cons, choose, choose, matches_only]
    split
    · exact each c (by simp) s t same
    · exact ih (fun d h => each d (by simp [h]))

private theorem execSwitches_only {switches : List SwitchRule}
    (each : ∀ sw ∈ switches, ∀ c ∈ sw.cases, ∀ s t : Assigned, s b = t b →
      (onlyCase b c).exec v s b = c.exec v t b)
    (same : s b = t b) :
    execSwitches v (switches.map (onlySwitch b)) s b = execSwitches v switches t b := by
  induction switches generalizing s t with
  | nil => simpa using same
  | cons sw switches ih =>
    refine ih (fun sw' h => each sw' (by simp [h])) ?_
    rw [SwitchRule.exec_eq, SwitchRule.exec_eq, onlySwitch_signal, onlySwitch_cases]
    exact choose_only (each sw (by simp)) same

private theorem exec_only (same : s b = t b) : (onlyCase b cs).exec v s b = cs.exec v t b := by
  induction cs using CaseRule.byCases generalizing s t with
  | step cs ih =>
    rw [CaseRule.exec_eq, CaseRule.exec_eq, onlyCase_switches, onlyCase_actions]
    exact execSwitches_only (fun sw hsw c hc _ _ => ih sw hsw c hc) (exec_actions_only same)

theorem exec_eq_of_only {cs cs' : CaseRule} (same : onlyCase b cs = onlyCase b cs') (s : Assigned) :
    cs.exec v s b = cs'.exec v s b := by
  rw [← exec_only cs (rfl : s b = s b), same, exec_only cs' rfl]

/-- Properties of switches that do not speak of the assignments. -/
def Shaped (p : SwitchRule → Prop) : Prop := ∀ b sw, p (onlySwitch b sw) ↔ p sw

theorem every_only (shaped : Shaped p) (cs : CaseRule) : (onlyCase b cs).Every p ↔ cs.Every p := by
  induction cs using CaseRule.byCases with
  | step cs ih =>
    rw [CaseRule.every_iff, CaseRule.every_iff, onlyCase_switches, forall_mem_map]
    refine forall₂_congr fun sw hsw => ?_
    rw [SwitchRule.every_iff, SwitchRule.every_iff, shaped b sw, onlySwitch_cases, forall_mem_map]
    exact and_congr_right (fun _ => forall₂_congr (fun c hc => ih sw hsw c hc))

theorem every_of_only (shaped : Shaped p) {cs cs' : CaseRule}
    (same : onlyCase b cs = onlyCase b cs') (every : cs.Every p) : cs'.Every p := by
  rw [← every_only shaped, ← same, every_only shaped]
  exact every

private theorem mem_switchLefts {l : List SwitchRule} :
    sig ∈ switchLefts l ↔ ∃ sw ∈ l, sig ∈ casesLefts sw.cases := by
  induction l with
  | nil => simp [switchLefts]
  | cons sw l ih =>
    cases sw
    rw [switchLefts, mem_append, ih]
    simp

private theorem mem_casesLefts :
    sig ∈ casesLefts l ↔ ∃ c ∈ l, sig ∈ caseLefts c := by
  induction l with
  | nil => simp [casesLefts]
  | cons c l ih =>
    rw [casesLefts, mem_append, ih]
    simp

private theorem caseLefts_eq :
    caseLefts cs = cs.actions.map Action.lhs ++ switchLefts cs.switches := by
  cases cs
  rw [caseLefts]

/-- The bit stands on the left of an action at or below the case. -/
def Assigns (b : SigBit) (cs : CaseRule) : Prop := b ∈ (caseLefts cs).flatten

theorem mem_casesLefts_flatten :
    b ∈ (casesLefts l).flatten ↔ ∃ c ∈ l, Assigns b c := by
  simp only [Assigns, mem_flatten, mem_casesLefts]
  constructor
  · rintro ⟨sig, ⟨c, hc, left⟩, inside⟩
    exact ⟨c, hc, sig, left, inside⟩
  · rintro ⟨c, hc, sig, left, inside⟩
    exact ⟨sig, ⟨c, hc, left⟩, inside⟩

private theorem assigns_iff {cs : CaseRule} : Assigns b cs ↔
    (∃ a ∈ cs.actions, b ∈ a.lhs) ∨ ∃ sw ∈ cs.switches, ∃ c ∈ sw.cases, Assigns b c := by
  rw [Assigns, caseLefts_eq, flatten_append, mem_append]
  refine or_congr (by simp) ?_
  rw [mem_flatten]
  constructor
  · rintro ⟨sig, left, inside⟩
    obtain ⟨sw, hsw, below⟩ := mem_switchLefts.mp left
    exact ⟨sw, hsw, mem_casesLefts_flatten.mp (mem_flatten.mpr ⟨sig, below, inside⟩)⟩
  · rintro ⟨sw, hsw, below⟩
    obtain ⟨sig, left, inside⟩ := mem_flatten.mp (mem_casesLefts_flatten.mpr below)
    exact ⟨sig, mem_switchLefts.mpr ⟨sw, hsw, left⟩, inside⟩

theorem assigns_only : Assigns b (onlyCase b cs) ↔ Assigns b cs := by
  induction cs using CaseRule.byCases with
  | step cs ih =>
    rw [assigns_iff, assigns_iff, onlyCase_actions, onlyCase_switches]
    simp only [mem_map, exists_exists_and_eq_and, mem_onlyAction, onlySwitch_cases]
    refine or_congr Iff.rfl (exists_congr fun sw => and_congr_right fun hsw =>
      exists_congr fun c => and_congr_right fun hc => ih sw hsw c hc)

theorem mem_targets_iff {cs : CaseRule} : b ∈ cs.targets ↔ Assigns b cs ∧ b.isWire = true := by
  induction cs using CaseRule.byCases with
  | step cs ih =>
    rw [CaseRule.mem_targets, assigns_iff, or_and_right]
    refine or_congr ?_ ?_
    · simp only [Action.mem_targets]
      constructor
      · rintro ⟨a, ha, inside, wire⟩
        exact ⟨⟨a, ha, inside⟩, wire⟩
      · rintro ⟨⟨a, ha, inside⟩, wire⟩
        exact ⟨a, ha, inside, wire⟩
    · constructor
      · rintro ⟨sw, hsw, c, hc, target⟩
        obtain ⟨below, wire⟩ := (ih sw hsw c hc).mp target
        exact ⟨⟨sw, hsw, c, hc, below⟩, wire⟩
      · rintro ⟨⟨sw, hsw, c, hc, below⟩, wire⟩
        exact ⟨sw, hsw, c, hc, (ih sw hsw c hc).mpr ⟨below, wire⟩⟩

/-- The bit is assigned by an action of the case, or in all cases of a full switch. -/
inductive Surely (b : SigBit) : CaseRule → Prop
  | action {cs : CaseRule} (a : Action) (member : a ∈ cs.actions) (inside : b ∈ a.lhs) : Surely b cs
  | switch {cs : CaseRule} (sw : SwitchRule) (member : sw ∈ cs.switches)
      (full : sw.fullCase = true) (nonempty : sw.cases ≠ []) (all : ∀ c ∈ sw.cases, Surely b c) :
      Surely b cs

def SurelyIn (b : SigBit) (sw : SwitchRule) : Prop :=
  sw.fullCase = true ∧ sw.cases ≠ [] ∧ ∀ c ∈ sw.cases, Surely b c

variable {cs : CaseRule}

theorem surely_iff :
    Surely b cs ↔ (∃ a ∈ cs.actions, b ∈ a.lhs) ∨ ∃ sw ∈ cs.switches, SurelyIn b sw := by
  constructor
  · intro sure
    cases sure with
    | action a member inside => exact .inl ⟨a, member, inside⟩
    | switch sw member full nonempty all => exact .inr ⟨sw, member, full, nonempty, all⟩
  · rintro (⟨a, member, inside⟩ | ⟨sw, member, full, nonempty, all⟩)
    · exact .action a member inside
    · exact .switch sw member full nonempty all

private theorem surely_only (cs : CaseRule) : Surely b (onlyCase b cs) ↔ Surely b cs := by
  induction cs using CaseRule.byCases with
  | step cs ih =>
    rw [surely_iff, surely_iff, onlyCase_actions, onlyCase_switches]
    simp only [mem_map, exists_exists_and_eq_and, mem_onlyAction]
    refine or_congr Iff.rfl (exists_congr fun sw => and_congr_right fun hsw => ?_)
    rw [SurelyIn, SurelyIn, onlySwitch_fullCase, onlySwitch_cases, forall_mem_map,
      Ne, map_eq_nil_iff]
    exact and_congr_right fun _ => and_congr_right fun _ => forall₂_congr (ih sw hsw)

theorem surelyIn_only (sw : SwitchRule) : SurelyIn b (onlySwitch b sw) ↔ SurelyIn b sw := by
  rw [SurelyIn, SurelyIn, onlySwitch_fullCase, onlySwitch_cases, forall_mem_map, Ne, map_eq_nil_iff]
  exact and_congr_right fun _ => and_congr_right fun _ => forall₂_congr fun c _ => surely_only c

/-- The attributes are truthful wherever a run comes. -/
inductive Honest (v : Valuation) : CaseRule → Prop
  | mk {cs : CaseRule} (truthful : ∀ sw ∈ cs.switches, sw.Truthful v)
      (below : ∀ sw ∈ cs.switches, ∀ c,
        sw.cases.find? (CaseRule.matches v sw.signal) = some c → Honest v c) : Honest v cs

theorem Honest.truthful {cs : CaseRule} (honest : Honest v cs) :
    ∀ sw ∈ cs.switches, sw.Truthful v := by
  cases honest with
  | mk truthful _ => exact truthful

theorem Honest.taken (honest : Honest v cs) (member : sw ∈ cs.switches) {c : CaseRule}
    (found : sw.cases.find? (CaseRule.matches v sw.signal) = some c) : Honest v c := by
  cases honest with
  | mk _ below => exact below sw member c found

private theorem truthful_only (sw : SwitchRule) : (onlySwitch b sw).Truthful v ↔ sw.Truthful v := by
  rw [SwitchRule.Truthful, SwitchRule.Truthful, onlySwitch_fullCase, onlySwitch_parallelCase,
    onlySwitch_signal, onlySwitch_cases]
  simp only [mem_map, exists_exists_and_eq_and, matches_only, Exclusive, pairwise_map]
  simp only [CaseRule.hits, onlyCase_compare]

private theorem find_only (signal : SigSpec) (cases : List CaseRule) :
    (cases.map (onlyCase b)).find? (CaseRule.matches v signal) =
      (cases.find? (CaseRule.matches v signal)).map (onlyCase b) := by
  have same : CaseRule.matches v signal ∘ onlyCase b = CaseRule.matches v signal := by
    funext c
    exact matches_only signal c
  rw [find?_map, same]

theorem honest_only (cs : CaseRule) : Honest v (onlyCase b cs) ↔ Honest v cs := by
  induction cs using CaseRule.byCases with
  | step cs ih =>
    constructor
    · intro honest
      have here : ∀ sw ∈ cs.switches, onlySwitch b sw ∈ (onlyCase b cs).switches := by
        intro sw hsw
        rw [onlyCase_switches]
        exact mem_map_of_mem hsw
      refine .mk (fun sw hsw => ?_) fun sw hsw c found => ?_
      · exact (truthful_only sw).mp (honest.truthful _ (here sw hsw))
      · refine (ih sw hsw c (mem_of_find?_eq_some found)).mp (honest.taken (here sw hsw) ?_)
        rw [onlySwitch_signal, onlySwitch_cases, find_only, found]
        rfl
    · intro honest
      refine .mk (fun sw hsw => ?_) fun sw hsw c found => ?_
      · rw [onlyCase_switches] at hsw
        obtain ⟨old, member, rfl⟩ := mem_map.mp hsw
        exact (truthful_only old).mpr (honest.truthful old member)
      · rw [onlyCase_switches] at hsw
        obtain ⟨old, member, rfl⟩ := mem_map.mp hsw
        rw [onlySwitch_signal, onlySwitch_cases, find_only, Option.map_eq_some_iff] at found
        obtain ⟨d, first, rfl⟩ := found
        exact (ih old member d (mem_of_find?_eq_some first)).mpr (honest.taken member first)

theorem assign_isSome {a : Action} (inside : b ∈ a.lhs) (wire : b.isWire = true) (s : Assigned) :
    (a.assign v s b).isSome = true := by
  have firsts : a.pairs.map Prod.fst = a.lhs := map_fst_zip (Nat.le_of_eq a.length)
  rw [← firsts] at inside
  obtain ⟨p, member, rfl⟩ := mem_map.mp inside
  obtain ⟨before, after, split⟩ := append_of_mem member
  rw [Action.assign, split, foldl_append, foldl_cons]
  refine (Overlays.foldl fun q _ => overlays_assignBit q).keeps ?_
  simp [assignBit, wire]

private theorem Surely.isSome (sure : Surely b cs) (wire : b.isWire = true) (honest : Honest v cs)
    (s : Assigned) : (cs.exec v s b).isSome = true := by
  induction sure generalizing s with
  | @action cs a member inside =>
    rw [CaseRule.exec_eq, execSwitches_foldl]
    refine (Overlays.foldl fun sw _ => overlays_switch fun c _ => overlays_exec c).keeps ?_
    obtain ⟨before, after, split⟩ := append_of_mem member
    rw [split, foldl_append, foldl_cons]
    exact (Overlays.foldl fun q _ => overlays_assign q).keeps (assign_isSome inside wire _)
  | @switch cs sw member full nonempty all ih =>
    rw [CaseRule.exec_eq]
    obtain ⟨before, after, split⟩ := append_of_mem member
    rw [split, execSwitches_append, execSwitches_cons, execSwitches_foldl _ after]
    refine (Overlays.foldl fun q _ => overlays_switch fun c _ => overlays_exec c).keeps ?_
    obtain ⟨c, inside, hit⟩ := (honest.truthful sw member).1 full
    obtain ⟨first, found⟩ := Option.isSome_iff_exists.mp (find?_isSome.mpr ⟨c, inside, hit⟩)
    rw [SwitchRule.exec_eq, choose_eq_find, found]
    exact ih first (mem_of_find?_eq_some found) (honest.taken member found) _

theorem SurelyIn.start (sure : SurelyIn b sw) (wire : b.isWire = true) (truthful : sw.Truthful v)
    (below : ∀ c, sw.cases.find? (CaseRule.matches v sw.signal) = some c → Honest v c)
    (s t : Assigned) : sw.exec v s b = sw.exec v t b := by
  obtain ⟨full, -, all⟩ := sure
  obtain ⟨c, inside, hit⟩ := truthful.1 full
  obtain ⟨first, found⟩ := Option.isSome_iff_exists.mp (find?_isSome.mpr ⟨c, inside, hit⟩)
  have assigned := (all first (mem_of_find?_eq_some found)).isSome wire (below first found)
    (fun _ => none)
  obtain ⟨x, value⟩ := Option.isSome_iff_exists.mp assigned
  have run : ∀ s : Assigned, sw.exec v s b = some x := by
    intro s
    rw [SwitchRule.exec_eq, choose_eq_find, found]
    show first.exec v s b = some x
    rw [overlays_exec first s, value]
    rfl
  rw [run s, run t]

end ManticoreFrontend.Passes.ProcMuxBits
