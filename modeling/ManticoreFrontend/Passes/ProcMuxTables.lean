/- source: passes/proc/proc_mux.cc
   digest: The tables of the switches stay right for the bits that are not consumed yet. -/

import ManticoreFrontend.Passes.ProcMuxBits

namespace ManticoreFrontend.Passes.ProcMuxTables

open Kernel Signals Processes ProcMux ProcMuxBits List

private theorem switchRules_eq (l : List WorkSwitch) : switchRules l = l.map WorkSwitch.rule := by
  induction l with
  | nil => rw [switchRules, map_nil]
  | cons sw l ih => rw [switchRules, map_cons, ih]

private theorem caseRules_eq (l : List WorkCase) : caseRules l = l.map WorkCase.rule := by
  induction l with
  | nil => rw [caseRules, map_nil]
  | cons cs l ih => rw [caseRules, map_cons, ih]

theorem WorkCase.rule_eq (w : WorkCase) :
    w.rule = ⟨w.compare, w.actions, w.switches.map WorkSwitch.rule⟩ := by
  cases w
  rw [WorkCase.rule, switchRules_eq]

variable (sw : WorkSwitch)

theorem WorkSwitch.rule_eq :
    sw.rule = ⟨sw.signal, sw.fullCase, sw.parallelCase, sw.cases.map WorkCase.rule⟩ := by
  cases sw
  rw [WorkSwitch.rule, caseRules_eq]

@[simp] theorem rule_compare (w : WorkCase) : w.rule.compare = w.compare := by
  rw [WorkCase.rule_eq]

@[simp] theorem rule_actions (w : WorkCase) : w.rule.actions = w.actions := by
  rw [WorkCase.rule_eq]

@[simp] theorem rule_switches (w : WorkCase) : w.rule.switches = w.switches.map WorkSwitch.rule := by
  rw [WorkCase.rule_eq]

@[simp] theorem rule_signal : sw.rule.signal = sw.signal := by
  rw [WorkSwitch.rule_eq]

@[simp] theorem rule_fullCase : sw.rule.fullCase = sw.fullCase := by
  rw [WorkSwitch.rule_eq]

@[simp] theorem rule_parallelCase : sw.rule.parallelCase = sw.parallelCase := by
  rw [WorkSwitch.rule_eq]

@[simp] theorem rule_cases : sw.rule.cases = sw.cases.map WorkCase.rule := by
  rw [WorkSwitch.rule_eq]

variable {sw : WorkSwitch}

theorem size_below {w c : WorkCase} (inSwitches : sw ∈ w.switches)
    (inCases : c ∈ sw.cases) : c.rule.size < w.rule.size := by
  have upper : sw.rule.size ≤ switchSizes w.rule.switches :=
    size_of_mem_switches (by rw [rule_switches]; exact mem_map_of_mem inSwitches)
  have lower : 1 + c.rule.size ≤ caseSizes sw.rule.cases :=
    size_of_mem_cases (by rw [rule_cases]; exact mem_map_of_mem inCases)
  rw [CaseRule.size_eq w.rule]
  rw [SwitchRule.size_eq] at upper
  omega

private theorem byWorkCases {P : WorkCase → Prop}
    (step : ∀ w : WorkCase, (∀ sw ∈ w.switches, ∀ c ∈ sw.cases, P c) → P w) (w : WorkCase) : P w := by
  induction size : w.rule.size using Nat.strong_induction_on generalizing w with
  | h n ih =>
    exact step w (fun sw hsw c hc => ih c.rule.size (size ▸ size_below hsw hc) c rfl)

variable (owner : SigBit → Option SigSpec) (live : SigBit → Prop)

/-- The entries of a switch are right for the live bits: a stored bit is assigned in all cases, and
the snippets of the bits assigned below are listed. -/
structure Fits (sw : WorkSwitch) : Prop where
  stored : ∀ b, live b → ∀ bits, sw.fullCaseBits = some bits → b ∈ bits → SurelyIn b sw.rule
  listed : ∀ b, live b → ∀ c ∈ sw.rule.cases, Assigns b c → ∀ k, owner b = some k → k ∈ sw.snippets

/-- All switches of a tree have right entries. -/
inductive Ready : WorkCase → Prop
  | mk {w : WorkCase} (here : ∀ sw ∈ w.switches, Fits owner live sw)
      (under : ∀ sw ∈ w.switches, ∀ c ∈ sw.cases, Ready c) : Ready w

variable {owner live}

variable {w : WorkCase}

theorem Ready.fits (ready : Ready owner live w) : ∀ sw ∈ w.switches, Fits owner live sw := by
  cases ready with
  | mk here _ => exact here

theorem Ready.cases (ready : Ready owner live w) :
    ∀ sw ∈ w.switches, ∀ c ∈ sw.cases, Ready owner live c := by
  cases ready with
  | mk _ under => exact under

variable {fewer : SigBit → Prop}

theorem Fits.mono (fits : Fits owner live sw) (sub : ∀ b, fewer b → live b) : Fits owner fewer sw :=
  ⟨fun b h => fits.stored b (sub b h), fun b h => fits.listed b (sub b h)⟩

theorem Ready.mono (ready : Ready owner live w)
    (sub : ∀ b, fewer b → live b) : Ready owner fewer w := by
  induction w using byWorkCases with
  | step w ih =>
    exact .mk (fun sw hsw => (ready.fits sw hsw).mono sub)
      (fun sw hsw c hc => ih sw hsw c hc (ready.cases sw hsw c hc))

theorem Fits.consumed {sw sw' : WorkSwitch} (fits : Fits owner live sw)
    (stored : sw'.fullCaseBits = sw.fullCaseBits) (listed : sw'.snippets = sw.snippets)
    (only : ∀ b, live b → onlySwitch b sw'.rule = onlySwitch b sw.rule) : Fits owner live sw' := by
  refine ⟨fun b alive bits given inside => ?_, fun b alive c member assigns k own => ?_⟩
  · rw [← surelyIn_only, only b alive, surelyIn_only]
    exact fits.stored b alive bits (stored ▸ given) inside
  · rw [listed]
    have cases : sw'.rule.cases.map (onlyCase b) = sw.rule.cases.map (onlyCase b) := by
      rw [← onlySwitch_cases, ← onlySwitch_cases, only b alive]
    have moved : onlyCase b c ∈ sw.rule.cases.map (onlyCase b) := cases ▸ mem_map_of_mem member
    obtain ⟨old, inside, same⟩ := mem_map.mp moved
    refine fits.listed b alive old inside ?_ k own
    rw [← assigns_only, same, assigns_only]
    exact assigns

variable {owner : SigBit → Option SigSpec}

private theorem labelSwitches_eq (l : List SwitchRule) :
    labelSwitches owner l = l.map (labelSwitch owner) := by
  induction l with
  | nil => rw [labelSwitches, map_nil]
  | cons sw l ih => rw [labelSwitches, map_cons, ih]

theorem labelCases_eq (l : List CaseRule) : labelCases owner l = l.map (labelCase owner) := by
  induction l with
  | nil => rw [labelCases, map_nil]
  | cons cs l ih => rw [labelCases, map_cons, ih]

private theorem labelCase_eq (cs : CaseRule) :
    labelCase owner cs = ⟨cs.compare, cs.actions, cs.switches.map (labelSwitch owner)⟩ := by
  cases cs
  rw [labelCase, labelSwitches_eq]

private theorem labelSwitch_eq (sw : SwitchRule) :
    labelSwitch owner sw = ⟨sw.signal, sw.fullCase, sw.parallelCase,
      sw.cases.map (labelCase owner), (casesLefts sw.cases).flatten.filterMap owner, none⟩ := by
  cases sw
  rw [labelSwitch, labelCases_eq]

private theorem labelSwitch_rule {sw : SwitchRule}
    (each : ∀ c ∈ sw.cases, (labelCase owner c).rule = c) : (labelSwitch owner sw).rule = sw := by
  rw [labelSwitch_eq, WorkSwitch.rule_eq, map_map]
  have same : sw.cases.map (WorkCase.rule ∘ labelCase owner) = sw.cases :=
    (map_congr_left each).trans (map_id _)
  rw [same]
  cases sw
  rfl

theorem labelCase_rule (cs : CaseRule) : (labelCase owner cs).rule = cs := by
  induction cs using CaseRule.byCases with
  | step cs ih =>
    rw [labelCase_eq, WorkCase.rule_eq, map_map]
    have same : cs.switches.map (WorkSwitch.rule ∘ labelSwitch owner) = cs.switches :=
      (map_congr_left fun sw hsw => labelSwitch_rule (ih sw hsw)).trans (map_id _)
    rw [same]
    cases cs
    rfl

theorem ready_label (cs : CaseRule) : Ready owner (fun _ => True) (labelCase owner cs) := by
  induction cs using CaseRule.byCases with
  | step cs ih =>
    rw [labelCase_eq]
    refine .mk (fun sw member => ?_) fun sw member c inside => ?_
    · obtain ⟨old, inCase, rfl⟩ := mem_map.mp member
      refine ⟨fun b _ bits given => ?_, fun b _ c inside assigns k own => ?_⟩
      · rw [labelSwitch_eq] at given
        cases given
      · rw [labelSwitch_rule (fun c _ => labelCase_rule c)] at inside
        rw [labelSwitch_eq]
        exact mem_filterMap.mpr ⟨b, mem_casesLefts_flatten.mpr ⟨c, inside, assigns⟩, own⟩
    · obtain ⟨old, inCase, rfl⟩ := mem_map.mp member
      rw [labelSwitch_eq] at inside
      obtain ⟨c', inOld, rfl⟩ := mem_map.mp inside
      exact ih old inCase c' inOld

variable {live : SigBit → Prop}

private theorem fillSwitches_eq (l : List WorkSwitch) : fillSwitches l = l.map fillSwitch := by
  induction l with
  | nil => rw [fillSwitches, map_nil]
  | cons sw l ih => rw [fillSwitches, map_cons, ih]

private theorem fillCases_eq (l : List WorkCase) : fillCases l = l.map fillCase := by
  induction l with
  | nil => rw [fillCases, map_nil]
  | cons cs l ih => rw [fillCases, map_cons, ih]

private theorem fillCase_eq (w : WorkCase) :
    fillCase w = ⟨w.compare, w.actions, w.switches.map fillSwitch⟩ := by
  cases w
  rw [fillCase, fillSwitches_eq]

private theorem fillSwitch_eq (sw : WorkSwitch) :
    (∃ bits, sw.fullCaseBits = some bits ∧ fillSwitch sw = sw) ∨
      (sw.fullCase = true ∧ fillSwitch sw =
        { sw with cases := sw.cases.map fillCase
                  fullCaseBits := some (commonBits (sw.cases.map fillCase)) }) ∨
      fillSwitch sw = { sw with fullCaseBits := some [] } := by
  obtain ⟨signal, full, parallel, cases, snippets, stored⟩ := sw
  cases stored with
  | some bits => exact .inl ⟨bits, rfl, by rw [fillSwitch]⟩
  | none =>
    cases full with
    | true => exact .inr (.inl ⟨rfl, by rw [fillSwitch, fillCases_eq]⟩)
    | false => exact .inr (.inr (by rw [fillSwitch]))

private theorem fillSwitch_rule_of (each : ∀ c ∈ sw.cases, (fillCase c).rule = c.rule) :
    (fillSwitch sw).rule = sw.rule := by
  rcases fillSwitch_eq sw with ⟨bits, -, same⟩ | ⟨-, same⟩ | same
  · rw [same]
  · rw [same, WorkSwitch.rule_eq, WorkSwitch.rule_eq sw, map_map]
    exact congrArg _ (map_congr_left each)
  · rw [same, WorkSwitch.rule_eq, WorkSwitch.rule_eq sw]

private theorem fillCase_rule (w : WorkCase) : (fillCase w).rule = w.rule := by
  induction w using byWorkCases with
  | step w ih =>
    rw [fillCase_eq, WorkCase.rule_eq, WorkCase.rule_eq w, map_map]
    exact congrArg _ (map_congr_left fun sw hsw => fillSwitch_rule_of (ih sw hsw))

theorem fillSwitch_rule (sw : WorkSwitch) : (fillSwitch sw).rule = sw.rule :=
  fillSwitch_rule_of (fun c _ => fillCase_rule c)

private theorem fillSwitch_snippets (sw : WorkSwitch) : (fillSwitch sw).snippets = sw.snippets := by
  rcases fillSwitch_eq sw with ⟨bits, -, same⟩ | ⟨-, same⟩ | same <;> rw [same]

private theorem mem_commonBits {b : SigBit} {cases : List WorkCase} (member : b ∈ commonBits cases) :
    cases ≠ [] ∧ ∀ c ∈ cases, b ∈ caseBits c := by
  cases cases with
  | nil => cases member
  | cons c rest =>
    have all : ∀ (l : List WorkCase) (bits : List SigBit),
        b ∈ l.foldl (fun bits c => bits.filter (· ∈ caseBits c)) bits →
        b ∈ bits ∧ ∀ d ∈ l, b ∈ caseBits d := by
      intro l
      induction l with
      | nil => exact fun bits inside => ⟨inside, by simp⟩
      | cons d l ih =>
        intro bits inside
        obtain ⟨kept, later⟩ := ih _ inside
        obtain ⟨before, here⟩ := mem_filter.mp kept
        refine ⟨before, fun e h => ?_⟩
        rcases mem_cons.mp h with rfl | h
        · simpa using here
        · exact later e h
    obtain ⟨first, later⟩ := all rest _ member
    refine ⟨by simp, fun d h => ?_⟩
    rcases mem_cons.mp h with rfl | h
    · exact first
    · exact later d h

private theorem fits_fill (fits : Fits owner live sw)
    (each : ∀ c ∈ sw.cases, ∀ b, live b → b ∈ caseBits (fillCase c) → Surely b c.rule) :
    Fits owner live (fillSwitch sw) := by
  refine ⟨fun b alive bits given inside => ?_, fun b alive => ?_⟩
  · rw [fillSwitch_rule]
    rcases fillSwitch_eq sw with ⟨old, -, same⟩ | ⟨full, same⟩ | same
    · rw [same] at given
      exact fits.stored b alive bits given inside
    · rw [same] at given
      rw [← Option.some.inj given] at inside
      obtain ⟨nonempty, all⟩ := mem_commonBits inside
      refine ⟨by rw [rule_fullCase, full], ?_, fun c member => ?_⟩
      · simpa using nonempty
      · rw [rule_cases] at member
        obtain ⟨c', inSwitch, rfl⟩ := mem_map.mp member
        exact each c' inSwitch b alive (all _ (mem_map_of_mem inSwitch))
    · rw [same] at given
      rw [← Option.some.inj given] at inside
      cases inside
  · rw [fillSwitch_rule, fillSwitch_snippets]
    exact fits.listed b alive

private theorem surely_of_caseBits {b : SigBit} (ready : Ready owner live w) (alive : live b)
    (inside : b ∈ caseBits w) : Surely b w.rule := by
  rw [surely_iff, rule_actions, rule_switches]
  rcases mem_append.mp inside with acted | switched
  · exact .inl (mem_flatMap.mp acted)
  · obtain ⟨sw, member, here⟩ := mem_flatMap.mp switched
    refine .inr ⟨sw.rule, mem_map_of_mem member, ?_⟩
    cases stored : sw.fullCaseBits with
    | none =>
      rw [stored] at here
      cases here
    | some bits =>
      rw [stored] at here
      exact (ready.fits sw member).stored b alive bits stored here

private theorem ready_fillCase (ready : Ready owner live w) : Ready owner live (fillCase w) := by
  induction w using byWorkCases with
  | step w ih =>
    have filled : ∀ sw ∈ w.switches, ∀ c ∈ sw.cases, Ready owner live (fillCase c) :=
      fun sw hsw c hc => ih sw hsw c hc (ready.cases sw hsw c hc)
    rw [fillCase_eq]
    refine .mk (fun sw' member => ?_) fun sw' member c inside => ?_
    · obtain ⟨sw, hsw, rfl⟩ := mem_map.mp member
      refine fits_fill (ready.fits sw hsw) fun c hc b alive inside => ?_
      rw [← fillCase_rule]
      exact surely_of_caseBits (filled sw hsw c hc) alive inside
    · obtain ⟨sw, hsw, rfl⟩ := mem_map.mp member
      rcases fillSwitch_eq sw with ⟨bits, -, same⟩ | ⟨-, same⟩ | same
      · rw [same] at inside
        exact ready.cases sw hsw c inside
      · rw [same] at inside
        obtain ⟨c', hc, rfl⟩ := mem_map.mp inside
        exact filled sw hsw c' hc
      · rw [same] at inside
        exact ready.cases sw hsw c inside

theorem ready_fillSwitch (fits : Fits owner live sw) (ready : ∀ c ∈ sw.cases, Ready owner live c) :
    Fits owner live (fillSwitch sw) ∧ ∀ c ∈ (fillSwitch sw).cases, Ready owner live c := by
  -- a case around the switch: its filling fills the switch
  have around : Ready owner live ⟨[], [], [sw]⟩ := by
    refine .mk (fun s h => ?_) fun s h => ?_
    · rw [mem_singleton.mp h]
      exact fits
    · rw [mem_singleton.mp h]
      exact ready
  have filled := ready_fillCase around
  rw [fillCase_eq] at filled
  exact ⟨filled.fits _ (by simp), filled.cases _ (by simp)⟩

end ManticoreFrontend.Passes.ProcMuxTables
