/- source: passes/proc/proc_mux.cc
   digest: The multiplexers of one snippet compute what the decision tree assigns to it. -/

import ManticoreFrontend.Passes.ProcMuxCells
import ManticoreFrontend.Passes.ProcMuxTables

namespace ManticoreFrontend.Passes.ProcMuxTrees

open Foundation.GuardedChoice Kernel Constants Signals Processes List BitPatterns
open Passes.ProcDff (removeSig)
open ProcMux ProcMuxBits ProcMuxGroups ProcMuxCells ProcMuxTables

/-- Selectors, patterns and defaults are as the passes before leave them. -/
structure Plain (sw : SwitchRule) : Prop where
  selector : ∀ b ∈ sw.signal, SelectorBit b
  checked : sw.Checked
  patterns : ∀ cs ∈ sw.cases, ∀ pattern ∈ cs.compare, ∀ b ∈ pattern, PatternBit b
  defaultsLast : sw.cases.Pairwise (fun c d => c.compare = [] → d.compare = [])

theorem plain_shaped : Shaped Plain := by
  intro b sw
  constructor
  · intro plain
    obtain ⟨selector, checked, patterns, defaultsLast⟩ := plain
    rw [SwitchRule.Checked] at checked
    simp only [onlySwitch_signal, onlySwitch_cases, forall_mem_map, onlyCase_compare,
      pairwise_map] at selector checked patterns defaultsLast
    exact ⟨selector, checked, patterns, defaultsLast⟩
  · intro plain
    obtain ⟨selector, checked, patterns, defaultsLast⟩ := plain
    refine ⟨?_, ?_, ?_, ?_⟩
    · rwa [onlySwitch_signal]
    · rw [SwitchRule.Checked, onlySwitch_signal, onlySwitch_cases, forall_mem_map]
      simp only [onlyCase_compare]
      exact checked
    · simpa using patterns
    · rw [onlySwitch_cases, pairwise_map]
      simpa using defaultsLast

private theorem Plain.fitting {sw : SwitchRule} (plain : Plain sw) :
    ∀ cs ∈ sw.cases, Fitting sw.signal cs.compare := fun cs member =>
  ⟨plain.checked cs member, plain.patterns cs member⟩

variable {sw : WorkSwitch}

private theorem numbered_fst (sw : WorkSwitch) : (numbered sw).map Prod.fst = sw.cases := by
  refine map_fst_zip (Nat.le_of_eq ?_)
  rw [pgroups_length, length_map]

private theorem numbered_rules (sw : WorkSwitch) :
    (numbered sw).map (fun p => p.1.rule) = sw.rule.cases := by
  rw [rule_cases, ← numbered_fst sw, map_map]
  rfl

private theorem numbered_fitting (plain : Plain sw.rule) :
    ∀ p ∈ numbered sw, Fitting sw.signal p.1.compare := by
  intro p member
  have fit := plain.fitting p.1.rule (numbered_rules sw ▸ mem_map_of_mem member)
  rwa [rule_signal, rule_compare] at fit

private theorem numbered_order (plain : Plain sw.rule) :
    (numbered sw).Pairwise (fun p q => p.1.compare = [] → q.1.compare = []) := by
  have order := plain.defaultsLast
  rw [← numbered_rules, pairwise_map] at order
  simpa only [rule_compare] using order

/-- Cases of one group are never hit at once, if the attributes are truthful. -/
theorem numbered_apart {v : Valuation} (plain : Plain sw.rule) (truthful : sw.rule.Truthful v) :
    Apart v sw.signal ((numbered sw).map (fun p => (p.1.compare, p.2))) := by
  have zip : (numbered sw).map (fun p => (p.1.compare, p.2)) = (sw.cases.map WorkCase.compare).zip
      (pgroups sw.signal.length sw.parallelCase (sw.cases.map WorkCase.compare)) := by
    rw [zip_map_left]
    rfl
  have compares : sw.cases.map WorkCase.compare = sw.rule.cases.map CaseRule.compare := by
    rw [rule_cases, map_map]
    exact map_congr_left fun c _ => (rule_compare c).symm
  rw [zip]
  refine pgroups_apart (fun c member => ?_) fun parallel => ?_
  · rw [compares] at member
    obtain ⟨cs, inside, rfl⟩ := mem_map.mp member
    have fit := plain.fitting cs inside
    rwa [rule_signal] at fit
  · have exclusive := truthful.2 (by rw [rule_parallelCase, parallel])
    rw [compares, pairwise_map]
    rw [rule_signal] at exclusive
    exact exclusive

variable (n : Nat) (tree : WorkCase → MuxSig → Builder → Option (MuxSig × WorkCase × Builder))
  (safe : WorkCase → MuxSig → Builder → Bool)

/-- The cases of a switch that are appended are attached, and so are those below it. -/
def attachedCases (signal : SigSpec) (initial : MuxSig) : List (WorkCase × Nat) → Builder → Bool
  | [], _ => true
  | (cs, group) :: rest, b =>
    attachedCases signal initial rest b &&
      (muxCases tree signal initial rest b).all fun p =>
        safe cs initial p.2.builder && (tree cs initial p.2.builder).all fun q =>
          attached signal cs.compare ((rest.map Prod.snd).head? == some group) q.1
            { p.2 with builder := q.2.2 }

def attachedSwitch (sig : SigSpec) (result : MuxSig) (sw : WorkSwitch) (b : Builder) : Bool :=
  if sig ∈ sw.snippets then
    let sw := fillSwitch sw
    attachedCases tree safe sw.signal (maskDefaults sig (sw.fullCaseBits.getD []) result)
      (numbered sw) b
  else true

def attachedSwitches (sig : SigSpec) : MuxSig → List WorkSwitch → Builder → Bool
  | _, [], _ => true
  | result, sw :: rest, b =>
    attachedSwitch tree safe sig result sw b &&
      (muxSwitch sig tree result sw b).all fun p => attachedSwitches sig p.1 rest p.2.2

def attachedTree (sig : SigSpec) : Nat → WorkCase → MuxSig → Builder → Bool
  | 0, _, _, _ => true
  | fuel + 1, cs, defval, b =>
    attachedSwitches (signalToMuxTree sig fuel) (attachedTree sig fuel) sig
      (cs.actions.foldl (replaceMux sig) defval) cs.switches b

variable (R : WorkCase → MuxSig → MuxSig → WorkCase → Builder → Prop) (signal : SigSpec)

/-- The tree of a case is built from every safe start, with a result that satisfies `R`. -/
def Builds (cs : WorkCase) : Prop :=
  ∀ defval b, Tidy b → Within b defval → defval.length = n → safe cs defval b = true →
    ∃ value done b', tree cs defval b = some (value, done, b') ∧ Tidy b' ∧ Extends b b' ∧
      Within b' value ∧ value.length = n ∧ R cs defval value done b'

/-- The loop visits every case and ends with the value of the first one that is taken. -/
structure LoopResult (initial : MuxSig) (start : Builder) (l : List (WorkCase × Nat))
    (visited : List Visited) (loop : Loop) : Prop where
  all : visited.map (fun x => (x.before, x.group)) = l
  between : Between n start visited loop
  built : ∀ x ∈ visited, ∃ b, R x.before initial x.value x.done b ∧
    ∀ c ∈ b.cells, c ∈ loop.builder.cells
  means : ∀ v y, (∀ b ∈ signal, SelectorBit b) →
    Apart v signal (l.map (fun p => (p.1.compare, p.2))) → Solves v y loop.builder.cells →
    Means v n y signal initial visited loop

variable {n tree safe R signal} {l : List (WorkCase × Nat)}

private theorem muxCases_spec {initial : MuxSig} {start : Builder}
    (each : ∀ p ∈ l, Builds n tree safe R p.1) (positive : 0 < n) (length : initial.length = n)
    (tidy : Tidy start) (within : Within start initial)
    (fitting : ∀ p ∈ l, Fitting signal p.1.compare)
    (order : l.Pairwise (fun p q => p.1.compare = [] → q.1.compare = []))
    (attached : attachedCases tree safe signal initial l start = true) :
    ∃ visited loop, muxCases tree signal initial l start = some (visited.map Visited.done, loop) ∧
      LoopResult n R signal initial start l visited loop := by
  induction l with
  | nil =>
    refine ⟨[], { result := initial, builder := start }, rfl, rfl, ?_, by simp, ?_⟩
    · exact
        { tidy := tidy
          extend := Extends.refl start
          length := length
          driven := .inl within
          isOpen := fun cell h => by cases h
          recent := fun cell h => by cases h
          defaults := fun _ => rfl }
    · intro v y _ _ _
      exact ⟨fun _ => rfl, fun cell h => (by cases h.1), fun cell h => (by cases h.1),
        fun cell h => (by cases h.1)⟩
  | cons p rest ih =>
    obtain ⟨cs, group⟩ := p
    obtain ⟨behind, order⟩ := pairwise_cons.mp order
    rw [attachedCases, Bool.and_eq_true] at attached
    obtain ⟨visited, loop, run, result⟩ := ih (fun q h => each q (by simp [h]))
      (fun q h => fitting q (by simp [h])) order attached.1
    have safe' := attached.2
    rw [run, Option.all_some, Bool.and_eq_true] at safe'
    obtain ⟨value, done, b, built, tidy', ext, within', length', here⟩ :=
      each (cs, group) (by simp) initial loop.builder result.between.tidy
        (within.extend result.between.extend) length safe'.1
    have joins := safe'.2
    rw [built, Option.all_some] at joins
    have grown := result.between.grow tidy' ext
    have fits : Fitting signal cs.compare := fitting (cs, group) (by simp)
    have catches : cs.compare = [] → ∀ x ∈ visited, x.before.compare = [] := by
      intro why x member
      have inRest : (x.before, x.group) ∈ rest := result.all ▸ mem_map_of_mem member
      exact behind _ inRest why
    obtain ⟨loop', step, shape⟩ := muxStep_shape
      ((rest.map Prod.snd).head? == some group) fits grown length' joins
    let x : Visited := ⟨cs, group, value, done⟩
    refine ⟨x :: visited, loop', ?_, ?_, grown.step length' within' x rfl shape, ?_, ?_⟩
    · rw [muxCases, run]
      simp only [Option.bind_eq_bind, Option.bind_some, built, step]
      rfl
    · rw [map_cons, result.all]
    · intro z member
      rcases mem_cons.mp member with rfl | member
      · exact ⟨b, here, shape.cells⟩
      · obtain ⟨b', holds, sub⟩ := result.built z member
        exact ⟨b', holds, fun c h => shape.cells c (ext.old c (sub c h))⟩
    · intro v y selector apart solves
      obtain ⟨first, apart⟩ := pairwise_cons.mp apart
      have before : Means v n y signal initial visited loop := result.means v y selector apart
        (Solves.mono solves (fun c h => shape.cells c (ext.old c h)))
      have carried := before.grow result.between positive tidy' ext
      have groups : visited.map Visited.group = rest.map Prod.snd := by
        rw [← result.all, map_map]
        rfl
      refine carried.step grown positive selector x within' length' fits (fun joins => ?_)
        (fun z member same => ?_) catches shape solves
      · rw [groups]
        simpa using joins
      · have inRest : (z.before, z.group) ∈ rest := result.all ▸ mem_map_of_mem member
        exact first (z.before.compare, z.group)
          (mem_map.mpr ⟨(z.before, z.group), inRest, rfl⟩) same

variable {v : Valuation} {y : Nat → Const} {sig : SigSpec} {m m' : MuxSig} {s t : Assigned}

/-- The signal carries what was assigned to the bits of the snippet. -/
def Tracks (v : Valuation) (y : Nat → Const) (sig : SigSpec) (m : MuxSig) (s : Assigned) : Prop :=
  ∀ (i : Nat) (b : SigBit) (x : MuxBit), sig[i]? = some b → m[i]? = some x → b.isWire = true →
    s b = some (x.state v y)

private theorem Tracks.congr (tracks : Tracks v y sig m s)
    (same : MuxSig.value v y m' = MuxSig.value v y m) : Tracks v y sig m' s := by
  intro i b x atSig atM wire
  have states := congrArg (fun l : Const => l[i]?) same
  simp only [MuxSig.value, getElem?_map, atM, Option.map_some] at states
  obtain ⟨x', atOld, equal⟩ := Option.map_eq_some_iff.mp states.symm
  rw [tracks i b x' atSig atOld wire, equal]

theorem Tracks.agree (tracks : Tracks v y sig m s)
    (same : ∀ b ∈ sig, b.isWire = true → t b = s b) : Tracks v y sig m t := by
  intro i b x atSig atM wire
  rw [same b (mem_of_getElem? atSig) wire]
  exact tracks i b x atSig atM wire

private theorem replace_state {pairs : List (SigBit × SigBit)} {b : SigBit} {x : MuxBit}
    (wire : b.isWire = true) (same : s b = some (x.state v y)) :
    pairs.foldl (assignBit v) s b = some ((pairs.foldl
      (fun r p => if p.1.isWire && b == p.1 then .bit p.2 else r) x).state v y) := by
  induction pairs generalizing s x with
  | nil => exact same
  | cons p pairs ih =>
    rw [foldl_cons, foldl_cons]
    refine ih ?_
    by_cases here : b = p.1
    · rw [assignBit, ← here, if_pos wire, Function.update_self, if_pos (by simp [wire])]
      rfl
    · rw [if_neg (by simp [here]), assignBit]
      split
      · rw [Function.update_of_ne here]
        exact same
      · exact same

private theorem Tracks.replace (tracks : Tracks v y sig m s) (a : Action) :
    Tracks v y sig (replaceMux sig m a) (a.assign v s) := by
  intro i b x atSig atM wire
  obtain ⟨c, old, atSig', atOld, rfl⟩ := getElem?_zipWith_eq_some.mp atM
  rw [atSig] at atSig'
  rw [← Option.some.inj atSig', Action.assign]
  exact replace_state wire (tracks i b old atSig atOld wire)

private theorem Tracks.actions (tracks : Tracks v y sig m s) (actions : List Action) :
    Tracks v y sig (actions.foldl (replaceMux sig) m) (actions.foldl (Action.assign v) s) := by
  induction actions generalizing m s with
  | nil => exact tracks
  | cons a actions ih => exact ih (tracks.replace a)

private theorem Tracks.mask (tracks : Tracks v y sig m s) (bits : List SigBit) :
    Tracks v y sig (maskDefaults sig bits m)
      (fun b => if b ∈ bits then some State.Sx else s b) := by
  intro i b x atSig atM wire
  obtain ⟨c, old, atSig', atOld, rfl⟩ := getElem?_zipWith_eq_some.mp atM
  rw [atSig] at atSig'
  rw [← Option.some.inj atSig']
  show (if b ∈ bits then some State.Sx else s b) = _
  split
  · rfl
  · exact tracks i b old atSig atOld wire

variable {b : Builder} {m : MuxSig}

theorem mem_reads {n : Nat} : n ∈ reads m ↔ ∃ index, MuxBit.out n index ∈ m := by
  rw [reads, mem_filterMap]
  constructor
  · rintro ⟨x, member, out⟩
    cases x with
    | bit c => cases out
    | out cell index => exact ⟨index, Option.some.inj out ▸ member⟩
  · rintro ⟨index, member⟩
    exact ⟨.out n index, member, rfl⟩

private theorem within_zipWith {f : SigBit → MuxBit → MuxBit} (within : Within b m)
    (kept : ∀ c x, f c x = x ∨ ∃ d, f c x = .bit d) : Within b (List.zipWith f sig m) := by
  intro n member
  obtain ⟨index, inside⟩ := mem_reads.mp member
  obtain ⟨i, place⟩ := mem_iff_getElem?.mp inside
  obtain ⟨c, x, -, atM, same⟩ := getElem?_zipWith_eq_some.mp place
  rcases kept c x with old | ⟨d, new⟩
  · rw [old] at same
    exact within n (mem_reads.mpr ⟨index, same ▸ mem_of_getElem? atM⟩)
  · rw [new] at same
    cases same

theorem within_replace (within : Within b m) (a : Action) : Within b (replaceMux sig m a) := by
  refine within_zipWith within fun c x => ?_
  generalize a.pairs = pairs
  induction pairs generalizing x with
  | nil => exact .inl rfl
  | cons p pairs ih =>
    rw [foldl_cons]
    split
    · rcases ih (.bit p.2) with same | new
      · exact .inr ⟨p.2, same⟩
      · exact .inr new
    · exact ih x

private theorem within_actions (within : Within b m) (actions : List Action) :
    Within b (actions.foldl (replaceMux sig) m) :=
  foldlRecOn actions _ within fun _ within a _ => within_replace within a

private theorem length_actions (length : m.length = sig.length) (actions : List Action) :
    (actions.foldl (replaceMux sig) m).length = sig.length := by
  induction actions generalizing m with
  | nil => exact length
  | cons a actions ih => exact ih (by simp [replaceMux, length])

private theorem within_mask (within : Within b m) (bits : List SigBit) :
    Within b (maskDefaults sig bits m) := by
  refine within_zipWith within fun c x => ?_
  split
  · exact .inr ⟨_, rfl⟩
  · exact .inl rfl

variable (owner : SigBit → Option SigSpec) (live : SigBit → Prop)

structure Snippet (sig : SigSpec) : Prop where
  nonempty : sig ≠ []
  live : ∀ b ∈ sig, live b
  owned : ∀ b ∈ sig, owner b = some sig

/-- The bits that are left when the snippet is consumed. -/
def Later (live : SigBit → Prop) (sig : SigSpec) (b : SigBit) : Prop := live b ∧ b ∉ sig

/-- What the pass has made of a case, and what its signal computes. -/
structure CaseDone (sig : SigSpec) (cs : WorkCase) (defval value : MuxSig) (done : WorkCase)
    (b : Builder) : Prop where
  only : ∀ c, c ∉ sig → onlyCase c done.rule = onlyCase c cs.rule
  ready : Ready owner (Later live sig) done
  denotes : ∀ v y, Honest v cs.rule → Solves v y b.cells → ∀ s, Tracks v y sig defval s →
    Tracks v y sig value (cs.rule.exec v s)

/-- The same for a switch that a run reaches. -/
structure SwitchDone (sig : SigSpec) (sw : WorkSwitch) (defval value : MuxSig) (done : WorkSwitch)
    (b : Builder) : Prop where
  only : ∀ c, c ∉ sig → onlySwitch c done.rule = onlySwitch c sw.rule
  fits : Fits owner (Later live sig) done
  ready : ∀ c ∈ done.cases, Ready owner (Later live sig) c
  denotes : ∀ v y, sw.rule.Truthful v →
    (∀ c, sw.rule.cases.find? (CaseRule.matches v sw.rule.signal) = some c → Honest v c) →
    Solves v y b.cells → ∀ s, Tracks v y sig defval s →
    Tracks v y sig value (sw.rule.exec v s)

variable {owner live} {start : Builder}

private theorem SwitchDone.skipped (snippet : Snippet owner live sig) {b : Builder}
    (fits : Fits owner live sw) (ready : ∀ c ∈ sw.cases, Ready owner live c)
    (unlisted : sig ∉ sw.snippets) : SwitchDone owner live sig sw m m sw b where
  only _ _ := rfl
  fits := fits.mono (fun _ h => h.1)
  ready c h := (ready c h).mono (fun _ h => h.1)
  denotes v y _ _ _ s tracks := by
    refine tracks.agree fun c inside wire => ?_
    rw [SwitchRule.exec_eq]
    refine choose_preserves (P := fun t : Assigned => t c = s c) (fun cs member t same => ?_) rfl
    rw [CaseRule.exec_of_not_mem v cs ?_ t, same]
    intro target
    exact unlisted (fits.listed c (snippet.live c inside) cs member (mem_targets_iff.mp target).1 sig
      (snippet.owned c inside))

/-- The masked start of a switch: bits that all cases assign may start undefined. -/
theorem exec_masked {bits : List SigBit} {v : Valuation} {b : SigBit} (fits : Fits owner live sw)
    (stored : sw.fullCaseBits = some bits ∨ bits = []) (alive : live b) (wire : b.isWire = true)
    (truthful : sw.rule.Truthful v)
    (taken : ∀ c, sw.rule.cases.find? (CaseRule.matches v sw.rule.signal) = some c → Honest v c)
    (s : Assigned) : sw.rule.exec v s b =
      sw.rule.exec v (fun c => if c ∈ bits then some State.Sx else s c) b := by
  by_cases inside : b ∈ bits
  · rcases stored with given | empty
    · exact (fits.stored b alive bits given inside).start wire truthful taken _ _
    · rw [empty] at inside
      cases inside
  · refine (overlays_switch (fun c _ => overlays_exec c)).congr ?_
    rw [if_neg inside]

variable {visited : List Visited}

theorem LoopResult.tracks {sw : SwitchRule} {initial : MuxSig} {start : Builder} {loop : Loop} {n : Nat}
    (result : LoopResult n (CaseDone owner live sig) sw.signal initial start l visited loop)
    (cases : l.map (fun p => p.1.rule) = sw.cases) {v : Valuation} {y : Nat → Const}
    (means : Means v n y sw.signal initial visited loop)
    (taken : ∀ c, sw.cases.find? (CaseRule.matches v sw.signal) = some c → Honest v c)
    (solves : Solves v y (loop.builder.close loop.lastMuxCell).cells) {s : Assigned}
    (tracks : Tracks v y sig initial s) : Tracks v y sig loop.result (sw.exec v s) := by
  have value := means.result result.between solves
  have rules : sw.cases = visited.map (fun x => x.before.rule) := by
    rw [← cases, ← result.all, map_map]
    rfl
  have guards : CaseRule.matches v sw.signal ∘ (fun x : Visited => x.before.rule) =
      fun x => x.before.compare.isEmpty || hit v sw.signal x.before.compare := by
    funext x
    show (x.before.rule.compare.isEmpty || x.before.rule.compare.any _) = _
    rw [rule_compare]
    rfl
  rw [picked, choose_eq_find] at value
  rw [SwitchRule.exec_eq, choose_eq_find, rules, find?_map, guards]
  rw [rules, find?_map, guards] at taken
  cases found : visited.find?
      (fun x => x.before.compare.isEmpty || hit v sw.signal x.before.compare) with
  | none =>
    rw [found] at value
    exact tracks.congr value
  | some x =>
    rw [found] at value taken
    obtain ⟨b, done, sub⟩ := result.built x (mem_of_find?_eq_some found)
    have honest : Honest v x.before.rule := taken _ rfl
    have here : Solves v y b.cells :=
      Solves.mono solves (fun c h => mem_append_left _ (sub c h))
    exact (done.denotes v y honest here s tracks).congr value

private theorem onlySwitch_cases_congr {dones : List WorkCase} {c : SigBit}
    (same : dones.map (fun w => onlyCase c w.rule) = sw.cases.map (fun w => onlyCase c w.rule)) :
    onlySwitch c (WorkSwitch.rule { sw with cases := dones }) = onlySwitch c sw.rule := by
  rw [WorkSwitch.rule_eq, WorkSwitch.rule_eq sw, onlySwitch_eq, onlySwitch_eq, map_map, map_map]
  exact congrArg _ same

theorem stored_or_empty (o : Option (List SigBit)) : o = some (o.getD []) ∨ o.getD [] = [] := by
  cases o with
  | none => exact .inr rfl
  | some bits => exact .inl rfl

section

variable (snippet : Snippet owner live sig)

include snippet

private theorem SwitchDone.looped {loop : Loop} (fits : Fits owner live sw) (plain : Plain sw.rule)
    (result : LoopResult sig.length (CaseDone owner live sig) sw.signal
      (maskDefaults sig (sw.fullCaseBits.getD []) m) start (numbered sw) visited loop) :
    SwitchDone owner live sig sw m loop.result { sw with cases := visited.map Visited.done }
      (loop.builder.close loop.lastMuxCell) := by
  have before : visited.map Visited.before = sw.cases := by
    rw [← numbered_fst sw, ← result.all, map_map]
    rfl
  have only : ∀ c, c ∉ sig → onlySwitch c
      (WorkSwitch.rule { sw with cases := visited.map Visited.done }) = onlySwitch c sw.rule := by
    intro c other
    refine onlySwitch_cases_congr ?_
    rw [← before, map_map, map_map]
    refine map_congr_left fun x member => ?_
    obtain ⟨b, done, -⟩ := result.built x member
    exact done.only c other
  refine ⟨only, ?_, fun c member => ?_, fun v y truthful taken solves s tracks => ?_⟩
  · exact (fits.mono (fun _ h => h.1)).consumed rfl rfl fun c later => only c later.2
  · obtain ⟨x, inside, rfl⟩ := mem_map.mp member
    obtain ⟨b, done, -⟩ := result.built x inside
    exact done.ready
  · have selector : ∀ b ∈ sw.signal, SelectorBit b := rule_signal sw ▸ plain.selector
    have means := result.means v y selector (numbered_apart plain truthful)
      (Solves.mono solves (fun c h => mem_append_left _ h))
    rw [← rule_signal] at means result
    have masked := result.tracks (numbered_rules sw) means taken solves
      (tracks.mask (sw.fullCaseBits.getD []))
    refine masked.agree fun b inside wire => ?_
    exact exec_masked fits (stored_or_empty _) (snippet.live b inside) wire truthful taken s

/-- A switch that a run may reach, over cases whose trees are built. -/
structure Prepared (owner : SigBit → Option SigSpec) (live : SigBit → Prop) (sig : SigSpec)
    (tree : WorkCase → MuxSig → Builder → Option (MuxSig × WorkCase × Builder))
    (safe : WorkCase → MuxSig → Builder → Bool) (sw : WorkSwitch) : Prop where
  fits : Fits owner live sw
  ready : ∀ c ∈ sw.cases, Ready owner live c
  plain : Plain sw.rule
  each : ∀ c ∈ (fillSwitch sw).cases, Builds sig.length tree safe (CaseDone owner live sig) c

private theorem muxSwitch_spec (prepared : Prepared owner live sig tree safe sw) (tidy : Tidy start)
    (within : Within start m) (length : m.length = sig.length)
    (attached : attachedSwitch tree safe sig m sw start = true) :
    ∃ value done b, muxSwitch sig tree m sw start = some (value, done, b) ∧ Tidy b ∧
      Extends start b ∧ Within b value ∧ value.length = sig.length ∧
      SwitchDone owner live sig sw m value done b := by
  obtain ⟨fits, ready, plain, each⟩ := prepared
  by_cases listed : sig ∈ sw.snippets
  · obtain ⟨fits', -⟩ := ready_fillSwitch fits ready
    have rule := fillSwitch_rule sw
    rw [← rule] at plain
    rw [attachedSwitch, if_pos listed] at attached
    have sized : (maskDefaults sig ((fillSwitch sw).fullCaseBits.getD []) m).length = sig.length := by
      simp [maskDefaults, length]
    have trees : ∀ p ∈ numbered (fillSwitch sw),
        Builds sig.length tree safe (CaseDone owner live sig) p.1 :=
      fun p member => each p.1 (of_mem_zip member).1
    obtain ⟨visited, loop, run, result⟩ := muxCases_spec trees
      (length_pos_iff.mpr snippet.nonempty) sized tidy
      (within_mask within ((fillSwitch sw).fullCaseBits.getD [])) (numbered_fitting plain)
      (numbered_order plain) attached
    have done := SwitchDone.looped snippet fits' plain result
    refine ⟨loop.result, { fillSwitch sw with cases := visited.map Visited.done },
      loop.builder.close loop.lastMuxCell, ?_, result.between.closed.1, result.between.closed.2,
      result.between.result_within, result.between.length, ?_⟩
    · rw [muxSwitch, if_pos listed]
      simp only [Option.bind_eq_bind]
      rw [run]
      rfl
    · obtain ⟨only, fits, ready, denotes⟩ := done
      rw [rule] at only denotes
      exact ⟨only, fits, ready, denotes⟩
  · refine ⟨m, sw, start, ?_, tidy, Extends.refl start, within, length,
      SwitchDone.skipped snippet fits ready listed⟩
    rw [muxSwitch, if_neg listed]

private theorem muxSwitches_spec {l : List WorkSwitch}
    (prepared : ∀ sw ∈ l, Prepared owner live sig tree safe sw) (tidy : Tidy start)
    (within : Within start m) (length : m.length = sig.length)
    (attached : attachedSwitches tree safe sig m l start = true) :
    ∃ value dones b, muxSwitches sig tree m l start = some (value, dones, b) ∧ Tidy b ∧
      Extends start b ∧ Within b value ∧ value.length = sig.length ∧
      (∀ c, c ∉ sig →
        dones.map (fun sw => onlySwitch c sw.rule) = l.map (fun sw => onlySwitch c sw.rule)) ∧
      (∀ sw ∈ dones, Fits owner (Later live sig) sw ∧
        ∀ c ∈ sw.cases, Ready owner (Later live sig) c) ∧
      ∀ v y, (∀ sw ∈ l, sw.rule.Truthful v ∧ ∀ c, sw.rule.cases.find?
          (CaseRule.matches v sw.rule.signal) = some c → Honest v c) →
        Solves v y b.cells → ∀ s, Tracks v y sig m s →
        Tracks v y sig value (execSwitches v (l.map WorkSwitch.rule) s) := by
  induction l generalizing m start with
  | nil =>
    refine ⟨m, [], start, rfl, tidy, Extends.refl start, within, length, fun _ _ => rfl, by simp,
      fun v y _ _ s tracks => ?_⟩
    exact tracks
  | cons sw rest ih =>
    rw [forall_mem_cons] at prepared
    rw [attachedSwitches, Bool.and_eq_true] at attached
    obtain ⟨value₁, done, b₁, run₁, tidy₁, ext₁, within₁, length₁, here⟩ :=
      muxSwitch_spec snippet prepared.1 tidy within length attached.1
    have later := attached.2
    rw [run₁, Option.all_some] at later
    obtain ⟨value₂, dones, b₂, run₂, tidy₂, ext₂, within₂, length₂, only, ready', denotes⟩ :=
      ih prepared.2 tidy₁ within₁ length₁ later
    refine ⟨value₂, done :: dones, b₂, ?_, tidy₂, ext₁.trans ext₂, within₂, length₂,
      fun c other => ?_, fun s member => ?_, fun v y honest solves s tracks => ?_⟩
    · rw [muxSwitches, run₁]
      simp [run₂]
    · rw [map_cons, map_cons, here.only c other, only c other]
    · rcases mem_cons.mp member with rfl | later
      · exact ⟨here.fits, here.ready⟩
      · exact ready' s later
    · obtain ⟨truthful, taken⟩ := honest sw (by simp)
      refine denotes v y (fun s h => honest s (by simp [h])) solves _ ?_
      exact here.denotes v y truthful taken (Solves.mono solves ext₂.old) s tracks

theorem signalToMuxTree_spec (fuel : Nat) (w : WorkCase) (small : w.rule.size < fuel)
    (ready : Ready owner live w) (plain : w.rule.Every Plain) :
    Builds sig.length (signalToMuxTree sig fuel) (attachedTree sig fuel) (CaseDone owner live sig)
      w := by
  induction fuel generalizing w with
  | zero => omega
  | succ fuel ih =>
    intro defval start tidy within length attached
    rw [CaseRule.every_iff, rule_switches, forall_mem_map] at plain
    have each : ∀ sw ∈ w.switches, ∀ c ∈ (fillSwitch sw).cases,
        Builds sig.length (signalToMuxTree sig fuel) (attachedTree sig fuel)
          (CaseDone owner live sig) c := by
      intro sw member c inside
      have rules : (fillSwitch sw).cases.map WorkCase.rule = sw.cases.map WorkCase.rule := by
        rw [← rule_cases, ← rule_cases, fillSwitch_rule]
      obtain ⟨old, inOld, same⟩ := mem_map.mp (rules ▸ mem_map_of_mem inside)
      have inRule : c.rule ∈ sw.rule.cases := by
        rw [rule_cases, ← same]
        exact mem_map_of_mem inOld
      refine ih c ?_ ?_ ((SwitchRule.every_iff.mp (plain sw member)).2 c.rule inRule)
      · have smaller := size_below member inOld
        rw [same] at smaller
        omega
      · exact (ready_fillSwitch (ready.fits sw member) (ready.cases sw member)).2 c inside
    obtain ⟨value, dones, b, run, tidy', ext, within', length', only, ready', denotes⟩ :=
      muxSwitches_spec snippet (fun sw member => ⟨ready.fits sw member, ready.cases sw member,
        (SwitchRule.every_iff.mp (plain sw member)).1, each sw member⟩) tidy
        (within_actions within w.actions) (length_actions length w.actions) attached
    refine ⟨value, { w with actions := w.actions.map (removeSig sig), switches := dones }, b, ?_,
      tidy', ext, within', length', fun c other => ?_, ?_, fun v y honest solves s tracks => ?_⟩
    · rw [signalToMuxTree, run]
      rfl
    · rw [WorkCase.rule_eq, WorkCase.rule_eq w, onlyCase_eq, onlyCase_eq, map_map, map_map, map_map]
      have actions : w.actions.map (onlyAction c ∘ removeSig sig) = w.actions.map (onlyAction c) :=
        map_congr_left fun a _ => onlyAction_remove other a
      have switches : dones.map (onlySwitch c ∘ WorkSwitch.rule) =
          w.switches.map (onlySwitch c ∘ WorkSwitch.rule) := only c other
      rw [actions, switches]
    · exact .mk (fun sw member => (ready' sw member).1) (fun sw member => (ready' sw member).2)
    · rw [CaseRule.exec_eq, rule_switches, rule_actions]
      refine denotes v y (fun sw member => ?_) solves _ (tracks.actions w.actions)
      have inRule : sw.rule ∈ w.rule.switches := by
        rw [rule_switches]
        exact mem_map_of_mem member
      exact ⟨honest.truthful sw.rule inRule, fun c found => honest.taken inRule found⟩

end

end ManticoreFrontend.Passes.ProcMuxTrees
