/- source: passes/proc/proc_mux.cc
   digest: Select bits tell which case is hit, and no two cases of one group are hit at once. -/

import ManticoreFrontend.Passes.ProcMux

namespace ManticoreFrontend.Passes.ProcMuxGroups

open Kernel Constants Calc Nets Signals Processes BitPatterns ProcMux List

def SelectorBit (b : SigBit) : Prop := b.isWire = true ∨ b = .const .S0 ∨ b = .const .S1

instance (b : SigBit) : Decidable (SelectorBit b) := inferInstanceAs (Decidable (_ ∨ _ ∨ _))

/-- The patterns of a case fit the selector. -/
structure Fitting (signal : SigSpec) (compare : List SigSpec) : Prop where
  width : ∀ pattern ∈ compare, signal.length = pattern.length
  bits : ∀ pattern ∈ compare, ∀ b ∈ pattern, PatternBit b

def hit (v : Valuation) (signal : SigSpec) (compare : List SigSpec) : Bool :=
  compare.any (patternMatches v signal)

variable {v : Valuation} {signal pattern : SigSpec} {compare : List SigSpec}

private theorem SelectorBit.state {b : SigBit} (selector : SelectorBit b) :
    ∃ x : Bool, bitState v b = State.ofBool x := by
  rcases selector with wire | rfl | rfl
  · cases b with
    | wire w offset => exact ⟨(v w).getLsbD offset, rfl⟩
    | const s => cases wire
  · exact ⟨false, rfl⟩
  · exact ⟨true, rfl⟩

private theorem SelectorBit.bools {sig : SigSpec} (selector : ∀ b ∈ sig, SelectorBit b) :
    ∃ l : List Bool, sig.map (bitState v) = l.map State.ofBool := by
  refine exists_bools (fun s member => ?_)
  obtain ⟨b, inside, rfl⟩ := mem_map.mp member
  obtain ⟨x, same⟩ := (selector b inside).state (v := v)
  rw [same]
  cases x <;> rfl

private theorem careBits_selector (selector : ∀ b ∈ signal, SelectorBit b)
    (bits : ∀ b ∈ pattern, PatternBit b) :
    ∀ p ∈ careBits signal pattern, SelectorBit p.1 ∧ SelectorBit p.2 := by
  intro p member
  obtain ⟨inside, care⟩ := mem_filter.mp member
  obtain ⟨left, right⟩ := of_mem_zip inside
  have defined : p.2 ≠ .const .Sa := by simpa using care
  refine ⟨selector p.1 left, ?_⟩
  rcases bits p.2 right with wire | zero | one | any
  · exact .inl wire
  · exact .inr (.inl zero)
  · exact .inr (.inr one)
  · exact absurd any defined

private theorem patternMatches_eq (width : signal.length = pattern.length) :
    patternMatches v signal pattern =
      (careBits signal pattern).all (fun p => bitState v p.1 == bitState v p.2) := by
  rw [patternMatches, careBits, all_filter]
  simp only [width, beq_self_eq_true, Bool.true_and]
  refine all_congr rfl (fun p => ?_)
  by_cases any : p.2 = .const .Sa
  · simp [bitMatches, any]
  · simp [bitMatches, any]

private theorem all_eq_beq (l : List (SigBit × SigBit)) :
    l.all (fun p => bitState v p.1 == bitState v p.2) =
      (l.map (bitState v ∘ Prod.fst) == l.map (bitState v ∘ Prod.snd)) := by
  induction l with
  | nil => rfl
  | cons p l ih =>
    rw [all_cons, ih]
    rfl

private theorem ofBool_map_beq (l m : List Bool) :
    (l.map State.ofBool == m.map State.ofBool) = (l == m) := by
  rw [Bool.eq_iff_iff, beq_iff_eq, beq_iff_eq]
  exact (map_injective_iff.mpr State.ofBool_injective).eq_iff

private theorem comparePattern_state (selector : ∀ b ∈ signal, SelectorBit b)
    (bits : ∀ b ∈ pattern, PatternBit b) (width : signal.length = pattern.length) :
    (comparePattern signal pattern).state v = State.ofBool (patternMatches v signal pattern) := by
  have care := careBits_selector selector bits
  rw [patternMatches_eq width]
  unfold comparePattern
  generalize careBits signal pattern = pairs at care ⊢
  split
  · rename_i b
    obtain ⟨x, same⟩ := (care (b, .const .S1) (by simp)).1.state (v := v)
    simp only [Compare.state, all_cons, all_nil, Bool.and_true, same]
    cases x <;> rfl
  · obtain ⟨l, first⟩ := SelectorBit.bools (v := v)
      (forall_mem_map.mpr fun p inside => (care p inside).1)
    obtain ⟨m, second⟩ := SelectorBit.bools (v := v)
      (forall_mem_map.mpr fun p inside => (care p inside).2)
    have length : l.length = m.length := by
      have one := congrArg length first
      have two := congrArg length second
      simp only [length_map] at one two
      omega
    rw [Compare.state, first, second, constEq_bools length, all_eq_beq, ← map_map,
      ← map_map, first, second, ofBool_map_beq]
    rfl

def Idle (signal pattern : SigSpec) : Prop := careBits signal pattern = []

theorem Idle.matches (idle : Idle signal pattern) (width : signal.length = pattern.length) :
    patternMatches v signal pattern = true := by
  rw [patternMatches_eq width, idle]
  rfl

theorem genCmp_spec (fitting : Fitting signal compare) :
    ((∃ pattern ∈ compare, Idle signal pattern) ∧ genCmp signal compare = some none) ∨
      (¬ (∃ pattern ∈ compare, Idle signal pattern) ∧
        genCmp signal compare = some (some (compare.map (comparePattern signal)))) := by
  induction compare with
  | nil => exact .inr ⟨by simp, rfl⟩
  | cons pattern rest ih =>
    have ih := ih ⟨fun p h => fitting.width p (by simp [h]), fun p h => fitting.bits p (by simp [h])⟩
    have width := fitting.width pattern (by simp)
    by_cases idle : Idle signal pattern
    · refine .inl ⟨⟨pattern, by simp, idle⟩, ?_⟩
      rw [genCmp, if_neg (not_not.mpr width), if_pos (by rw [List.isEmpty_iff]; exact idle)]
    · have step : genCmp signal (pattern :: rest) =
          (genCmp signal rest).map (Option.map (comparePattern signal pattern :: ·)) := by
        rw [genCmp, if_neg (not_not.mpr width), if_neg (by rw [List.isEmpty_iff]; exact idle)]
      rcases ih with ⟨some, run⟩ | ⟨none, run⟩
      · refine .inl ⟨?_, by rw [step, run]; rfl⟩
        obtain ⟨p, member, h⟩ := some
        exact ⟨p, by simp [member], h⟩
      · refine .inr ⟨?_, by rw [step, run]; rfl⟩
        rintro ⟨p, member, h⟩
        rcases mem_cons.mp member with rfl | later
        · exact idle h
        · exact none ⟨p, later, h⟩

theorem ctrlState_map (selector : ∀ b ∈ signal, SelectorBit b) (fitting : Fitting signal compare) :
    ctrlState v (compare.map (comparePattern signal)) = State.ofBool (hit v signal compare) := by
  have each : ∀ pattern ∈ compare, (comparePattern signal pattern).state v =
      State.ofBool (patternMatches v signal pattern) := fun pattern member =>
    comparePattern_state selector (fitting.bits pattern member) (fitting.width pattern member)
  have reduced : (constReduceOr ((compare.map (comparePattern signal)).map (Compare.state v)) 1)[0]?.getD
      .Sx = State.ofBool (hit v signal compare) := by
    have states : (compare.map (comparePattern signal)).map (Compare.state v) =
        (compare.map (patternMatches v signal)).map State.ofBool := by
      rw [map_map, map_map]
      exact map_congr_left each
    rw [states, constReduceOr_bools, hit, any_map]
    rfl
  cases compare with
  | nil => exact reduced
  | cons pattern rest =>
    cases rest with
    | nil =>
      rw [map_cons, map_nil, ctrlState, each pattern (by simp)]
      simp [hit]
    | cons pattern' rest => exact reduced

variable {signal : SigSpec}

def Apart (v : Valuation) (signal : SigSpec) (l : List (List SigSpec × Nat)) : Prop :=
  l.Pairwise (fun p q => p.2 = q.2 → ¬ (hit v signal p.1 = true ∧ hit v signal q.1 = true))

private theorem matches_fullyDef {pattern : SigSpec} (defined : isFullyDef pattern = true)
    (matched : patternMatches v signal pattern = true) :
    pattern = (signal.map (bitState v)).map SigBit.const := by
  rw [patternMatches, Bool.and_eq_true, beq_iff_eq] at matched
  obtain ⟨length, all⟩ := matched
  induction signal generalizing pattern with
  | nil =>
    rw [length_eq_zero_iff.mp length.symm]
    rfl
  | cons b signal ih =>
    cases pattern with
    | nil => simp at length
    | cons c pattern =>
      rw [isFullyDef, all_cons, Bool.and_eq_true] at defined
      rw [zip_cons_cons, all_cons, Bool.and_eq_true] at all
      have rest := ih defined.2 (by simpa using length) all.2
      have head : c = .const (bitState v b) := by
        have zeroOne : c = .const .S0 ∨ c = .const .S1 := by simpa using defined.1
        have same := all.1
        rcases zeroOne with rfl | rfl
        · have zero : bitState v b = .S0 := by simpa [bitMatches, bitState] using same
          rw [zero]
        · have one : bitState v b = .S1 := by simpa [bitMatches, bitState] using same
          rw [one]
      rw [rest, head]
      rfl

variable {compares : List (List SigSpec)}

private theorem apart_of_simple (simple : isSimple compares = true) :
    compares.Pairwise (fun c d => ¬ (hit v signal c = true ∧ hit v signal d = true)) := by
  rw [isSimple, Bool.and_eq_true, decide_eq_true_eq, all_eq_true] at simple
  obtain ⟨defined, unique⟩ := simple
  induction compares with
  | nil => exact List.Pairwise.nil
  | cons c rest ih =>
    rw [flatten_cons, nodup_append] at unique
    refine pairwise_cons.mpr ⟨fun d member both => ?_, ih ?_ unique.2.1⟩
    · obtain ⟨p, inC, first⟩ := any_eq_true.mp both.1
      obtain ⟨q, inD, second⟩ := any_eq_true.mp both.2
      have later : q ∈ rest.flatten := mem_flatten.mpr ⟨d, member, inD⟩
      refine unique.2.2 p inC q later ?_
      rw [matches_fullyDef (defined p (by simp [inC])) first, matches_fullyDef (defined q (by
          exact mem_append_right _ later)) second]
    · intro p member
      exact defined p (by
        exact mem_append_right _ member)

variable {pool : BitPatternPool}

private theorem takeAll_sized (sized : Sized pool) (compare : List SigSpec) :
    Sized (takeAll pool compare) ∧ (takeAll pool compare).width = pool.width := by
  rw [takeAll]
  generalize compare.filter isFullyConst = l
  induction l generalizing pool with
  | nil => exact ⟨sized, rfl⟩
  | cons p l ih => exact ih (sized.take p)

private theorem holds_takeAll {compare : List SigSpec} {point : Const} (sized : Sized pool)
    (fits : ∀ p ∈ compare, p.length = pool.width) (holds : Holds (takeAll pool compare) point) :
    Holds pool point ∧ ∀ p ∈ compare, isFullyConst p = true →
      ¬ Inside point (BitPatternPool.sig2bits p) := by
  have all : ∀ l : List SigSpec, ∀ pool : BitPatternPool, Sized pool →
      (∀ p ∈ l, p.length = pool.width) → Holds (l.foldl BitPatternPool.take pool) point →
      Holds pool point ∧ ∀ p ∈ l, ¬ Inside point (BitPatternPool.sig2bits p) := by
    intro l
    induction l with
    | nil => exact fun pool _ _ holds => ⟨holds, by simp⟩
    | cons p l ih =>
      intro pool sized fits holds
      obtain ⟨before, outside⟩ := ih (pool.take p) (sized.take p)
        (fun q h => fits q (by simp [h])) holds
      obtain ⟨first, missed⟩ := holds_take sized (fits p (by simp)) before
      refine ⟨first, fun q member => ?_⟩
      rcases mem_cons.mp member with rfl | later
      · exact missed
      · exact outside q later
  obtain ⟨before, outside⟩ := all (compare.filter isFullyConst) pool sized
    (fun p h => fits p (mem_filter.mp h).1) holds
  exact ⟨before, fun p member const => outside p (mem_filter.mpr ⟨member, const⟩)⟩

private theorem not_hit_of_holds {compare : List SigSpec} (sized : Sized pool)
    (fitting : Fitting signal compare) (pooled : pool.width = signal.length)
    (const : compare.any (fun pat => !isFullyConst pat) = false)
    (holds : Holds (takeAll pool compare) (signal.map (bitState v))) :
    hit v signal compare = false ∧ Holds pool (signal.map (bitState v)) := by
  have fits : ∀ p ∈ compare, p.length = pool.width := fun p h => by
    rw [pooled, fitting.width p h]
  obtain ⟨before, outside⟩ := holds_takeAll sized fits holds
  refine ⟨?_, before⟩
  rw [hit, any_eq_false]
  intro p member matched
  have isConst : isFullyConst p = true := by
    simpa using any_eq_false.mp const p member
  exact outside p member isConst (inside_of_matches isConst (fitting.bits p member) matched)

/-- Behind a case of group `group` the groups grow, and one of that group is hit only at points that
the pool still holds, when no new group was due. -/
private theorem groupsFrom_spec (pool : BitPatternPool) (extra : Bool) (group : Nat)
    (compares : List (List SigSpec)) (sized : Sized pool)
    (pooled : pool.width = signal.length) (fitting : ∀ c ∈ compares, Fitting signal c) :
    (∀ p ∈ compares.zip (groupsFrom signal.length pool extra group compares),
        group ≤ p.2 ∧ (p.2 = group → hit v signal p.1 = true →
          extra = false ∧ Holds pool (signal.map (bitState v)))) ∧
      Apart v signal (compares.zip (groupsFrom signal.length pool extra group compares)) := by
  induction compares generalizing pool extra group with
  | nil => exact ⟨by simp, List.Pairwise.nil⟩
  | cons c rest ih =>
    rw [groupsFrom]
    generalize fresh : (extra || c.isEmpty ||
      c.any fun pat => !isFullyConst pat || !pool.hasAll pat) = new
    let pool' := if new = true then BitPatternPool.ofWidth signal.length else pool
    have sized' : Sized pool' := by
      show Sized (if new = true then BitPatternPool.ofWidth signal.length else pool)
      split
      · exact sized_ofWidth _
      · exact sized
    have pooled' : pool'.width = signal.length := by
      show (if new = true then BitPatternPool.ofWidth signal.length else pool).width = _
      split
      · rfl
      · exact pooled
    have fits := fitting c (by simp)
    obtain ⟨later, apart⟩ := ih (takeAll pool' c) (c.any fun pat => !isFullyConst pat)
      (if new = true then group + 1 else group) (takeAll_sized sized' c).1 ((takeAll_sized sized' c).2.trans pooled')
      (fun d h => fitting d (by simp [h]))
    -- a later hit in the same group excludes a hit of this case
    have clear : ∀ p ∈ rest.zip (groupsFrom signal.length (takeAll pool' c)
          (c.any fun pat => !isFullyConst pat) (if new = true then group + 1 else group) rest),
        p.2 = (if new = true then group + 1 else group) → hit v signal p.1 = true →
        hit v signal c = false ∧ Holds pool' (signal.map (bitState v)) := by
      intro p member same hits
      obtain ⟨const, holds⟩ := (later p member).2 same hits
      exact not_hit_of_holds sized' fits pooled' const holds
    refine ⟨fun p member => ?_, pairwise_cons.mpr ⟨fun p member same both => ?_, apart⟩⟩
    · cases new with
      | true =>
        have above : group + 1 ≤ p.2 := by
          rcases mem_cons.mp member with rfl | member
          · exact Nat.le_refl _
          · exact (later p member).1
        exact ⟨by omega, fun same => by omega⟩
      | false =>
        simp only [Bool.or_eq_false_iff] at fresh
        obtain ⟨⟨noExtra, -⟩, known⟩ := fresh
        rcases mem_cons.mp member with rfl | member
        · refine ⟨Nat.le_refl _, fun _ hits => ⟨noExtra, ?_⟩⟩
          obtain ⟨pat, inC, matched⟩ := any_eq_true.mp hits
          have here : isFullyConst pat = true ∧ pool.hasAll pat = true := by
            simpa using any_eq_false.mp known pat inC
          exact holds_of_hasAll sized (by rw [pooled, fits.width pat inC]) here.2
            (inside_of_matches here.1 (fits.bits pat inC) matched)
        · refine ⟨(later p member).1, fun same hits => ⟨noExtra, ?_⟩⟩
          exact (clear p member same hits).2
    · have missed := (clear p member same.symm both.2).1
      rw [both.1] at missed
      cases missed

theorem pgroups_length (width : Nat) (parallel : Bool) (compares : List (List SigSpec)) :
    (pgroups width parallel compares).length = compares.length := by
  have from' : ∀ (l : List (List SigSpec)) (pool : BitPatternPool) (extra : Bool) (group : Nat),
      (groupsFrom width pool extra group l).length = l.length := by
    intro l
    induction l with
    | nil => exact fun _ _ _ => rfl
    | cons c l ih =>
      intro pool extra group
      rw [groupsFrom]
      simp [ih]
  unfold pgroups
  split
  · exact length_replicate
  · cases compares with
    | nil => rfl
    | cons c rest => exact congrArg (· + 1) (from' rest _ _ _)

private theorem apart_of_pairwise {l : List (List SigSpec)} {groups : List Nat}
    (pairwise : l.Pairwise (fun c d => ¬ (hit v signal c = true ∧ hit v signal d = true))) :
    Apart v signal (l.zip groups) := by
  induction l generalizing groups with
  | nil => exact List.Pairwise.nil
  | cons c l ih =>
    cases groups with
    | nil => exact List.Pairwise.nil
    | cons g groups =>
      obtain ⟨here, rest⟩ := pairwise_cons.mp pairwise
      refine pairwise_cons.mpr ⟨fun p member _ => here p.1 ?_, ih rest⟩
      exact (of_mem_zip member).1

/-- The groups are sound: by the attribute, by different defined patterns, or by the pool. -/
theorem pgroups_apart {parallel : Bool}
    (fitting : ∀ c ∈ compares, Fitting signal c)
    (exclusive : parallel = true →
      compares.Pairwise (fun c d => ¬ (hit v signal c = true ∧ hit v signal d = true))) :
    Apart v signal (compares.zip (pgroups signal.length parallel compares)) := by
  by_cases shared : (parallel || isSimple compares) = true
  · refine apart_of_pairwise ?_
    rcases Bool.or_eq_true_iff.mp shared with attribute' | simple
    · exact exclusive attribute'
    · exact apart_of_simple simple
  · unfold pgroups
    rw [if_neg shared]
    cases compares with
    | nil => exact List.Pairwise.nil
    | cons c rest =>
      have sized := sized_ofWidth signal.length
      have fits := fitting c (by simp)
      obtain ⟨later, apart⟩ := groupsFrom_spec (v := v)
        (takeAll (BitPatternPool.ofWidth signal.length) c)
        (c.any fun pat => !isFullyConst pat) 0 rest (takeAll_sized sized c).1
        (takeAll_sized sized c).2 (fun d h => fitting d (by simp [h]))
      refine pairwise_cons.mpr ⟨fun p member same both => ?_, apart⟩
      obtain ⟨const, holds⟩ := (later p member).2 same.symm both.2
      have missed := (not_hit_of_holds sized fits rfl const holds).1
      rw [both.1] at missed
      cases missed

end ManticoreFrontend.Passes.ProcMuxGroups
