/- source: kernel/bitpattern.h (BitPatternPool)
   digest: Pools of bit patterns with don't-care positions: what is left after patterns were taken. -/

import ManticoreFrontend.Kernel.Processes

namespace ManticoreFrontend.Kernel.BitPatterns

open Constants Signals Processes

/-- Patterns of one width, with `Sa` for a don't-care bit. -/
structure BitPatternPool where
  width : Nat
  database : List Const

namespace BitPatternPool

def ofWidth (width : Nat) : BitPatternPool :=
  { width := width, database := if width > 0 then [List.replicate width .Sa] else [] }

def bit2state : SigBit → State
  | .const .S0 => .S0
  | .const .S1 => .S1
  | _ => .Sa

def sig2bits (sig : SigSpec) : Const := sig.map bit2state

/-- The pool that holds what agrees with the constant bits of a signal. -/
def ofSig (sig : SigSpec) : BitPatternPool :=
  { width := sig.length, database := if sig.length > 0 then [sig2bits sig] else [] }

def matchBits (a b : Const) : Bool :=
  (a.zip b).all (fun p => !(p.1.isDef && p.2.isDef && p.1 != p.2))

variable (pool : BitPatternPool)

def hasAny (sig : SigSpec) : Bool :=
  pool.database.any (matchBits · (sig2bits sig))

def hasAll (sig : SigSpec) : Bool :=
  pool.database.any (fun it => matchBits it (sig2bits sig) &&
    (it.zip (sig2bits sig)).all (fun p => !(!p.2.isDef && p.1.isDef)))

/-- The parts of an entry that differ from the pattern at one don't-care position. -/
def splits (it bits : Const) : List Const :=
  (List.range it.length).filterMap (fun i =>
    if it[i]? ≠ some .Sa ∨ bits[i]? = some .Sa then none
    else some (it.set i (if bits[i]? = some .S1 then .S0 else .S1)))

def take (pool : BitPatternPool) (sig : SigSpec) : BitPatternPool :=
  { pool with database := pool.database.flatMap (fun it =>
      if matchBits it (sig2bits sig) then splits it (sig2bits sig) else [it]) }

end BitPatternPool

open BitPatternPool List

/-- The point agrees with every defined bit of the pattern. -/
def Inside (point pattern : Const) : Prop :=
  point.length = pattern.length ∧
    ∀ (i : Nat) (s p : State), point[i]? = some s → pattern[i]? = some p → p.isDef = true → s = p

variable {point it bits cube : Const} {sig : SigSpec} {pool : BitPatternPool} {i : Nat}

variable {a b : Const}

private theorem exists_getElem? {s : State} (length : a.length = b.length)
    (here : b[i]? = some s) : ∃ t, a[i]? = some t := by
  obtain ⟨inside, -⟩ := List.getElem?_eq_some_iff.mp here
  exact ⟨_, getElem?_eq_getElem (length ▸ inside)⟩

theorem Inside.trans (first : Inside point it) (second : Inside it bits) : Inside point bits := by
  refine ⟨first.1.trans second.1, fun i s p hs hp defined => ?_⟩
  obtain ⟨t, here⟩ := exists_getElem? second.1 hp
  obtain rfl := second.2 i t p here hp defined
  exact first.2 i s t hs here defined

def Apart (a b : Const) : Prop :=
  ∃ (i : Nat) (s t : State),
    a[i]? = some s ∧ b[i]? = some t ∧ s.isDef = true ∧ t.isDef = true ∧ s ≠ t

private theorem mem_zip_iff {α β : Type} {l : List α} {m : List β} {p : α × β} :
    p ∈ l.zip m ↔ ∃ i : Nat, l[i]? = some p.1 ∧ m[i]? = some p.2 := by
  simp only [mem_iff_getElem?, getElem?_zip_eq_some]

theorem matchBits_eq_false_iff : matchBits a b = false ↔ Apart a b := by
  rw [matchBits, all_eq_false]
  constructor
  · rintro ⟨p, member, clash⟩
    obtain ⟨i, first, second⟩ := mem_zip_iff.mp member
    simp only [Bool.not_eq_true, Bool.not_eq_false', Bool.and_eq_true, bne_iff_ne] at clash
    exact ⟨i, p.1, p.2, first, second, clash.1.1, clash.1.2, clash.2⟩
  · rintro ⟨i, s, t, first, second, defS, defT, differ⟩
    exact ⟨(s, t), mem_zip_iff.mpr ⟨i, first, second⟩, by simp [defS, defT, differ]⟩

private theorem matchBits_iff : matchBits a b = true ↔ ¬ Apart a b := by
  rw [← matchBits_eq_false_iff, Bool.not_eq_false]

theorem not_inside_of_unmatched (unmatched : matchBits it bits = false) (inside : Inside point it) :
    ¬ Inside point bits := by
  intro both
  obtain ⟨i, s, t, atIt, atBits, defS, defT, differ⟩ := matchBits_eq_false_iff.mp unmatched
  obtain ⟨x, here⟩ := exists_getElem? inside.1 atIt
  exact differ ((inside.2 i _ s here atIt defS).symm.trans (both.2 i _ t here atBits defT))

private theorem inside_set {f : State} (free : it[i]? = some .Sa) (defined : f.isDef = true) :
    Inside cube (it.set i f) ↔ Inside cube it ∧ cube[i]? = some f := by
  obtain ⟨inIt, -⟩ := List.getElem?_eq_some_iff.mp free
  have there : (it.set i f)[i]? = some f := getElem?_set_self inIt
  constructor
  · rintro ⟨size, agrees⟩
    rw [length_set] at size
    obtain ⟨x, here⟩ := exists_getElem? size free
    refine ⟨⟨size, fun j s p hs hp def' => ?_⟩, by rw [here, agrees i x f here there defined]⟩
    by_cases same : i = j
    · subst same
      rw [free] at hp
      rw [← Option.some.inj hp] at def'
      cases def'
    · exact agrees j s p hs (by rw [getElem?_set_ne same]; exact hp) def'
  · rintro ⟨⟨size, agrees⟩, here⟩
    refine ⟨by rw [length_set]; exact size, fun j s p hs hp def' => ?_⟩
    by_cases same : i = j
    · subst same
      rw [here] at hs
      rw [there] at hp
      exact (Option.some.inj hs).symm.trans (Option.some.inj hp)
    · rw [getElem?_set_ne same] at hp
      exact agrees j s p hs hp def'

theorem opposite {s t : State} (defS : s.isDef = true) (defT : t.isDef = true) (differ : s ≠ t) :
    s = if t = .S1 then .S0 else .S1 := by
  cases s <;> cases t <;> simp_all [State.isDef]

section

variable (defined : ∀ b ∈ bits, b = .S0 ∨ b = .S1 ∨ b = .Sa) (length : it.length = bits.length)

include defined length

theorem mem_splits {part : Const} : part ∈ splits it bits ↔ ∃ i t, it[i]? = some .Sa ∧
      bits[i]? = some t ∧ t.isDef = true ∧ part = it.set i (if t = .S1 then .S0 else .S1) := by
  unfold splits
  rw [mem_filterMap]
  constructor
  · rintro ⟨i, inRange, built⟩
    have inBits : i < bits.length := by
      have := mem_range.mp inRange
      omega
    split at built
    · cases built
    rename_i place
    rw [not_or, not_not, getElem?_eq_getElem inBits] at place
    rw [getElem?_eq_getElem inBits] at built
    simp only [Option.some.injEq] at place built
    refine ⟨i, bits[i], place.1, getElem?_eq_getElem inBits, ?_, built.symm⟩
    rcases defined _ (getElem_mem inBits) with zero | one | any
    · rw [zero]; rfl
    · rw [one]; rfl
    · exact absurd any place.2
  · rintro ⟨i, t, free, care, def', rfl⟩
    obtain ⟨inIt, -⟩ := List.getElem?_eq_some_iff.mp free
    have other : t ≠ .Sa := by
      rintro rfl
      cases def'
    refine ⟨i, mem_range.mpr inIt, ?_⟩
    rw [if_neg (by simp [free, care, other]), care]
    simp only [Option.some.injEq]

private theorem inside_of_split {part : Const} (member : part ∈ splits it bits)
    (inside : Inside point part) : Inside point it ∧ ¬ Inside point bits := by
  obtain ⟨i, t, free, care, def', rfl⟩ := (mem_splits defined length).mp member
  obtain ⟨inIt, flipped⟩ := (inside_set free (by split <;> rfl)).mp inside
  refine ⟨inIt, fun both => ?_⟩
  have same := both.2 i _ t flipped care def'
  cases t <;> simp [State.isDef] at def' same

end

theorem sig2bits_defined : ∀ b ∈ sig2bits sig, b = .S0 ∨ b = .S1 ∨ b = .Sa := by
  intro b member
  obtain ⟨x, -, rfl⟩ := mem_map.mp member
  unfold bit2state
  split <;> simp

def Sized (pool : BitPatternPool) : Prop := ∀ it ∈ pool.database, it.length = pool.width

theorem Sized.length_eq (sized : Sized pool) (width : sig.length = pool.width)
    (inPool : it ∈ pool.database) : it.length = (sig2bits sig).length := by
  rw [sized it inPool, sig2bits, length_map, width]

theorem sized_ofWidth (width : Nat) : Sized (ofWidth width) := by
  intro it member
  unfold ofWidth at member
  split at member
  · rw [mem_singleton.mp member]
    exact length_replicate
  · cases member

theorem Sized.take (sized : Sized pool) (sig : SigSpec) : Sized (pool.take sig) := by
  intro it member
  obtain ⟨entry, inPool, part⟩ := mem_flatMap.mp member
  show it.length = pool.width
  rw [← sized entry inPool]
  split at part
  · obtain ⟨i, -, built⟩ := mem_filterMap.mp part
    split at built
    · cases built
    · rw [← Option.some.inj built, length_set]
  · rw [mem_singleton.mp part]

def Holds (pool : BitPatternPool) (point : Const) : Prop := ∃ it ∈ pool.database, Inside point it

section

variable (sized : Sized pool) (width : sig.length = pool.width)

include sized width

theorem holds_take (holds : Holds (pool.take sig) point) :
    Holds pool point ∧ ¬ Inside point (sig2bits sig) := by
  obtain ⟨part, member, inside⟩ := holds
  obtain ⟨it, inPool, here⟩ := mem_flatMap.mp member
  split at here
  · obtain ⟨inIt, outside⟩ :=
      inside_of_split sig2bits_defined (sized.length_eq width inPool) here inside
    exact ⟨⟨it, inPool, inIt⟩, outside⟩
  · rename_i unmatched
    rw [mem_singleton.mp here] at inside
    exact ⟨⟨it, inPool, inside⟩, not_inside_of_unmatched (by simpa using unmatched) inside⟩

theorem hasAll_iff : pool.hasAll sig = true ↔ Holds pool (sig2bits sig) := by
  rw [hasAll, any_eq_true]
  refine exists_congr fun it => and_congr_right fun inPool => ?_
  rw [Bool.and_eq_true, matchBits_iff, all_eq_true]
  constructor
  · rintro ⟨together, narrow⟩
    refine ⟨(sized.length_eq width inPool).symm, fun i s p hs hp defined => ?_⟩
    have inner := narrow (p, s) (mem_zip_iff.mpr ⟨i, hp, hs⟩)
    simp only [defined, Bool.and_true, Bool.not_not] at inner
    by_contra differ
    exact together ⟨i, p, s, hp, hs, defined, inner, Ne.symm differ⟩
  · rintro ⟨-, agrees⟩
    constructor
    · rintro ⟨i, p, s, hp, hs, defined, -, differ⟩
      exact differ (agrees i s p hs hp defined).symm
    · intro p member
      obtain ⟨i, hp, hs⟩ := mem_zip_iff.mp member
      cases defined : p.1.isDef with
      | false => simp
      | true => rw [agrees i _ _ hs hp defined, defined]; rfl

theorem holds_of_hasAll (has : pool.hasAll sig = true) (inside : Inside point (sig2bits sig)) :
    Holds pool point := by
  obtain ⟨it, inPool, covers⟩ := (hasAll_iff sized width).mp has
  exact ⟨it, inPool, inside.trans covers⟩

end

variable {cube bits : Const} {S : List Bool → Prop}

def Fits (point : List Bool) (sig : SigSpec) : Prop :=
  Inside (point.map State.ofBool) (sig2bits sig)

/-- A vector of both patterns, where they match. -/
def meet (a b : Const) : List Bool :=
  (a.zip b).map (fun p => if p.1.isDef then p.1 == .S1 else p.2 == .S1)

private theorem meet_getElem? {i : Nat} {x : State}
    (h : ((meet a b).map State.ofBool)[i]? = some x) : ∃ s t, a[i]? = some s ∧ b[i]? = some t ∧
      x = State.ofBool (if s.isDef then s == .S1 else t == .S1) := by
  simp only [meet, map_map, getElem?_map, Option.map_eq_some_iff, getElem?_zip_eq_some] at h
  obtain ⟨p, ⟨first, second⟩, rfl⟩ := h
  exact ⟨p.1, p.2, first, second, rfl⟩

theorem inside_meet_left (length : cube.length = bits.length) :
    Inside ((meet cube bits).map State.ofBool) cube := by
  refine ⟨by simp [meet, length], fun i x p hx hp defined => ?_⟩
  obtain ⟨s, t, first, -, rfl⟩ := meet_getElem? hx
  obtain rfl := Option.some.inj (first.symm.trans hp)
  rw [if_pos defined, State.ofBool_of_isDef defined]

private theorem inside_meet_right (length : cube.length = bits.length)
    (matched : matchBits cube bits = true) : Inside ((meet cube bits).map State.ofBool) bits := by
  refine ⟨by simp [meet, length], fun i x p hx hp defined => ?_⟩
  obtain ⟨s, t, first, second, rfl⟩ := meet_getElem? hx
  obtain rfl := Option.some.inj (second.symm.trans hp)
  split
  · rename_i defS
    rw [State.ofBool_of_isDef defS]
    by_contra differ
    exact matchBits_iff.mp matched ⟨i, s, t, first, second, defS, defined, differ⟩
  · exact State.ofBool_of_isDef defined

/-- The pool represents the vectors of `S`. Although only single entries are tested, a pattern
all of whose vectors are in the pool lies in one entry. -/
structure Represents (pool : BitPatternPool) (S : List Bool → Prop) : Prop where
  sized : Sized pool
  proper : ∀ it ∈ pool.database, ∀ s ∈ it, s.isDef = true ∨ s = .Sa
  exact : ∀ point, Holds pool (point.map State.ofBool) ↔ S point
  complete : ∀ cube : Const, cube.length = pool.width →
    (∀ point, Inside (point.map State.ofBool) cube → S point) → Holds pool cube

theorem Represents.congr {pool' : BitPatternPool} (represents : Represents pool S)
    (width : pool'.width = pool.width) (members : ∀ it, it ∈ pool'.database ↔ it ∈ pool.database) :
    Represents pool' S := by
  have holds : ∀ point, Holds pool' point ↔ Holds pool point := by simp [Holds, members]
  refine ⟨fun it member => ?_, fun it member => ?_, fun point => ?_, fun cube length covered => ?_⟩
  · rw [width]
    exact represents.sized it ((members it).mp member)
  · exact represents.proper it ((members it).mp member)
  · rw [holds, represents.exact]
  · rw [holds]
    exact represents.complete cube (length.trans width) covered

private theorem sig2bits_proper : ∀ s ∈ sig2bits sig, s.isDef = true ∨ s = .Sa := by
  intro s member
  rcases sig2bits_defined s member with rfl | rfl | rfl <;> simp [State.isDef]

theorem represents_ofSig (start : SigSpec) (nonempty : start ≠ []) :
    Represents (ofSig start) (Fits · start) := by
  have database : (ofSig start).database = [sig2bits start] :=
    if_pos (length_pos_iff.mpr nonempty)
  refine ⟨?_, ?_, fun point => ?_, fun cube length covered => ?_⟩
  · simp [Sized, ofSig, sig2bits]
  · simp only [database, mem_singleton, forall_eq]
    exact sig2bits_proper
  · simp [Holds, database, Fits]
  · -- The vector of the cube that takes the other value wherever it may.
    have length' : cube.length = ((sig2bits start).map fun t =>
        if t = .S1 then State.S0 else .S1).length := by
      simp [length, ofSig, sig2bits]
    have inCube := inside_meet_left length'
    have inStart := covered _ inCube
    refine ⟨sig2bits start, by simp [database], by simpa using length', fun i s p hs hp defined => ?_⟩
    obtain ⟨x, hx⟩ := exists_getElem? inCube.1 hs
    have value := inStart.2 i x p hx hp defined
    obtain ⟨s', t, first, second, same⟩ := meet_getElem? hx
    obtain rfl := Option.some.inj (first.symm.trans hs)
    rw [getElem?_map, hp] at second
    cases defS : s'.isDef with
    | true => rw [← value, same, defS, if_pos rfl, State.ofBool_of_isDef defS]
    | false =>
      rw [value, defS] at same
      rw [← Option.some.inj second] at same
      cases p <;> simp [State.isDef, State.ofBool] at defined same

private theorem Holds.take (represents : Represents pool S) (width : sig.length = pool.width)
    (holds : Holds pool cube) (apart : Apart cube (sig2bits sig)) : Holds (pool.take sig) cube := by
  obtain ⟨it, inPool, inside⟩ := holds
  cases matched : matchBits it (sig2bits sig) with
  | false => exact ⟨it, mem_flatMap.mpr ⟨it, inPool, by simp [matched]⟩, inside⟩
  | true =>
    obtain ⟨i, s, t, here, there, defS, defT, differ⟩ := apart
    obtain ⟨p, atIt⟩ := exists_getElem? inside.1.symm here
    have free : p = .Sa := by
      rcases represents.proper it inPool p (mem_of_getElem? atIt) with defined | free
      · refine absurd ?_ (matchBits_iff.mp matched)
        rw [inside.2 i s p here atIt defined] at defS differ
        exact ⟨i, p, t, atIt, there, defS, defT, differ⟩
      · exact free
    subst free
    have length := represents.sized.length_eq width inPool
    refine ⟨it.set i s, mem_flatMap.mpr ⟨it, inPool, ?_⟩, (inside_set atIt defS).mpr ⟨inside, here⟩⟩
    rw [if_pos matched, mem_splits sig2bits_defined length]
    exact ⟨i, t, atIt, there, defT, by rw [← opposite defS defT differ]⟩

theorem BitPatternPool.mem_take : it ∈ (pool.take sig).database ↔
    (it ∈ pool.database ∧ matchBits it (sig2bits sig) = false) ∨
      ∃ y ∈ pool.database, matchBits y (sig2bits sig) = true ∧ it ∈ splits y (sig2bits sig) := by
  rw [BitPatternPool.take, mem_flatMap]
  constructor
  · rintro ⟨y, inPool, here⟩
    split at here
    · rename_i matched
      exact .inr ⟨y, inPool, matched, here⟩
    · rename_i unmatched
      obtain rfl := mem_singleton.mp here
      exact .inl ⟨inPool, by simpa using unmatched⟩
  · rintro (⟨inPool, unmatched⟩ | ⟨y, inPool, matched, here⟩)
    · exact ⟨it, inPool, by simp [unmatched]⟩
    · exact ⟨y, inPool, by simpa [matched] using here⟩

theorem Represents.take (represents : Represents pool S) (width : sig.length = pool.width) :
    Represents (pool.take sig) (fun point => S point ∧ ¬ Fits point sig) := by
  have size : (sig2bits sig).length = pool.width := by rw [sig2bits, length_map, width]
  refine ⟨represents.sized.take sig, fun it member s inIt => ?_, fun point => ?_,
    fun cube length covered => ?_⟩
  · obtain ⟨entry, inPool, part⟩ := mem_flatMap.mp member
    have proper := represents.proper entry inPool
    split at part
    · have length := represents.sized.length_eq width inPool
      obtain ⟨i, t, -, -, -, rfl⟩ := (mem_splits sig2bits_defined length).mp part
      rcases mem_or_eq_of_mem_set inIt with old | rfl
      · exact proper s old
      · left
        split <;> rfl
    · rw [mem_singleton.mp part] at inIt
      exact proper s inIt
  · rw [← represents.exact]
    refine ⟨holds_take represents.sized width, fun h => Holds.take represents width h.1 ?_⟩
    obtain ⟨⟨it, inPool, inside⟩, outside⟩ := h
    by_contra together
    refine outside ⟨inside.1.trans (represents.sized.length_eq width inPool), ?_⟩
    intro i x p hx hp defined
    by_contra differ
    rw [getElem?_map, Option.map_eq_some_iff] at hx
    obtain ⟨b, hb, rfl⟩ := hx
    exact together ⟨i, _, p, by rw [getElem?_map, hb]; rfl, hp, State.ofBool_isDef b, defined, differ⟩
  · have holds := represents.complete cube length fun point inside => (covered point inside).1
    refine Holds.take represents width holds (matchBits_eq_false_iff.mp ?_)
    by_contra matched
    have length' := length.trans size.symm
    exact (covered _ (inside_meet_left length')).2
      (inside_meet_right length' (by simpa using matched))

theorem hasAny_iff (represents : Represents pool S) (width : sig.length = pool.width) :
    pool.hasAny sig = true ↔ ∃ point, S point ∧ Fits point sig := by
  rw [hasAny, any_eq_true]
  constructor
  · rintro ⟨it, inPool, matched⟩
    have length := represents.sized.length_eq width inPool
    exact ⟨_, (represents.exact _).mp ⟨it, inPool, inside_meet_left length⟩,
      inside_meet_right length matched⟩
  · rintro ⟨point, left, fits⟩
    obtain ⟨it, inPool, inside⟩ := (represents.exact point).mpr left
    refine ⟨it, inPool, ?_⟩
    by_contra unmatched
    exact not_inside_of_unmatched (by simpa using unmatched) inside fits

variable {v : Valuation} {signal pattern : SigSpec}

/-- Bits that a pattern may have: zero, one, don't care, or a bit of a wire. -/
def PatternBit (b : SigBit) : Prop :=
  b.isWire = true ∨ b = .const .S0 ∨ b = .const .S1 ∨ b = .const .Sa

instance (b : SigBit) : Decidable (PatternBit b) :=
  inferInstanceAs (Decidable (_ ∨ _ ∨ _ ∨ _))

theorem inside_of_matches (const : isFullyConst pattern = true)
    (bits : ∀ b ∈ pattern, PatternBit b) (hit : patternMatches v signal pattern = true) :
    Inside (signal.map (bitState v)) (sig2bits pattern) := by
  rw [patternMatches, Bool.and_eq_true, beq_iff_eq] at hit
  obtain ⟨length, all⟩ := hit
  refine ⟨by simp [sig2bits, length], fun i s p hs hp defined => ?_⟩
  rw [sig2bits, getElem?_map, Option.map_eq_some_iff] at hp
  rw [getElem?_map, Option.map_eq_some_iff] at hs
  obtain ⟨x, atX, rfl⟩ := hs
  obtain ⟨y, atY, rfl⟩ := hp
  have hits := all_eq_true.mp all (x, y) (mem_zip_iff.mpr ⟨i, atX, atY⟩)
  have member := mem_of_getElem? atY
  have constant : y.isWire = false := by simpa using all_eq_true.mp const y member
  rcases bits y member with wire | zero | one | any
  · rw [wire] at constant
    cases constant
  · subst zero
    simpa [bitMatches, bitState, bit2state] using hits
  · subst one
    simpa [bitMatches, bitState, bit2state] using hits
  · subst any
    cases defined

end ManticoreFrontend.Kernel.BitPatterns
