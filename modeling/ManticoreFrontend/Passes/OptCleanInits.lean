/- source: kernel/ffinit.h, passes/opt/opt_clean.cc
   digest: The initial values that removed flip-flops take out of the wire attributes. -/

import ManticoreFrontend.Passes.OptCleanCells

namespace ManticoreFrontend.Passes.OptCleanInits

open Kernel Constants CellTypes Signals OptCleanKeep OptCleanCells List

variable {mod : AttrModule}

/-- An init attribute counts for a wire where it is defined. -/
def counts (b : SigBit) (e : SigBit × State × SigBit) : Bool :=
  decide (e.1 = b) && (decide (e.2.1 = .S0) || decide (e.2.1 = .S1) || !e.1.isWire)

/-- The initial value of a bit, by the first attribute that gives one. -/
def initValue (mod : AttrModule) (b : SigBit) : State :=
  (((initCandidates mod).find? (counts b)).map (fun e => e.2.1)).getD .Sx

variable {bits : InitBits} {map : SigBit → SigBit} {b : SigBit} {bits' : InitBits}

variable {e : SigBit × State × SigBit}

theorem enterInit_lookup (entered : enterInit bits e = some bits')
    (b : SigBit) : bits'.lookup b = (bits.lookup b).or (if counts b e then some e.2 else none) := by
  unfold enterInit at entered
  split at entered
  · rename_i skip
    obtain rfl := Option.some.inj entered
    have ignored : counts b e = false := by
      simp only [Bool.and_eq_true, Bool.not_eq_true', Bool.or_eq_false_iff] at skip
      simp [counts, skip]
    simp [ignored]
  · rename_i value
    have valid : (decide (e.2.1 = .S0) || decide (e.2.1 = .S1) || !e.1.isWire) = true := by
      rw [← Bool.not_not (decide (e.2.1 = .S0) || decide (e.2.1 = .S1)), ← Bool.not_and]
      simpa only [Bool.not_eq_true', Bool.not_eq_true] using value
    split at entered
    · rename_i known found
      split at entered
      · obtain rfl := Option.some.inj entered
        by_cases same : e.1 = b
        · subst same
          simp [found]
        · simp [counts, same]
      · cases entered
    · obtain rfl := Option.some.inj entered
      rw [lookup_append]
      congr 1
      by_cases same : e.1 = b
      · subst same
        have here : counts e.1 e = true := by simp [counts, valid]
        simpa [here] using lookup_cons_self (k := e.1) (b := e.2)
      · have here : counts b e = false := by simp [counts, same]
        simpa [here] using Ne.symm same

theorem foldlM_lookup {candidates : InitBits}
    (entered : candidates.foldlM enterInit bits = some bits') (b : SigBit) :
    bits'.lookup b = (bits.lookup b).or ((candidates.find? (counts b)).map Prod.snd) := by
  induction candidates generalizing bits with
  | nil =>
    obtain rfl : bits = bits' := by simpa using entered
    simp
  | cons e candidates ih =>
    obtain ⟨middle, first, rest⟩ := Option.bind_eq_some_iff.mp entered
    rw [ih rest, enterInit_lookup first b, Option.or_assoc]
    cases here : counts b e <;> simp [here]

theorem ffInitVals_value (entered : ffInitVals mod = some bits) (b : SigBit) :
    ((bits.lookup b).map Prod.fst).getD .Sx = initValue mod b := by
  rw [foldlM_lookup entered b, initValue]
  cases (initCandidates mod).find? (counts b) <;> simp

/-- Every entry names a wire bit of its class. -/
def Owned (map : SigBit → SigBit) (bits : InitBits) : Prop := ∀ e ∈ bits, map e.2.2 = e.1

theorem owned_candidates : Owned (sigmap mod) (initCandidates mod) := by
  intro e member
  simp only [initCandidates, mem_flatMap] at member
  obtain ⟨w, -, member⟩ := member
  split at member
  · obtain ⟨x, -, rfl⟩ := mem_map.mp member
    rfl
  · cases member

theorem enterInit_mem (entered : enterInit bits e = some bits')
    {x : SigBit × State × SigBit} (member : x ∈ bits') : x ∈ bits ∨ x = e := by
  unfold enterInit at entered
  split at entered
  · obtain rfl := Option.some.inj entered
    exact .inl member
  · split at entered
    · split at entered
      · obtain rfl := Option.some.inj entered
        exact .inl member
      · cases entered
    · obtain rfl := Option.some.inj entered
      simpa using member

theorem owned_ffInitVals (entered : ffInitVals mod = some bits) : Owned (sigmap mod) bits := by
  have general : ∀ candidates bits bits' : InitBits, candidates.foldlM enterInit bits = some bits' →
      Owned (sigmap mod) candidates → Owned (sigmap mod) bits → Owned (sigmap mod) bits' := by
    intro candidates
    induction candidates with
    | nil =>
      intro bits bits' entered _ owned
      obtain rfl : bits = bits' := by simpa using entered
      exact owned
    | cons e candidates ih =>
      intro bits bits' entered all owned
      obtain ⟨middle, first, rest⟩ := Option.bind_eq_some_iff.mp entered
      apply ih middle bits' rest (fun x member => all x (mem_cons_of_mem _ member))
      intro x member
      rcases enterInit_mem first member with before | rfl
      · exact owned x before
      · exact all x (mem_cons_self ..)
  exact general _ _ _ entered owned_candidates (fun e member => by cases member)

theorem filter_zip_set (p : SigBit × State → Bool) (s : State) :
    ∀ (sig : SigSpec) (c : Const) (i : Nat), (∀ b, sig[i]? = some b → ∀ s, p (b, s) = false) →
      (sig.zip (c.set i s)).filter p = (sig.zip c).filter p := by
  intro sig
  induction sig with
  | nil => simp
  | cons b sig ih =>
    intro c i hidden
    cases c with
    | nil => simp
    | cons s' c =>
      cases i with
      | zero => simp [hidden b rfl]
      | succ i =>
        have rest := ih c i hidden
        simp [filter_cons, rest]

def wireCandidates (map : SigBit → SigBit) (w : Wire) (attributes : Attributes) : InitBits :=
  match attributes.lookup .init with
  | some initval => ((SigSpec.ofWire w).zip initval).map fun e => (map e.1, e.2, e.1)
  | none => []

theorem initCandidates_eq (mod : AttrModule) :
    initCandidates mod =
      mod.wires.flatMap (fun w => wireCandidates (sigmap mod) w (mod.wireAttributes w)) := rfl

theorem lookup_filter_ne (attributes : Attributes) :
    (attributes.filter (fun e => e.1 ≠ .init)).lookup .init = none := by
  rw [lookup_eq_none_iff]
  intro e member
  obtain ⟨-, other⟩ := mem_filter.mp member
  have differs : e.1 ≠ .init := by simpa using other
  simpa using differs.symm

theorem lookup_map_init (attributes : Attributes) (initval : Const)
    (known : (attributes.lookup .init).isSome = true) :
    (attributes.map (fun e => if e.1 = .init then (.init, initval) else e)).lookup .init =
      some initval := by
  induction attributes with
  | nil => cases known
  | cons e rest ih =>
    obtain ⟨key, value⟩ := e
    by_cases same : key = .init
    · subst same
      simp
    · have other : (AttrId.init == key) = false := by simpa using Ne.symm same
      rw [lookup_cons, other] at known
      rw [map_cons, if_neg same, lookup_cons, other]
      exact ih known

theorem wireCandidates_clear {w : Wire} {offset : Fin w.width} {attributes : Attributes}
    (wire : b.isWire = true) (other : map (.wire w offset) ≠ b) :
    (wireCandidates map w (clearAttr attributes offset)).filter (counts b) =
      (wireCandidates map w attributes).filter (counts b) := by
  unfold clearAttr
  cases found : attributes.lookup .init with
  | none => rfl
  | some initval =>
    have hidden : ∀ x, (SigSpec.ofWire w)[offset.val]? = some x → ∀ s,
        counts b (map x, s, x) = false := by
      intro x here s
      have same : x = .wire w offset := by
        simpa [SigSpec.ofWire] using here.symm
      rw [same]
      simp [counts, other]
    have cleared : (((SigSpec.ofWire w).zip (initval.set offset .Sx)).map
        (fun e => (map e.1, e.2, e.1))).filter (counts b) =
          (((SigSpec.ofWire w).zip initval).map (fun e => (map e.1, e.2, e.1))).filter (counts b) := by
      rw [filter_map, filter_map]
      congr 1
      exact filter_zip_set _ .Sx _ _ _ hidden
    simp only
    split
    · rename_i undef
      have none : wireCandidates map w (attributes.filter (fun e => e.1 ≠ .init)) = [] := by
        simp only [wireCandidates, lookup_filter_ne]
      rw [none]
      simp only [wireCandidates, found, ← cleared]
      symm
      rw [filter_nil, filter_eq_nil_iff]
      intro e member
      obtain ⟨x, inside, rfl⟩ := mem_map.mp member
      have value : x.2 = .Sx ∨ x.2 = .Sz := by
        have := all_eq_true.mp undef x.2 (of_mem_zip inside).2
        simpa using this
      by_cases same : map x.1 = b
      · rcases value with value | value <;> simp [counts, value, same, wire]
      · simp [counts, same]
    · simp only [wireCandidates, found,
        lookup_map_init attributes (initval.set offset .Sx) (by simp [found])]
      exact cleared

variable {s : InitBits × (Wire → Attributes)}

theorem removeInitBit_keeps {bit : SigBit}
    (owned : Owned map s.1) (wire : b.isWire = true) (other : map bit ≠ b) (w : Wire) :
    (wireCandidates map w ((removeInitBit map s bit).2 w)).filter (counts b) =
      (wireCandidates map w (s.2 w)).filter (counts b) := by
  unfold removeInitBit
  split
  · rfl
  · rename_i v abit found
    have member : (map bit, v, abit) ∈ s.1 := lookup_mem found
    have joined : map abit = map bit := owned _ member
    cases abit with
    | const data => rfl
    | wire w' offset =>
      by_cases same : w = w'
      · subst same
        simp only [clearInit, if_true]
        exact wireCandidates_clear wire (by rw [joined]; exact other)
      · simp [clearInit, same]

theorem removeInitBit_owned (owned : Owned map s.1)
    (bit : SigBit) : Owned map (removeInitBit map s bit).1 := by
  unfold removeInitBit
  split
  · exact owned
  · intro e member
    obtain ⟨x, inside, rfl⟩ := mem_map.mp member
    have here := owned x inside
    split <;> exact here

theorem removeBits_keeps (wire : b.isWire = true) (w : Wire) (bits : List SigBit)
    (s : InitBits × (Wire → Attributes)) (owned : Owned map s.1)
    (others : ∀ bit ∈ bits, map bit ≠ b) :
    (wireCandidates map w ((bits.foldl (removeInitBit map) s).2 w)).filter (counts b) =
      (wireCandidates map w (s.2 w)).filter (counts b) := by
  induction bits generalizing s with
  | nil => rfl
  | cons bit bits ih =>
    rw [foldl_cons, ih _ (removeInitBit_owned owned bit)
      (fun x member => others x (mem_cons_of_mem _ member))]
    exact removeInitBit_keeps owned wire (others bit (mem_cons_self ..)) w

theorem remove_initValue {t : CellTables} {work : Work} (entered : ffInitVals mod = some bits)
    (wire : b.isWire = true)
    (others : ∀ cell ∈ work.unused, t.ff cell.type = true →
      ∀ q ∈ (cell.getPort .Q).getD [], sigmap mod q ≠ b) :
    initValue (remove t mod bits work) b = initValue mod b := by
  have same : ∀ w, (wireCandidates (sigmap mod) w ((remove t mod bits work).wireAttributes w)).filter
      (counts b) = (wireCandidates (sigmap mod) w (mod.wireAttributes w)).filter (counts b) := by
    intro w
    apply removeBits_keeps wire w _ _ (owned_ffInitVals entered)
    intro q member
    obtain ⟨cell, unused, member⟩ := mem_flatMap.mp member
    split at member
    · rename_i ff
      exact others cell unused ff q member
    · cases member
  unfold initValue
  rw [← head?_filter, ← head?_filter, initCandidates_eq, initCandidates_eq,
    filter_flatMap, filter_flatMap]
  have maps : sigmap (remove t mod bits work) = sigmap mod := rfl
  simp only [maps, same]
  rfl

end ManticoreFrontend.Passes.OptCleanInits
