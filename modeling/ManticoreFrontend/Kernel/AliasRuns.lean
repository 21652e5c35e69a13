/- source: kernel/sigtools.h
   digest: The representatives of aliased bits after any additions and promotions, and for the
     connections of a module the source at the end of each chain. -/

import ManticoreFrontend.Kernel.SigTools
import ManticoreFrontend.Kernel.UnionRuns

namespace ManticoreFrontend.Kernel.AliasRuns

open Relation Foundation.Representatives Signals MergeFind SigTools List
open Kernel.UnionRuns (promote find_promote)

def addSig (m : SigMap) (lhs rhs : SigSpec) : SigMap :=
  (lhs.zip rhs).foldl (fun m p => addBit m p.1 p.2) m

/-- `SigMap::add` on a bit, which promotes it unless its class has a constant. -/
def promoteBit (m : SigMap) (bit : SigBit) : SigMap :=
  if (m.find bit).isWire then promote m bit else m

def ignored (m : SigMap) (p : SigBit × SigBit) : Bool :=
  !(m.find p.1).isWire && !(m.find p.2).isWire && m.find p.1 != m.find p.2

/-- The pairs of an addition that are not ignored, each judged when its turn comes. -/
def heeded (m : SigMap) : List (SigBit × SigBit) → List (SigBit × SigBit)
  | [] => []
  | p :: l => (if ignored m p then [] else [p]) ++ heeded (addBit m p.1 p.2) l

/-- The maps after any sequence of additions and promotions, with the heeded pairs. -/
inductive Reached : SigMap → List (SigBit × SigBit) → Prop
  | start : Reached {} []
  | add {m : SigMap} {pairs : List (SigBit × SigBit)} (before : Reached m pairs)
      (lhs rhs : SigSpec) (length : lhs.length = rhs.length) :
      Reached (addSig m lhs rhs) (pairs ++ heeded m (lhs.zip rhs))
  | promote {m : SigMap} {pairs : List (SigBit × SigBit)} (before : Reached m pairs) (bit : SigBit) :
      Reached (promoteBit m bit) pairs

variable {m : SigMap} {pairs : List (SigBit × SigBit)}

/-- What every addition keeps: the classes are those of the heeded pairs, and constants stand for
themselves. -/
structure Canonical (m : SigMap) (pairs : List (SigBit × SigBit)) : Prop where
  valid : m.Valid
  classes : Classes m.find pairs
  constants : ∀ c : SigBit, c.isWire = false → m.find c = c

theorem Canonical.addBit (h : Canonical m pairs) (lhs rhs : SigBit) :
    Canonical (SigTools.addBit m lhs rhs) (pairs ++ if ignored m (lhs, rhs) then [] else [(lhs, rhs)]) := by
  obtain ⟨valid, moved⟩ := addBit_find h.valid lhs rhs
  have constants : ∀ c : SigBit, c.isWire = false → (SigTools.addBit m lhs rhs).find c = c :=
    fun c constant => (moved c).trans (joined_constant (h.constants c constant) constant)
  cases wireL : (m.find lhs).isWire with
  | true =>
    have move : ∀ x, (SigTools.addBit m lhs rhs).find x =
        if m.find x = m.find lhs then m.find rhs else m.find x := by
      intro x
      rw [moved, joined, if_pos wireL]
    have heed : ignored m (lhs, rhs) = false := by simp [ignored, wireL]
    rw [heed]
    exact ⟨valid, h.classes.unite (unites_of_move move), constants⟩
  | false =>
    cases wireR : (m.find rhs).isWire with
    | true =>
      have move : ∀ x, (SigTools.addBit m lhs rhs).find x =
          if m.find x = m.find rhs then m.find lhs else m.find x := by
        intro x
        rw [moved, joined, if_neg (by simp [wireL]), if_pos wireR]
      have heed : ignored m (lhs, rhs) = false := by simp [ignored, wireR]
      rw [heed]
      exact ⟨valid, h.classes.unite (unites_of_move move).symm, constants⟩
    | false =>
      have same : ∀ x, (SigTools.addBit m lhs rhs).find x = m.find x := by
        intro x
        rw [moved, joined, if_neg (by simp [wireL]), if_neg (by simp [wireR])]
      have kept : Classes (SigTools.addBit m lhs rhs).find pairs :=
        h.classes.congr (fun x y => by rw [same, same])
      by_cases equal : m.find lhs = m.find rhs
      · have heed : ignored m (lhs, rhs) = false := by simp [ignored, equal]
        rw [heed]
        exact ⟨valid, kept.absorb (by rw [same, same, equal]), constants⟩
      · have skip : ignored m (lhs, rhs) = true := by simp [ignored, wireL, wireR, equal]
        rw [skip]
        exact ⟨valid, by simpa using kept, constants⟩

theorem Canonical.addPairs (h : Canonical m pairs) (l : List (SigBit × SigBit)) :
    Canonical (l.foldl (fun m p => SigTools.addBit m p.1 p.2) m) (pairs ++ heeded m l) := by
  induction l generalizing m pairs with
  | nil => simpa [heeded] using h
  | cons p l ih =>
    have rest := ih (h.addBit p.1 p.2)
    rw [append_assoc] at rest
    exact rest

theorem Canonical.promote (h : Canonical m pairs) (bit : SigBit) :
    Canonical (promoteBit m bit) pairs := by
  unfold promoteBit
  split
  · rename_i wire
    obtain ⟨valid, moved⟩ := find_promote h.valid bit
    refine ⟨valid, h.classes.congr (same_of_promote h.valid.find_idempotent moved), ?_⟩
    intro c constant
    rw [moved]
    exact moved_constant (h.constants c constant) wire constant
  · exact h

theorem Reached.canonical (reached : Reached m pairs) : Canonical m pairs := by
  induction reached with
  | start => exact ⟨Mfp.valid_empty, classes_start, fun _ _ => rfl⟩
  | add _ _ _ _ ih => exact ih.addPairs _
  | promote _ _ ih => exact ih.promote _

variable {l : List (SigBit × SigBit)}

/-- One step along a chain of connections, from a driven bit to its driver. -/
abbrev Drives (l : List (SigBit × SigBit)) : SigBit → SigBit → Prop := fun x y => (x, y) ∈ l

/-- The pairs drive wire bits only, each at most once, and no bit through itself. -/
structure DrivesOnce (l : List (SigBit × SigBit)) : Prop where
  wires : ∀ p ∈ l, p.1.isWire = true
  once : (l.map Prod.fst).Nodup
  acyclic : ∀ x, ¬ TransGen (Drives l) x x

theorem acyclic_of_rank (rank : SigBit → Nat) (falls : ∀ p ∈ l, rank p.2 < rank p.1) (x : SigBit) :
    ¬ TransGen (Drives l) x x := by
  have below : ∀ {a b}, TransGen (Drives l) a b → rank b < rank a := by
    intro a b path
    induction path with
    | single step => exact falls _ step
    | tail _ step ih => exact (falls _ step).trans ih
  intro cycle
  exact Nat.lt_irrefl _ (below cycle)

/-- `y` is the source at the end of the chain of `x`. -/
def Source (l : List (SigBit × SigBit)) (x y : SigBit) : Prop :=
  ReflTransGen (Drives l) x y ∧ ∀ z, (y, z) ∉ l

theorem DrivesOnce.init {p : SigBit × SigBit} (h : DrivesOnce (l ++ [p])) : DrivesOnce l := by
  refine ⟨fun q member => h.wires q (by simp [member]), ?_, fun x cycle => h.acyclic x ?_⟩
  · have once := h.once
    rw [map_append] at once
    exact once.of_append_left
  · exact TransGen.mono (fun a b member => mem_append_left _ member) x x cycle

theorem Source.unique (once : (l.map Prod.fst).Nodup) {x y y' : SigBit} (h : Source l x y)
    (h' : Source l x y') : y = y' := by
  obtain ⟨path, last⟩ := h
  obtain ⟨path', last'⟩ := h'
  induction path using ReflTransGen.head_induction_on with
  | refl =>
    rcases path'.cases_head with same | ⟨z, member, -⟩
    · exact same
    · exact absurd member (last z)
  | @head a c step _ ih =>
    rcases path'.cases_head with rfl | ⟨z, member, rest⟩
    · exact absurd step (last' c)
    · have same : c = z := by
        have pair := inj_on_of_nodup_map once step member rfl
        exact (Prod.mk.inj pair).2
      exact ih (same ▸ rest)

/-- Every bit maps to the source of its chain. A bit that is connected later is still a source, so
it represents its class when its connection comes. -/
theorem find_source (h : DrivesOnce l) :
    (l.foldl (fun m p => addBit m p.1 p.2) ({} : SigMap)).Valid ∧
      ∀ x, Source l x ((l.foldl (fun m p => addBit m p.1 p.2) ({} : SigMap)).find x) := by
  induction l using reverseRecOn with
  | nil => exact ⟨Mfp.valid_empty, fun x => ⟨ReflTransGen.refl, by simp⟩⟩
  | append_singleton l p ih =>
    obtain ⟨valid, source⟩ := ih h.init
    rw [foldl_append, foldl_cons, foldl_nil]
    generalize l.foldl (fun m p => addBit m p.1 p.2) ({} : SigMap) = m at valid source ⊢
    obtain ⟨a, b⟩ := p
    obtain ⟨valid', moved⟩ := addBit_find valid a b
    have undriven : ∀ z, (a, z) ∉ l := by
      intro z member
      have once := h.once
      rw [map_append, nodup_append] at once
      exact once.2.2 a (mem_map.mpr ⟨_, member, rfl⟩) a (by simp) rfl
    have own : m.find a = a := by
      rcases (source a).1.cases_head with same | ⟨z, member, -⟩
      · exact same.symm
      · exact absurd member (undriven z)
    have wire : (m.find a).isWire = true := own.symm ▸ h.wires (a, b) (by simp)
    have grow : ∀ {x y}, ReflTransGen (Drives l) x y → ReflTransGen (Drives (l ++ [(a, b)])) x y :=
      fun path => ReflTransGen.mono (fun _ _ member => mem_append_left _ member) _ _ path
    have step : Drives (l ++ [(a, b)]) a b := by simp
    refine ⟨valid', fun x => ?_⟩
    rw [moved, joined, if_pos wire, own]
    by_cases ends : m.find x = a
    · rw [if_pos ends]
      have path : ReflTransGen (Drives (l ++ [(a, b)])) b (m.find b) := grow (source b).1
      refine ⟨((grow (ends ▸ (source x).1)).tail step).trans path, fun z member => ?_⟩
      rcases mem_append.mp member with before | new
      · exact (source b).2 z before
      · obtain ⟨back, -⟩ := Prod.mk.inj (mem_singleton.mp new)
        exact h.acyclic a (TransGen.head' step (back ▸ path))
    · rw [if_neg ends]
      refine ⟨grow (source x).1, fun z member => ?_⟩
      rcases mem_append.mp member with before | new
      · exact (source x).2 z before
      · exact ends (Prod.mk.inj (mem_singleton.mp new)).1

abbrev allPairs (connections : List Connection) : List (SigBit × SigBit) :=
  connections.flatMap Connection.pairs

theorem apply_source {connections : List Connection} (h : DrivesOnce (allPairs connections))
    (b : SigBit) : Source (allPairs connections) b (apply (set connections) b) := by
  rw [apply, set_eq]
  exact (find_source h).2 b

theorem DrivesOnce.perm {connections connections' : List Connection}
    (h : DrivesOnce (allPairs connections)) (perm : connections'.Perm connections) :
    DrivesOnce (allPairs connections') := by
  have pairs : (allPairs connections').Perm (allPairs connections) := perm.flatMap_right _
  refine ⟨fun p member => h.wires p (pairs.mem_iff.mp member), ?_, fun x cycle => h.acyclic x ?_⟩
  · exact (pairs.map Prod.fst).nodup_iff.mpr h.once
  · exact TransGen.mono (fun a b member => pairs.mem_iff.mp member) x x cycle

/-- The map is canonical. After any additions and promotions two bits map to the same bit exactly
when the heeded pairs relate them, and a class with a constant maps to it. For acyclic connections
with one driver per bit, in any order, each bit maps to the source of its chain, which nothing
drives. -/
theorem sigmap_canonical :
    (∀ m pairs, Reached m pairs →
      (∀ x y, apply m x = apply m y ↔ Joined pairs x y) ∧
      ∀ x c : SigBit, c.isWire = false → Joined pairs x c → apply m x = c) ∧
    (∀ connections, DrivesOnce (allPairs connections) →
      ∀ b, Source (allPairs connections) b (apply (set connections) b) ∧
        ∀ connections', connections'.Perm connections →
          apply (set connections') b = apply (set connections) b) := by
  constructor
  · intro m pairs reached
    have canonical := reached.canonical
    refine ⟨canonical.classes, fun x c constant related => ?_⟩
    exact ((canonical.classes x c).mpr related).trans (canonical.constants c constant)
  · intro connections once b
    refine ⟨apply_source once b, fun connections' perm => ?_⟩
    have pairs : (allPairs connections').Perm (allPairs connections) := perm.flatMap_right _
    obtain ⟨path, last⟩ := apply_source (once.perm perm) b
    have source : Source (allPairs connections) b (apply (set connections') b) :=
      ⟨ReflTransGen.mono (fun _ _ member => pairs.mem_iff.mp member) _ _ path,
        fun z member => last z (pairs.mem_iff.mpr member)⟩
    exact source.unique once.once (apply_source once b)

/-- The wire `y` is connected to the wire `x`, which is connected to the constant one. -/
def constantChain : List Connection :=
  [⟨SigSpec.ofWire ⟨"y", 1, false, true⟩, SigSpec.ofWire ⟨"x", 1, false, false⟩, rfl, by decide⟩,
    ⟨SigSpec.ofWire ⟨"x", 1, false, false⟩, [.const .S1], rfl, by decide⟩]

def chainRank : SigBit → Nat
  | .wire w _ => if w.name = "y" then 2 else 1
  | .const _ => 0

theorem sigmap_canonical_chain :
    (∀ b ∈ SigSpec.ofWire ⟨"y", 1, false, true⟩, apply (set constantChain) b = .const .S1) ∧
    Source (allPairs constantChain) (.wire ⟨"y", 1, false, true⟩ 0) (.const .S1) ∧
    ∃ m pairs, Reached m pairs ∧ apply m (.wire ⟨"x", 1, false, false⟩ 0) = .const .S1 := by
  have once : DrivesOnce (allPairs constantChain) :=
    ⟨by decide, by decide, acyclic_of_rank chainRank (by decide)⟩
  have mapped : ∀ b ∈ SigSpec.ofWire ⟨"y", 1, false, true⟩, apply (set constantChain) b = .const .S1 := by
    decide
  have source := (sigmap_canonical.2 constantChain once (.wire ⟨"y", 1, false, true⟩ 0)).1
  have reached := Reached.start.add (SigSpec.ofWire ⟨"x", 1, false, false⟩) [.const .S1] rfl
  exact ⟨mapped, source, _, _, reached.promote (.wire ⟨"x", 1, false, false⟩ 0), by decide⟩

end ManticoreFrontend.Kernel.AliasRuns
