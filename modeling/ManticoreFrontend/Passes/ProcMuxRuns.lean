/- source: passes/proc/proc_mux.cc
   digest: The pass drives every assigned bit once, with the value of the decision tree, when every
     appended case is attached; otherwise a case can be lost. -/

import ManticoreFrontend.Passes.ProcMuxTrees

namespace ManticoreFrontend.Passes.ProcMuxRuns

open Kernel Constants Signals Processes ProcMux ProcMuxSnippets ProcMuxBits ProcMuxCells ProcMuxTables
open ProcMuxTrees List

theorem insertLefts_total (lefts : List SigSpec) {s : SigSnippets} (partition : Partition s) :
    ∃ s' bound, (∀ fuel, bound ≤ fuel →
        lefts.foldlM (fun s sig => insertSig fuel sig s) s = some s') ∧
      Partition s' ∧ ∀ b, Owned s' b ↔ Owned s b ∨ b ∈ lefts.flatten := by
  induction lefts generalizing s with
  | nil => exact ⟨s, 0, fun _ _ => rfl, partition, by simp⟩
  | cons sig lefts ih =>
    obtain ⟨s₁, ends⟩ := insertSig_total partition sig
    have put := ends.inserts partition
    obtain ⟨s₂, bound₂, run₂, partition₂, owned₂⟩ := ih put.partition
    obtain ⟨bound₁, run₁⟩ := ends
    refine ⟨s₂, max bound₁ bound₂, fun fuel enough => ?_, partition₂, fun b => ?_⟩
    · rw [foldlM_cons, run₁ fuel (by omega)]
      exact run₂ fuel (by omega)
    · rw [owned₂, put.owned, flatten_cons, mem_append, or_assoc]

/-- The snippets that are still to come are nonempty, distinct, and own their bits. -/
structure Waiting (owner : SigBit → Option SigSpec) (l : List SigSpec) : Prop where
  nonempty : ∀ k ∈ l, k ≠ []
  owned : ∀ k ∈ l, ∀ b ∈ k, owner b = some k
  distinct : l.Nodup

def Among (l : List SigSpec) (b : SigBit) : Prop := ∃ k ∈ l, b ∈ k

variable {owner : SigBit → Option SigSpec} {sig : SigSpec} {rest : List SigSpec}

private theorem Waiting.tail (waiting : Waiting owner (sig :: rest)) : Waiting owner rest :=
  ⟨fun k h => waiting.nonempty k (by simp [h]), fun k h => waiting.owned k (by simp [h]),
    (nodup_cons.mp waiting.distinct).2⟩

private theorem Waiting.snippet (waiting : Waiting owner (sig :: rest)) :
    Snippet owner (Among (sig :: rest)) sig :=
  ⟨waiting.nonempty sig (by simp), fun b h => ⟨sig, by simp, h⟩, waiting.owned sig (by simp)⟩

theorem Waiting.later (waiting : Waiting owner (sig :: rest)) {b : SigBit} (among : Among rest b) :
    Later (Among (sig :: rest)) sig b := by
  obtain ⟨k, member, inside⟩ := among
  refine ⟨⟨k, by simp [member], inside⟩, fun here => ?_⟩
  have first := waiting.owned sig (by simp) b here
  rw [waiting.owned k (by simp [member]) b inside] at first
  rw [Option.some.inj first] at member
  exact (nodup_cons.mp waiting.distinct).1 member

variable {root : CaseRule} {rest l : List SigSpec} {m : Muxes}

/-- Between two snippets: for the bits to come the tree and its tables are as at the start. -/
structure Progress (owner : SigBit → Option SigSpec) (root : CaseRule) (l : List SigSpec)
    (m : Muxes) : Prop where
  tidy : Tidy m.builder
  ready : Ready owner (Among l) m.work
  only : ∀ b, Among l b → onlyCase b m.work.rule = onlyCase b root

/-- The bits that the tree does not assign stay undefined. -/
def undefined : Assigned := fun _ => some .Sx

/-- The signal computes for each bit what the decision tree assigns. -/
def Computes (root : CaseRule) (b : Builder) (sig : SigSpec) (value : MuxSig) : Prop :=
  ∀ v y, Honest v root → Solves v y b.cells → Tracks v y sig value (root.exec v undefined)

theorem Computes.extend {b b' : Builder} {value : MuxSig} (computes : Computes root b sig value)
    (ext : Extends b b') : Computes root b' sig value :=
  fun v y honest solves => computes v y honest (Solves.mono solves ext.old)

private theorem tracks_undefined (v : Valuation) (y : Nat → Const) (sig : SigSpec) :
    Tracks v y sig (List.replicate sig.length (.bit (.const .Sx))) undefined := by
  intro i b x _ atM _
  rw [eq_of_mem_replicate (mem_of_getElem? atM)]
  rfl

private theorem within_undefined (b : Builder) (n : Nat) :
    Within b (List.replicate n (.bit (.const .Sx))) := by
  intro cell member
  obtain ⟨index, inside⟩ := mem_reads.mp member
  cases eq_of_mem_replicate inside

private theorem muxSnippet_spec (progress : Progress owner root (sig :: rest) m)
    (waiting : Waiting owner (sig :: rest)) (plain : root.Every Plain)
    (attached : attachedTree sig (m.work.rule.size + 1) m.work
      (List.replicate sig.length (.bit (.const .Sx))) m.builder = true) :
    ∃ value m', muxSnippet m sig = some m' ∧ Progress owner root rest m' ∧
      Extends m.builder m'.builder ∧ value.length = sig.length ∧
      m'.connections = m.connections ++ connect sig value ∧
      Computes root m'.builder sig value := by
  have snippet := waiting.snippet
  obtain ⟨c, inside⟩ := exists_mem_of_ne_nil _ snippet.nonempty
  have same := progress.only c (snippet.live c inside)
  have tree := signalToMuxTree_spec snippet (m.work.rule.size + 1) m.work (Nat.lt_succ_self _)
    progress.ready (every_of_only plain_shaped same.symm plain)
  obtain ⟨value, work, builder, run, tidy, ext, -, length, done⟩ :=
    tree (replicate sig.length (.bit (.const .Sx))) m.builder progress.tidy
      (within_undefined _ _) length_replicate attached
  refine ⟨value, { work, builder, connections := m.connections ++ connect sig value }, ?_,
    ⟨tidy, done.ready.mono (fun b h => waiting.later h), fun b h => ?_⟩, ext, length, rfl,
    fun v y honest solves => ?_⟩
  · rw [muxSnippet, run]
    rfl
  · obtain ⟨live, other⟩ := waiting.later h
    exact (done.only b other).trans (progress.only b live)
  · have honest' : Honest v m.work.rule := by
      rw [← honest_only (b := c), same, honest_only]
      exact honest
    refine (done.denotes v y honest' solves undefined (tracks_undefined v y sig)).agree ?_
    exact fun b member _ => exec_eq_of_only (progress.only b (snippet.live b member)).symm undefined

def attachedSnippets : List SigSpec → Muxes → Bool
  | [], _ => true
  | sig :: rest, m =>
    attachedTree sig (m.work.rule.size + 1) m.work (List.replicate sig.length (.bit (.const .Sx)))
      m.builder && (muxSnippet m sig).all (attachedSnippets rest)

private theorem muxSnippets_spec (progress : Progress owner root l m) (waiting : Waiting owner l)
    (plain : root.Every Plain) (attached : attachedSnippets l m = true) :
    ∃ (done : List (SigSpec × MuxSig)) (m' : Muxes), l.foldlM muxSnippet m = some m' ∧
      Tidy m'.builder ∧ Extends m.builder m'.builder ∧ done.map Prod.fst = l ∧
      (∀ p ∈ done, p.2.length = p.1.length ∧ Computes root m'.builder p.1 p.2) ∧
      m'.connections = m.connections ++ done.flatMap (fun p => connect p.1 p.2) := by
  induction l generalizing m with
  | nil => exact ⟨[], m, rfl, progress.tidy, Extends.refl _, rfl, by simp, by simp⟩
  | cons sig rest ih =>
    rw [attachedSnippets, Bool.and_eq_true] at attached
    obtain ⟨value, m₁, run₁, progress₁, ext₁, length, connected₁, computes⟩ :=
      muxSnippet_spec progress waiting plain attached.1
    have later := attached.2
    rw [run₁, Option.all_some] at later
    obtain ⟨done, m₂, run₂, tidy, ext₂, all, each, connected₂⟩ := ih progress₁ waiting.tail later
    refine ⟨(sig, value) :: done, m₂, ?_, tidy, ext₁.trans ext₂, by rw [map_cons, all],
      fun p member => ?_, ?_⟩
    · rw [foldlM_cons, run₁]
      exact run₂
    · rcases mem_cons.mp member with rfl | member
      · exact ⟨length, computes.extend ext₂⟩
      · exact each p member
    · rw [connected₂, connected₁, flatMap_cons, append_assoc]

def drivers (b : SigBit) (connections : List (List (SigBit × MuxBit))) :
    List (List (SigBit × MuxBit)) :=
  connections.filter (fun c => c.any (fun p => p.1 == b))

variable {b : SigBit} {value : MuxSig}

private theorem drivers_connect (wire : b.isWire = true) (length : value.length = sig.length) :
    (drivers b (connect sig value)).length = if b ∈ sig then 1 else 0 := by
  have firsts : (sig.zip value).map Prod.fst = sig := map_fst_zip (Nat.le_of_eq length.symm)
  have found : ((sig.zip value).filter (fun p => p.1.isWire)).any (fun p => p.1 == b) = true ↔
      b ∈ sig := by
    rw [any_eq_true]
    conv_rhs => rw [← firsts, mem_map]
    constructor
    · rintro ⟨p, member, same⟩
      exact ⟨p, (mem_filter.mp member).1, beq_iff_eq.mp same⟩
    · rintro ⟨p, member, rfl⟩
      exact ⟨p, mem_filter.mpr ⟨member, wire⟩, beq_self_eq_true _⟩
  unfold connect
  simp only
  split
  · rename_i empty
    rw [List.isEmpty_iff] at empty
    rw [empty] at found
    rw [if_neg (fun h => by simpa using found.mpr h)]
    rfl
  · by_cases inside : b ∈ sig
    · rw [if_pos inside, drivers, filter_cons, if_pos (found.mpr inside)]
      rfl
    · rw [if_neg inside, drivers, filter_cons, if_neg (fun h => inside (found.mp h))]
      rfl

private theorem drivers_flatMap (wire : b.isWire = true) {done : List (SigSpec × MuxSig)}
    (lengths : ∀ p ∈ done, p.2.length = p.1.length) :
    (drivers b (done.flatMap (fun p => connect p.1 p.2))).length =
      ((done.map Prod.fst).filter (fun k => decide (b ∈ k))).length := by
  induction done with
  | nil => rfl
  | cons p done ih =>
    have here := drivers_connect wire (lengths p (by simp))
    have later := ih (fun q h => lengths q (by simp [h]))
    rw [drivers] at here later
    rw [drivers, flatMap_cons, filter_append, length_append, here, later, map_cons, filter_cons]
    by_cases inside : b ∈ p.1
    · simp [inside, Nat.add_comm]
    · simp [inside]

private theorem owners_single {s : SigSnippets} (partition : Partition s) (owned : Owned s b)
    {l : List SigSpec} (perm : l.Perm s.snippets) :
    (l.filter (fun k => decide (b ∈ k))).length = 1 := by
  obtain ⟨k, own⟩ := owned
  obtain ⟨member, inside⟩ := (partition.owner b k).mp own
  have single : (l.filter (fun k => decide (b ∈ k))).Perm [k] := by
    have distinct : l.Nodup := perm.nodup_iff.mpr partition.nodup
    rw [perm_ext_iff_of_nodup (distinct.filter _) (nodup_singleton k)]
    intro k'
    rw [mem_filter, decide_eq_true_eq, mem_singleton, perm.mem_iff]
    constructor
    · intro both
      have other := (partition.owner b k').mpr both
      rw [own] at other
      exact (Option.some.inj other).symm
    · rintro rfl
      exact ⟨member, inside⟩
  exact single.length_eq

private theorem mem_connect {c : List (SigBit × MuxBit)} (member : c ∈ connect sig value)
    {p : SigBit × MuxBit} (inside : p ∈ c) :
    p.1.isWire = true ∧ ∃ i : Nat, sig[i]? = some p.1 ∧ value[i]? = some p.2 := by
  unfold connect at member
  simp only at member
  split at member
  · cases member
  · rw [mem_singleton.mp member] at inside
    obtain ⟨inZip, wire⟩ := mem_filter.mp inside
    obtain ⟨i, place⟩ := mem_iff_getElem?.mp inZip
    exact ⟨wire, i, getElem?_zip_eq_some.mp place⟩

/-- The connections implement the decision tree: each assigned bit is driven once, nothing else is
driven, the cells have a solution, and in every one each driven bit has the value that the tree
assigns, undefined where it does not assign it. -/
structure Implements (root : CaseRule) (m : Muxes) : Prop where
  once : ∀ b ∈ root.targets, (drivers b m.connections).length = 1
  targets : ∀ c ∈ m.connections, ∀ p ∈ c, p.1 ∈ root.targets
  solvable : ∀ v, ∃ y, Solves v y m.builder.cells
  value : ∀ v, Honest v root → ∀ y, Solves v y m.builder.cells → ∀ c ∈ m.connections, ∀ p ∈ c,
    p.2.state v y = (root.exec v (fun _ => none) p.1).getD .Sx

private theorem exec_undefined (root : CaseRule) (v : Valuation) (b : SigBit) :
    root.exec v undefined b = some ((root.exec v (fun _ => none) b).getD .Sx) := by
  rw [overlays_exec root undefined]
  cases root.exec v (fun _ => none) b <;> rfl

def startMuxes (s : SigSnippets) (root : CaseRule) (autoidx : Nat) : Muxes :=
  { work := labelCase s.bit2snippet root, builder := { autoidx := autoidx } }

/-- In no snippet is a case appended to a multiplexer that does not drive the result, unless it has
the result for its value, and no catch-all is appended. -/
def Attached (listed : List SigSpec → List SigSpec) (root : CaseRule) (autoidx : Nat) : Prop :=
  ∀ fuel, ∀ s ∈ insertCase fuel root {},
    attachedSnippets (listed s.snippets) (startMuxes s root autoidx) = true

def selectorWire : Wire := { name := "\\s", width := 2 }

def selectorSig : SigSpec := [.wire selectorWire (0 : Fin 2), .wire selectorWire (1 : Fin 2)]

def otherWire : Wire := { name := "\\t", width := 2 }

def otherSig : SigSpec := [.wire otherWire (0 : Fin 2), .wire otherWire (1 : Fin 2)]

def assignedBit : SigBit := .wire { name := "\\y", width := 1 } ⟨0, Nat.one_pos⟩

def constCase (compare : List SigSpec) (value : State) : CaseRule :=
  { compare := compare, actions := [{ lhs := [assignedBit], rhs := [.const value], length := rfl }] }

/-- Catch-alls in front of patterns: behind the first no multiplexer is made, and between the second
and the joined cases stands one that opens a new multiplexer. -/
def priorityTree : CaseRule :=
  { switches := [{
      signal := selectorSig
      cases := [constCase [[.const .S0, .const .S0]] .S1, constCase [[.const .S1, .const .S0]] .S0,
        constCase [[.const .Sa, .const .Sa]] .S0, { compare := [otherSig] }] }, {
      signal := selectorSig
      cases := [constCase [[.const .S0, .const .S0]] .S1, constCase [[.const .S1, .const .S0]] .S0,
        constCase [otherSig, [.const .S1, .const .Sa]] .S1, constCase [[.const .Sa, .const .Sa]] .S0,
        constCase [otherSig] .S1] }] }

/-- Behind a catch-all stands a case with a pattern that is not constant. -/
def shadowedTree : CaseRule :=
  { switches := [{
      signal := selectorSig
      cases := [constCase [[.const .S0, .const .S0]] .S1, constCase [[.const .S1, .const .S0]] .S0,
        constCase [[.const .Sa, .const .Sa]] .S0, constCase [otherSig] .S1] }] }

private theorem every_leaves {p : SwitchRule → Prop} {l : List SwitchRule} (here : ∀ sw ∈ l, p sw)
    (leaves : ∀ sw ∈ l, ∀ c ∈ sw.cases, c.switches = []) : CaseRule.Every p { switches := l } := by
  rw [CaseRule.every_iff]
  intro sw member
  rw [SwitchRule.every_iff]
  refine ⟨here sw member, fun c inside => ?_⟩
  rw [CaseRule.every_iff, leaves sw member c inside]
  simp

private theorem honest_single {sw : SwitchRule} {v : Valuation} (full : sw.fullCase = false)
    (parallel : sw.parallelCase = false) (leaves : ∀ c ∈ sw.cases, c.switches = []) :
    Honest v { switches := [sw] } := by
  refine .mk (fun sw' member => ?_) (fun sw' member c found => ?_)
  · rw [mem_singleton.mp member, SwitchRule.Truthful, full, parallel]
    simp
  · rw [mem_singleton.mp member] at found
    have leaf := leaves c (mem_of_find?_eq_some found)
    exact .mk (by simp [leaf]) (by simp [leaf])

end ManticoreFrontend.Passes.ProcMuxRuns
