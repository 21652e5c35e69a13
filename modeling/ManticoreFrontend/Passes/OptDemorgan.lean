/- source: passes/opt/opt_demorgan.cc, kernel/modtools.h (ModIndex::query_ports)
   digest: Inverters pushed through reductions keep the outputs of one bit and no wider ones. -/

import Mathlib.Data.List.Perm.Subperm
import ManticoreFrontend.Kernel.Nets
import ManticoreFrontend.Kernel.SigSpecs

namespace ManticoreFrontend.Passes.OptDemorgan

open Kernel Constants Calc CellTypes Nets Signals SigSpecs List

structure Inverter where
  a : SigBit
  y : SigBit

/-- A `$reduce_and` or `$reduce_or` cell; the pass skips all others. -/
structure Reduction where
  isAnd : Bool
  a : SigSpec
  y : SigSpec
  aWidth : Nat
  yWidth : Nat

/-- A bit of a new input: a bit as it is, or the wire of a `$not` cell that was added for it. -/
structure Input where
  bit : SigBit
  inverted : Bool

/-- What becomes of a cell through which inverters are pushed: the other type, a new input, and a
`$not` cell between a new wire and the old output. -/
inductive Outcome
  | kept (cell : Reduction)
  | pushed (cell : Reduction) (insig : List Input)

def wire? : SigBit → Option Wire
  | .wire w _ => some w
  | .const _ => none

/-- The offset of a bit. A constant has the byte of its state there, below bytes never written. -/
def offsetOf (stale : Nat) : SigBit → Nat
  | .wire _ offset => offset
  | .const s => stateCode s + 256 * stale

/-- The bits of one wire, each seen once, are put in order. `none` is the width read through a null
pointer, and the first bit of no input. -/
def rearrange (stale : Nat → Nat) (insig : List Input) : Option (List Input) :=
  let srcwire := insig.head?.bind fun i => wire? i.bit
  let seenBits := insig.mapIdx fun k i => offsetOf (stale k) i.bit
  if (∀ i ∈ insig, i.inverted = false ∧ wire? i.bit = srcwire) ∧
      ∀ k < insig.length, seenBits.count k = 1 then
    srcwire.map fun w =>
      if insig.length = w.width then (SigSpec.ofWire w).map (⟨·, false⟩) else insig
  else some insig

section Worker

variable (map : SigBit → SigBit) (inverters : List Inverter)

/-- The inverter among the ports of a bit; the index has no constants. The pass adds no cells of
this type, so the answer never changes. -/
def srcinv (b : SigBit) : Option Inverter :=
  inverters.find? fun inv => map inv.y = map b && (map b).isWire

/-- An inverter in front of the input is bypassed, and one is added where there is none. -/
def newInput (b : SigBit) : Input :=
  match srcinv map inverters b with
  | none => ⟨b, true⟩
  | some inv => ⟨inv.a, false⟩

def newInsig (cell : Reduction) : List Input :=
  (cell.a.map map).map (newInput map inverters)

def pushes (cell : Reduction) : Bool :=
  let numInverted := (cell.a.map map).countP fun b => (srcinv map inverters b).isSome
  !decide (numInverted * 2 < cell.a.length)

def demorganWorker (stale : Nat → Nat) (cell : Reduction) : Option Outcome :=
  if pushes map inverters cell then
    (rearrange stale (newInsig map inverters cell)).map (.pushed { cell with isAnd := !cell.isAnd })
  else some (.kept cell)

def execute (stale : Reduction → Nat → Nat) (cells : List Reduction) : Option (List Outcome) :=
  cells.mapM fun cell => demorganWorker map inverters (stale cell) cell

/-- Values of the wires under the aliases and the inverters of a module. -/
structure Allowed (r : Reading) : Prop where
  aliased : ∀ b, r.bit (map b) = r.bit b
  inverted : ∀ inv ∈ inverters, evalGate "$_NOT_" [r.bit inv.a] [] = some [r.bit inv.y]

end Worker

def Input.state (r : Reading) (i : Input) : State :=
  if i.inverted then invertBit (r.bit i.bit) else r.bit i.bit

namespace Outcome

def reduce (isAnd : Bool) : Const → Int → Const := if isAnd then constReduceAnd else constReduceOr

def value (r : Reading) : Outcome → Const
  | kept cell => reduce cell.isAnd (r.sig cell.a) cell.y.length
  | pushed cell insig =>
    constNot (reduce cell.isAnd (insig.map (Input.state r)) 1) false cell.y.length

/-- The width parameters of the cell fit its ports; those of an added cell always do. -/
def WidthsMatch : Outcome → Prop
  | kept cell => cell.aWidth = cell.a.length ∧ cell.yWidth = cell.y.length
  | pushed cell insig => cell.aWidth = insig.length ∧ cell.yWidth = 1

end Outcome

/-- The pass ends, whatever the memory held, with cells whose widths match, and drives every output
with the value that the old cell gives it. -/
def Preserves (map : SigBit → SigBit) (inverters : List Inverter) (cells : List Reduction) : Prop :=
  ∀ stale, ∃ out, execute map inverters stale cells = some out ∧
    Forall₂ (fun cell new => new.WidthsMatch ∧ ∀ r, Allowed map inverters r →
      new.value r = (Outcome.kept cell).value r) cells out

variable {map : SigBit → SigBit} {inverters : List Inverter} {cells : List Reduction}
  {cell : Reduction} {r : Reading} {stale : Nat → Nat} {insig : List Input}

/-- A bit and its inverse, by a gate behind the new bit or by an added cell behind the old one. -/
def Opposite (old new : State) : Prop := evalNot [new] = [old] ∨ new = invertBit old

instance (old new : State) : Decidable (Opposite old new) := inferInstanceAs (Decidable (_ ∨ _))

def logic (isAnd : Bool) : State → State → State := if isAnd then logicAnd else logicOr

private theorem logic_opposite (isAnd : Bool) (acc : State) {old new : State} :
    Opposite old new → logic isAnd (invertBit acc) old = invertBit (logic (!isAnd) acc new) := by
  cases isAnd <;> cases acc <;> cases old <;> cases new <;> decide

private theorem logic_comm (isAnd : Bool) (a b c : State) :
    logic isAnd (logic isAnd a b) c = logic isAnd (logic isAnd a c) b := by
  cases isAnd <;> cases a <;> cases b <;> cases c <;> rfl

theorem foldl_opposite (isAnd : Bool) {olds news : Const} (opposite : Forall₂ Opposite olds news)
    (acc : State) :
    olds.foldl (logic isAnd) (invertBit acc) = invertBit (news.foldl (logic !isAnd) acc) := by
  induction opposite generalizing acc with
  | nil => rfl
  | cons here _ ih => rw [foldl_cons, logic_opposite isAnd acc here, ih, foldl_cons]

private theorem reduce_one (isAnd : Bool) (c : Const) :
    Outcome.reduce isAnd c 1 = [c.foldl (logic isAnd) (invertBit (.ofBool !isAnd))] := by
  cases isAnd <;> rfl

private theorem newInput_opposite (allowed : Allowed map inverters r) (b : SigBit) :
    Opposite (r.bit b) ((newInput map inverters (map b)).state r) := by
  unfold newInput
  split
  · right
    simp [Input.state, allowed.aliased]
  · rename_i inv found
    left
    have driven := find?_some found
    simp only [Bool.and_eq_true, decide_eq_true_eq] at driven
    rw [← allowed.aliased b, ← allowed.aliased (map b), ← driven.1, allowed.aliased]
    exact Option.some.inj (allowed.inverted inv (mem_of_find?_eq_some found))

private theorem value_pushed (allowed : Allowed map inverters r)
    (perm : insig ~ newInsig map inverters cell) (one : cell.y.length = 1) :
    (Outcome.pushed { cell with isAnd := !cell.isAnd } insig).value r =
      (Outcome.kept cell).value r := by
  have opposite : Forall₂ Opposite (r.sig cell.a)
      ((newInsig map inverters cell).map (Input.state r)) := by
    rw [Reading.sig, newInsig, map_map, map_map, forall₂_map_left_iff, forall₂_map_right_iff,
      forall₂_same]
    exact fun b _ => newInput_opposite allowed b
  have start : invertBit (.ofBool !!cell.isAnd) = .ofBool !cell.isAnd := by
    cases cell.isAnd <;> rfl
  simp only [Outcome.value, one, Nat.cast_one, reduce_one, start]
  rw [foldl_opposite _ opposite, ← (perm.map _).foldl_eq' fun b _ c _ a => logic_comm _ a b c]
  rfl

private theorem rearrange_perm {sig : List Input} (done : rearrange stale insig = some sig) :
    sig ~ insig := by
  unfold rearrange at done
  generalize (insig.head?.bind fun i => wire? i.bit) = srcwire at done
  simp only at done
  split at done
  · rename_i same
    obtain ⟨w, rfl, rfl⟩ := Option.map_eq_some_iff.mp done
    split
    · rename_i whole
      have inside : (SigSpec.ofWire w).map (⟨·, false⟩) ⊆ insig := by
        intro i mem
        obtain ⟨b, bit, rfl⟩ := mem_map.mp mem
        obtain ⟨k, rfl⟩ := mem_ofFn.mp bit
        have seen := count_pos_iff.mp (Nat.lt_of_lt_of_eq Nat.one_pos (same.2 k (by omega)).symm)
        obtain ⟨j, short, offset⟩ := mem_mapIdx.mp seen
        have here := getElem_mem short
        generalize insig[j] = i at offset here
        obtain ⟨plain, wire⟩ := same.1 i here
        obtain ⟨b, inverted⟩ := i
        cases b with
        | const s => cases wire
        | wire w' o =>
          cases plain
          cases wire
          exact Fin.ext offset ▸ here
      have distinct : ((SigSpec.ofWire w).map (⟨·, false⟩ : SigBit → Input)).Nodup :=
        (nodup_ofFn.mpr fun i j equal => by simpa using equal).map fun b c equal => by simpa using equal
      exact (subperm_of_subset distinct inside).perm_of_length_le (by simp [whole])
    · rfl
  · rw [Option.some.inj done]

def offsets (insig : List Input) : List Nat := insig.map fun i => offsetOf 0 i.bit

/-- The input bits are constants, whose states are the first of the enumeration in some order. -/
def PassForWire (insig : List Input) : Prop :=
  (∀ i ∈ insig, i.inverted = false ∧ wire? i.bit = none) ∧ offsets insig ~ range insig.length

/-- For some contents of the memory, such constants pass for the bits of a wire. -/
theorem rearrange_eq_none_iff : (∃ stale, rearrange stale insig = none) ↔ PassForWire insig := by
  unfold rearrange
  constructor
  · rintro ⟨stale, done⟩
    simp only at done
    split at done
    · rename_i same
      rw [Option.map_eq_none_iff.mp done] at same
      have found (k : Nat) (short : k < insig.length) :
          ∃ code ∈ offsets insig, code < 6 ∧ ∃ high, code + 256 * high = k := by
        have seen := count_pos_iff.mp (Nat.lt_of_lt_of_eq Nat.one_pos (same.2 k short).symm)
        obtain ⟨j, short, offset⟩ := mem_mapIdx.mp seen
        have here := getElem_mem short
        refine ⟨_, mem_map_of_mem here, ?_⟩
        have constant := (same.1 _ here).2
        generalize Input.bit _ = b at constant offset
        cases b with
        | wire w o => cases constant
        | const s => exact ⟨by cases s <;> decide, stale j, offset⟩
      have few : insig.length ≤ 6 := by
        by_contra many
        obtain ⟨code, -, small, high, sum⟩ := found 6 (by omega)
        omega
      refine ⟨same.1, ((subperm_of_subset nodup_range fun k mem => ?_).perm_of_length_le
        (by simp [offsets])).symm⟩
      have short := mem_range.mp mem
      obtain ⟨code, listed, small, high, sum⟩ := found k short
      obtain rfl : code = k := by omega
      exact listed
    · cases done
  · rintro ⟨null, perm⟩
    have srcwire : (insig.head?.bind fun i => wire? i.bit) = none := by
      cases insig with
      | nil => rfl
      | cons i insig => exact (null i mem_cons_self).2
    have seenBits : (insig.mapIdx fun _ i => offsetOf 0 i.bit) = offsets insig := by
      apply ext_getElem <;> simp [offsets]
    have once (k : Nat) (short : k < insig.length) : (offsets insig).count k = 1 := by
      rw [perm.count_eq]
      exact count_eq_one_of_mem nodup_range (mem_range.mpr short)
    refine ⟨fun _ => 0, ?_⟩
    simp only [srcwire, seenBits]
    rw [if_pos ⟨null, once⟩]
    rfl

private theorem mapM_forall₂_iff {α β : Type} {f : α → Option β} {R : α → β → Prop} {l : List α} :
    (∃ out, l.mapM f = some out ∧ Forall₂ R l out) ↔ ∀ x ∈ l, ∃ y, f x = some y ∧ R x y := by
  induction l with
  | nil => simp
  | cons x l ih =>
    rw [forall_mem_cons, ← ih]
    simp only [mapM_cons, Option.bind_eq_bind, Option.bind_eq_some_iff, Option.pure_def,
      Option.some.injEq]
    constructor
    · rintro ⟨_, ⟨y, here, ys, rest, rfl⟩, all⟩
      obtain ⟨first, later⟩ := forall₂_cons.mp all
      exact ⟨⟨y, here, first⟩, ys, rest, later⟩
    · rintro ⟨⟨y, here, first⟩, ys, rest, later⟩
      exact ⟨y :: ys, ⟨y, here, ys, rest, rfl⟩, .cons first later⟩

/-- Inverters may be pushed through reductions with one output bit, unless the inverted inputs are
constants that pass for a wire; a wider output gets inverted zeros under the wrong width. -/
theorem execute_preserves_iff
    (valid : ∀ cell ∈ cells, cell.aWidth = cell.a.length ∧ cell.yWidth = cell.y.length) :
    Preserves map inverters cells ↔ ∀ cell ∈ cells, pushes map inverters cell = true →
      cell.y.length = 1 ∧ ¬ PassForWire (newInsig map inverters cell) := by
  simp only [Preserves, execute, mapM_forall₂_iff, ← rearrange_eq_none_iff]
  constructor
  · intro all cell mem pushed
    have each (stale : Nat → Nat) := all (fun _ => stale) cell mem
    simp only [demorganWorker, pushed, if_true, Option.map_eq_some_iff] at each
    constructor
    · obtain ⟨_, ⟨insig, -, rfl⟩, ⟨-, width⟩, -⟩ := each fun _ => 0
      exact (valid cell mem).2.symm.trans width
    · rintro ⟨stale, none⟩
      obtain ⟨_, ⟨insig, done, -⟩, -⟩ := each stale
      cases none.symm.trans done
  · intro exact stale cell mem
    obtain ⟨widthA, widthY⟩ := valid cell mem
    unfold demorganWorker
    split
    · rename_i pushed
      obtain ⟨one, never⟩ := exact cell mem pushed
      obtain ⟨insig, done⟩ := Option.ne_none_iff_exists'.mp (not_exists.mp never (stale cell))
      have perm := rearrange_perm done
      refine ⟨.pushed { cell with isAnd := !cell.isAnd } insig, by rw [done]; rfl,
        ⟨?_, widthY.trans one⟩, fun r allowed => ?_⟩
      · simp [widthA, perm.length_eq, newInsig]
      · exact value_pushed allowed perm one
    · exact ⟨_, rfl, ⟨widthA, widthY⟩, fun _ _ => rfl⟩

def wireBit (name : IdString) : SigBit := .wire { name, width := 1 } ⟨0, Nat.one_pos⟩

/-- The inverter from `a` to `n`, and the reduction of `n` to a signal. -/
def inverter : Inverter := ⟨wireBit "a", wireBit "n"⟩

def reduction (y : SigSpec) : Reduction := ⟨false, [wireBit "n"], y, 1, y.length⟩

/-- The upper output bit changes from 0 to 1. -/
theorem wide_output_changed : ∃ new r,
    execute id [inverter] (fun _ _ => 0) [reduction [wireBit "y", wireBit "z"]] = some [new] ∧
      Allowed id [inverter] r ∧ new.value r = [.S1, .S1] ∧
      (Outcome.kept (reduction [wireBit "y", wireBit "z"])).value r = [.S1, .S0] := by
  refine ⟨_, fun w _ => if w.name = "n" then .S1 else .S0, rfl, ⟨fun _ => rfl, ?_⟩, rfl, rfl⟩
  rintro _ (_ | ⟨_, ⟨⟩⟩)
  rfl

/-- Two of three inputs are inverted, and one of the three of a wider reduction, which stays. -/
def reductions : List Reduction := [
  ⟨false, [wireBit "n", wireBit "m", wireBit "c"], [wireBit "y"], 3, 1⟩,
  ⟨true, [wireBit "y", wireBit "n", wireBit "c"], [wireBit "z", wireBit "u"], 3, 2⟩]

theorem narrow_output_preserved :
    Preserves id [inverter, ⟨wireBit "b", wireBit "m"⟩] reductions := by
  refine (execute_preserves_iff (by simp [reductions])).mpr fun cell mem pushed => ?_
  rcases mem_cons.mp mem with rfl | mem
  · refine ⟨rfl, fun constant => ?_⟩
    cases (constant.1 _ mem_cons_self).2
  · obtain rfl := mem_singleton.mp mem
    exact absurd pushed (by decide)

end ManticoreFrontend.Passes.OptDemorgan
