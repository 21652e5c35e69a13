/- source: kernel/rtlil.h, kernel/rtlil.cc
   digest: Signals as bit vectors over wires and constants, their packed chunks, cells and modules. -/

import ManticoreFrontend.Kernel.CellTypes

namespace ManticoreFrontend.Kernel.Signals

open Foundation.BitWord Constants CellTypes List

/-- A wire; names are unique in a module, so the record plays the part of the pointer. -/
structure Wire where
  name : IdString
  width : Nat
  portInput : Bool := false
  portOutput : Bool := false
  deriving DecidableEq, Repr

/-- A bit of a wire, whose offset lies inside the wire, or a constant bit. -/
inductive SigBit
  | wire (w : Wire) (offset : Fin w.width)
  | const (data : State)
  deriving DecidableEq

def SigBit.isWire : SigBit → Bool
  | .wire _ _ => true
  | .const _ => false

/-- A signal as its bit vector. Equality and hashing of the source type only see the bits. -/
abbrev SigSpec := List SigBit

instance : LawfulBEq SigSpec := inferInstance

/-- A contiguous part of a wire, or a run of constant bits. -/
inductive SigChunk
  | wire (w : Wire) (offset width : Nat) (le : offset + width ≤ w.width)
  | data (bits : Const)

namespace SigChunk

def width : SigChunk → Nat
  | .wire _ _ width _ => width
  | .data bits => bits.length

def bits : SigChunk → SigSpec
  | .wire w offset width le =>
    List.ofFn (fun i : Fin width => SigBit.wire w ⟨offset + i, by omega⟩)
  | .data bits => bits.map SigBit.const

@[simp] theorem bits_length (c : SigChunk) : c.bits.length = c.width := by
  cases c <;> simp [bits, width]

def ofBit : SigBit → SigChunk
  | .wire w offset => .wire w offset 1 (by omega)
  | .const s => .data [s]

def push : SigChunk → SigBit → Option SigChunk
  | .data bits, .const s => some (.data (bits ++ [s]))
  | .wire w offset width _, .wire w' offset' =>
    if h : w = w' ∧ offset + width = offset'.val then
      some (.wire w offset (width + 1) (by
        obtain ⟨rfl, next⟩ := h
        have := offset'.isLt
        omega))
    else none
  | _, _ => none

end SigChunk

namespace SigSpec

def ofWire (w : Wire) : SigSpec := List.ofFn (fun i : Fin w.width => SigBit.wire w i)

@[simp] theorem ofWire_length (w : Wire) : (ofWire w).length = w.width := by
  simp [ofWire]

def ofConst (c : Const) : SigSpec := c.map SigBit.const

variable (sig : SigSpec)

def extract (offset length : Nat) : SigSpec := (sig.drop offset).take length

/-- One step of `pack`: the last chunk, which is the head of the reversed list, absorbs the bit
or a new chunk is opened. -/
def packStep (done : List SigChunk) (b : SigBit) : List SigChunk :=
  match done with
  | [] => [SigChunk.ofBit b]
  | last :: rest =>
    match last.push b with
    | some grown => grown :: rest
    | none => SigChunk.ofBit b :: last :: rest

def chunks : List SigChunk := (sig.foldl packStep []).reverse

def asWire? : Option Wire :=
  match chunks sig with
  | [.wire w _ _ _] => if w.width = sig.length then some w else none
  | _ => none

def isFullyZero : Bool := sig.all (· == .const .S0)

def isFullyOnes : Bool := sig.all (· == .const .S1)

end SigSpec

theorem ofBit_bits (b : SigBit) : (SigChunk.ofBit b).bits = [b] := by
  cases b <;> simp [SigChunk.ofBit, SigChunk.bits]

theorem push_bits {c grown : SigChunk} {b : SigBit} (h : c.push b = some grown) :
    grown.bits = c.bits ++ [b] := by
  cases c with
  | data d =>
    cases b with
    | wire w offset => simp [SigChunk.push] at h
    | const s =>
      obtain rfl : SigChunk.data (d ++ [s]) = grown := by simpa [SigChunk.push] using h
      simp [SigChunk.bits]
  | wire w offset width le =>
    cases b with
    | const s => simp [SigChunk.push] at h
    | wire w' offset' =>
      simp only [SigChunk.push] at h
      split at h
      · rename_i fit
        obtain ⟨rfl, next⟩ := fit
        obtain rfl := Option.some.inj h
        simp only [SigChunk.bits]
        rw [ofFn_succ', concat_eq_append]
        simp [next]
      · simp at h

private theorem packStep_bits (done : List SigChunk) (b : SigBit) :
    (SigSpec.packStep done b).reverse.flatMap SigChunk.bits =
      done.reverse.flatMap SigChunk.bits ++ [b] := by
  cases done with
  | nil => simp [SigSpec.packStep, ofBit_bits]
  | cons last rest =>
    cases pushed : last.push b with
    | some grown => simp [SigSpec.packStep, pushed, push_bits pushed]
    | none => simp [SigSpec.packStep, pushed, ofBit_bits]

private theorem packFold_bits (sig : SigSpec) (done : List SigChunk) :
    (sig.foldl SigSpec.packStep done).reverse.flatMap SigChunk.bits =
      done.reverse.flatMap SigChunk.bits ++ sig := by
  induction sig generalizing done with
  | nil => simp
  | cons b sig ih => rw [foldl_cons, ih, packStep_bits, append_assoc]; rfl

theorem chunks_bits (sig : SigSpec) : (SigSpec.chunks sig).flatMap SigChunk.bits = sig := by
  simpa [SigSpec.chunks] using packFold_bits sig []

variable {sig : SigSpec}

theorem chunks_ne_nil (h : sig ≠ []) : SigSpec.chunks sig ≠ [] := by
  intro empty
  have := chunks_bits sig
  rw [empty] at this
  exact h (by simpa using this.symm)

theorem asWire?_eq_some {w : Wire} (h : SigSpec.asWire? sig = some w) : sig = SigSpec.ofWire w := by
  unfold SigSpec.asWire? at h
  split at h
  · rename_i w' offset width le single
    split at h
    · obtain rfl := Option.some.inj h
      have bits := chunks_bits sig
      rw [single] at bits
      simp only [flatMap_cons, flatMap_nil, append_nil] at bits
      have wide : width = w'.width := by
        have := congrArg length bits
        simp only [SigChunk.bits_length, SigChunk.width] at this
        omega
      subst wide
      obtain rfl : offset = 0 := by omega
      rw [← bits]
      simp [SigChunk.bits, SigSpec.ofWire]
    · simp at h
  · simp at h

structure Cell where
  name : IdString
  type : CellType
  parameters : List (ParamId × Const)
  connections : List (PortId × SigSpec)
  attributes : List (AttrId × Const) := []
  deriving DecidableEq

/-- A memory of `size` words, the first of them at address `startOffset`. -/
structure Memory where
  name : IdString
  width : Nat
  startOffset : Nat
  size : Nat
  deriving DecidableEq, Repr

theorem lookup_mem {α β : Type} [BEq α] [LawfulBEq α] {l : List (α × β)} {a : α} {b : β}
    (h : l.lookup a = some b) : (a, b) ∈ l := by
  obtain ⟨before, after, split, -⟩ := lookup_eq_some_iff.mp h
  rw [split]
  simp

theorem flatMap_filter_of_nil {α β : Type} {g : α → List β} {keep : α → Bool} {l : List α}
    (nothing : ∀ x ∈ l, keep x = false → g x = []) : (l.filter keep).flatMap g = l.flatMap g := by
  induction l with
  | nil => rfl
  | cons x l ih =>
    have ih := ih (fun y member => nothing y (by simp [member]))
    cases kept : keep x with
    | true => rw [filter_cons_of_pos kept, flatMap_cons, flatMap_cons, ih]
    | false =>
      rw [filter_cons_of_neg (by simp [kept]), flatMap_cons, nothing x (by simp) kept,
        nil_append, ih]

def Cell.getParam (cell : Cell) (p : ParamId) : Option Const := cell.parameters.lookup p

def Cell.getPort (cell : Cell) (p : PortId) : Option SigSpec := cell.connections.lookup p

/-- Replace the signal of a port, adding the port when it is absent. -/
def Cell.setPort (cell : Cell) (p : PortId) (sig : SigSpec) : Cell :=
  if cell.connections.any (·.1 == p) then
    { cell with connections := cell.connections.map (fun c => if c.1 = p then (p, sig) else c) }
  else { cell with connections := cell.connections ++ [(p, sig)] }

/-- A two-valued valuation gives every wire a word of its width. -/
abbrev Valuation := (w : Wire) → BitVec w.width

variable (v : Valuation)

/-- The value of a bit. The code generator prints every undefined constant bit as zero. -/
def bitVal : SigBit → Bool
  | .wire w offset => (v w).getLsbD offset
  | .const data => data == .S1

def sigWord (sig : SigSpec) : Word := Word.ofBools (sig.map (bitVal v))

@[simp] theorem sigWord_width (sig : SigSpec) : (sigWord v sig).width = sig.length := by
  simp [sigWord]

/-- The value of a signal as a constant, undefined constant bits included. -/
def sigConst (sig : SigSpec) : Const :=
  sig.map (fun b => match b with
    | .wire w offset => State.ofBool ((v w).getLsbD offset)
    | .const data => data)

theorem sigConst_eq_word {v : Valuation} (defined : (sigConst v sig).isFullyDef = true) :
    sigConst v sig = wordConst (sigWord v sig) := by
  apply eq_toConst
  · simp [sigConst]
  · intro i hi _
    have inside : i < sig.length := by simpa [sigConst] using hi
    have bit : (sigWord v sig).bits.getLsbD i = bitVal v sig[i] := by
      have := Word.ofBools_bit (sig.map (bitVal v)) i
      simpa [Word.bit, sigWord, inside] using this
    have hdef : (sigConst v sig)[i].isDef = true :=
      all_eq_true.mp defined _ (getElem_mem hi)
    rw [bit]
    simp only [sigConst, getElem_map] at hdef ⊢
    cases h : sig[i] with
    | wire w offset => simp [bitVal]
    | const s =>
      rw [h] at hdef
      exact (State.ofBool_of_isDef hdef).symm

theorem sigWord_ofWire (w : Wire) : sigWord v (SigSpec.ofWire w) = ⟨w.width, v w⟩ := by
  apply Word.eq_of_bit
  · simp
  · intro i hi
    have inside : i < w.width := by simpa using hi
    rw [sigWord, Word.ofBools_bit]
    simp [SigSpec.ofWire, bitVal, Word.bit, inside]

end ManticoreFrontend.Kernel.Signals
