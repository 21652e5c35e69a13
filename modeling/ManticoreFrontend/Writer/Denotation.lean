/- source: passes/manticore/manticore_writer.cc
   digest: What it means to satisfy an emitted program, and that converted signals denote their value. -/

import ManticoreFrontend.Writer.Cells

namespace ManticoreFrontend.Writer.Denotation

open Foundation BitWord Emission Kernel Constants CellTypes Signals
open Kernel.CellChecker (checkMemwrV2 checkMemrdV2)
open Cells (registerInit)
open Assembly Generator List

/-- The collected memory ports have passed the cell check. -/
def PortsChecked (writes reads : List (IdString × List Cell)) : Prop :=
  (∀ e ∈ writes, ∀ cell ∈ e.2, checkMemwrV2 cell = true) ∧
    ∀ e ∈ reads, ∀ cell ∈ e.2, checkMemrdV2 cell = true

/-- Declarations and instructions are only ever added, with no unchecked ports and no states
without a register that starts as the cell says. -/
structure Extends (st st' : Worker) : Prop where
  wireDefs : st.wireDefs ⊆ st'.wireDefs
  wires : st.wires ⊆ st'.wires
  regs : st.regs ⊆ st'.regs
  constDefs : st.constDefs ⊆ st'.constDefs
  instrs : st.instrs ⊆ st'.instrs
  ports : PortsChecked st.memoryWrites st.memoryReads →
    PortsChecked st'.memoryWrites st'.memoryReads
  states : ∀ R : Option Const → Name × Name → Prop,
    (∀ r ∈ st'.regs, R r.init (r.input, r.output)) →
    (∀ e ∈ st.states, R (registerInit e.1) e.2) → ∀ e ∈ st'.states, R (registerInit e.1) e.2

theorem Extends.refl (st : Worker) : Extends st st := by
  constructor <;> simp

theorem Extends.trans {st st' st'' : Worker} (h : Extends st st') (h' : Extends st' st'') :
    Extends st st'' where
  wireDefs := List.Subset.trans h.wireDefs h'.wireDefs
  wires := List.Subset.trans h.wires h'.wires
  regs := List.Subset.trans h.regs h'.regs
  constDefs := List.Subset.trans h.constDefs h'.constDefs
  instrs := List.Subset.trans h.instrs h'.instrs
  ports checked := h'.ports (h.ports checked)
  states R regs before := h'.states R regs (h.states R (fun r member => regs r (h'.regs member)) before)

variable (v : Valuation) (σ : Name → Word)

/-- The words `σ` of the names respect the declarations when the wires have the values of `v`. -/
structure Declared (st : Worker) : Prop where
  wireDefs : ∀ d ∈ st.wireDefs, (σ d.1).width = d.2
  wires : ∀ e ∈ st.wires, σ e.2 = ⟨e.1.width, v e.1⟩
  regs : ∀ r ∈ st.regs, (σ r.input).width = r.width ∧ (σ r.output).width = r.width
  constDefs : ∀ d ∈ st.constDefs, σ d.1 = constWord d.2

/-- They satisfy the emitted program when every instruction holds as well. -/
structure Satisfies (st : Worker) : Prop
    extends Declared v σ st where
  instrs : ∀ i ∈ st.instrs, i.Holds σ

theorem Satisfies.mono {v : Valuation} {σ : Name → Word} {st st' : Worker}
    (le : Extends st st') (sat : Satisfies v σ st') : Satisfies v σ st where
  wireDefs d hd := sat.wireDefs d (le.wireDefs hd)
  wires e he := sat.wires e (le.wires he)
  regs r hr := sat.regs r (le.regs hr)
  constDefs d hd := sat.constDefs d (le.constDefs hd)
  instrs i hi := sat.instrs i (le.instrs hi)

/-- Signal widths are C `int`s. -/
def intLimit : Nat := 2 ^ 31

/-- The caches are true of an assignment: every cached constant and available signal has the word of
its name, and every register the width of its cell. -/
structure Caches (st : Worker) : Prop where
  constants : ∀ e ∈ st.constants, σ e.2 = constWord e.1
  availableSigs : ∀ e ∈ st.availableSigs,
    e.1 ≠ [] ∧ (e.1.length < intLimit → σ e.2 = sigWord v e.1)
  states : ∀ e ∈ st.states, ∀ c, e.1.getParam .WIDTH = some c →
    (σ e.2.1).width = c.asInt.toNat ∧ (σ e.2.2).width = c.asInt.toNat

/-- The generator state as a ledger of constraints on one assignment. -/
def ledger : Ledger Worker where
  le := Extends
  refl := Extends.refl
  trans := Extends.trans
  Sat := Satisfies v σ
  mono := Satisfies.mono
  Good := Caches v σ

variable {v : Valuation} {σ : Name → Word} {P : Prop}

theorem temp_spec (width : Nat) :
    Spec (ledger v σ) P (temp width) (fun n => (σ n).width = width) := by
  intro s n t run
  obtain ⟨rfl, rfl⟩ := Prod.mk.inj (Option.some.inj run)
  refine ⟨by constructor <;> simp, fun _ sat good => ?_⟩
  exact ⟨⟨good.constants, good.availableSigs, good.states⟩, sat.wireDefs (_, width) (by simp)⟩

theorem wireGet_spec (w : Wire) :
    Spec (ledger v σ) P (wireGet w) (fun n => σ n = ⟨w.width, v w⟩) := by
  intro s n t run
  unfold wireGet at run
  split at run <;> obtain ⟨rfl, rfl⟩ := Prod.mk.inj (Option.some.inj run)
  · rename_i found
    exact ⟨Extends.refl _, fun _ sat good => ⟨good, sat.wires (w, _) (lookup_mem found)⟩⟩
  · refine ⟨by constructor <;> simp, fun _ sat good => ?_⟩
    exact ⟨⟨good.constants, good.availableSigs, good.states⟩, sat.wires (w, _) (by simp)⟩

theorem constWord_definedBits (c : Const) : constWord (definedBits c) = constWord c := by
  have same : (definedBits c).map (· == .S1) = c.map (· == .S1) := by
    rw [definedBits, map_map]
    apply map_congr_left
    intro b _
    cases b <;> rfl
  rw [constWord, constWord, same]

theorem constGet_spec (c : Const) :
    Spec (ledger v σ) P (constGet c) (fun n => σ n = constWord c) := by
  intro s n t run
  unfold constGet at run
  split at run <;> obtain ⟨rfl, rfl⟩ := Prod.mk.inj (Option.some.inj run)
  · rename_i found
    exact ⟨Extends.refl _, fun _ _ good => ⟨good, good.constants (c, _) (lookup_mem found)⟩⟩
  · refine ⟨by constructor <;> simp, fun _ sat good => ?_⟩
    have word : σ ⟨.c, s.constIndex⟩ = constWord c := by
      rw [← constWord_definedBits]
      exact sat.constDefs (_, definedBits c) (by simp)
    refine ⟨⟨?_, good.availableSigs, good.states⟩, word⟩
    intro e he
    rcases mem_append.mp he with he | he
    · exact good.constants e he
    · obtain rfl := mem_singleton.mp he
      exact word

theorem emit_spec (i : Instr) : Spec (ledger v σ) P (emit i) (fun _ => i.Holds σ) := by
  intro s n t run
  obtain ⟨rfl, rfl⟩ := Prod.mk.inj (Option.some.inj run)
  refine ⟨by constructor <;> simp, fun _ sat good => ?_⟩
  exact ⟨⟨good.constants, good.availableSigs, good.states⟩, sat.instrs i (by simp)⟩

def Names (v : Valuation) (σ : Name → Word) (sig : SigSpec) (n : Name) : Prop :=
  sig ≠ [] ∧ (sig.length < intLimit → σ n = sigWord v sig)

theorem available_spec {sig : SigSpec} {n : Name} (named : P → Names v σ sig n) :
    Spec (ledger v σ) P (available sig n) (fun _ => True) := by
  intro s a t run
  unfold available at run
  split at run <;> obtain ⟨rfl, rfl⟩ := Prod.mk.inj (Option.some.inj run)
  · exact ⟨Extends.refl _, fun _ _ good => ⟨good, trivial⟩⟩
  · refine ⟨by constructor <;> simp, fun facts _ good => ⟨⟨good.constants, ?_, good.states⟩, trivial⟩⟩
    intro e he
    rcases mem_append.mp he with he | he
    · exact good.availableSigs e he
    · obtain rfl := mem_singleton.mp he
      exact named facts

theorem findAvailable_spec (sig : SigSpec) :
    Spec (ledger v σ) P (findAvailable sig)
      (fun found => ∀ n, found = some n → Names v σ sig n) := by
  intro s found t run
  obtain ⟨rfl, rfl⟩ := Prod.mk.inj (Option.some.inj run)
  refine ⟨Extends.refl _, fun _ _ good => ⟨good, fun n hit => ?_⟩⟩
  exact good.availableSigs (sig, n) (lookup_mem hit)

variable (v : Valuation)

theorem sigWord_append (sig tail : SigSpec) :
    sigWord v (sig ++ tail) = ⟨(sig ++ tail).length,
      ((sigWord v tail).bits.setWidth (sig ++ tail).length <<< sig.length) |||
        (sigWord v sig).bits.setWidth (sig ++ tail).length⟩ := by
  have := ofBools_append (sig.map (bitVal v)) (tail.map (bitVal v)) (n := (sig ++ tail).length)
    (by simp)
  rw [← map_append, length_map] at this
  exact this

theorem sigWord_bit (sig : SigSpec) (i : Nat) (h : i < sig.length) :
    (sigWord v sig).bit i = bitVal v sig[i] := by
  rw [sigWord, Word.ofBools_bit]
  simp [h]

theorem sigWord_slice (w : Wire) (offset width : Nat) (le : offset + width ≤ w.width) :
    sigWord v (SigChunk.wire w offset width le).bits =
      resized ⟨width, (v w).extractLsb' offset width⟩ width := by
  apply Word.eq_of_bit
  · simp [SigChunk.width, resized]
  · intro i hi
    have inside : i < width := by simpa [SigChunk.width] using hi
    rw [sigWord_bit v _ i (by simpa [SigChunk.width] using inside)]
    simp [SigChunk.bits, bitVal, resized, Word.bit, inside]

theorem sigWord_const (bits : Const) : sigWord v (SigChunk.data bits).bits = constWord bits := by
  simp [sigWord, constWord, SigChunk.bits, bitVal, Function.comp_def]

theorem sigWord_extract (sig : SigSpec) (width : Nat) (h : width ≤ sig.length) :
    sigWord v (SigSpec.extract sig 0 width) =
      ⟨width, (sigWord v sig).bits.setWidth width⟩ := by
  have length : (SigSpec.extract sig 0 width).length = width := by
    simp [SigSpec.extract, h]
  apply Word.eq_of_bit
  · simp [length]
  · intro i hi
    have inside : i < width := by simpa [length] using hi
    rw [sigWord_bit v _ i (by omega)]
    have whole := sigWord_bit v sig i (by omega)
    simp only [Word.bit, BitVec.getLsbD_setWidth, inside, decide_true, Bool.true_and] at whole ⊢
    rw [whole]
    simp [SigSpec.extract]

/-- What the name of an operand brought to `width` bits denotes. -/
def NamesExtended (v : Valuation) (σ : Name → Word) (sig : SigSpec) (s : Bool) (width : Nat)
    (n : Name) : Prop :=
  sig ≠ [] ∧ (sig.length < intLimit → σ n = extendWord s width (sigWord v sig))

theorem Names.extended_self {v : Valuation} {σ : Name → Word} {sig : SigSpec} {n : Name}
    (h : Names v σ sig n) (s : Bool) : NamesExtended v σ sig s sig.length n := by
  refine ⟨h.1, fun small => ?_⟩
  rw [h.2 small]
  have := extendWord_self s (sigWord v sig)
  rw [sigWord_width] at this
  exact this.symm

end ManticoreFrontend.Writer.Denotation
