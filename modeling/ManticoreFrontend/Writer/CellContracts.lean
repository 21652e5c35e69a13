/- source: passes/manticore/manticore_writer.cc
   digest: Contracts of the pieces shared by the selection of several cell types. -/

import ManticoreFrontend.Writer.CellLayout

namespace ManticoreFrontend.Writer.CellContracts

open Foundation BitWord Emission Kernel Constants CellTypes Signals
open Kernel.CellChecker (PortWidth UnaryShape BinaryShape signedParam)
open Assembly Generator Denotation Layout Cells CellLayout

section Reads

variable {cell : Cell} {name : PortId} {width : ParamId} {sig : SigSpec}

theorem getParam_eq {p : ParamId} {c : Const} (h : cell.getParam p = some c) :
    getParam cell p = pure c := by
  rw [getParam, h]
  rfl

theorem getPort_eq (h : PortWidth cell name width sig) : getPort cell name = pure sig := by
  rw [getPort, h.connected]
  rfl

theorem getWidth_eq (h : PortWidth cell name width sig) :
    getWidth cell width = pure sig.length := by
  obtain ⟨c, value, length⟩ := h.param
  rw [getWidth, getParam_eq value, pure_bind, length, Int.toNat_natCast]

theorem getBool_eq {p : ParamId} (h : ∃ c, cell.getParam p = some c) :
    getBool cell p = pure (signedParam cell p) := by
  obtain ⟨c, value⟩ := h
  rw [getBool, getParam_eq value, pure_bind, signedParam, value]
  rfl

theorem convertPort_eq (h : PortWidth cell name width sig) :
    convertPort cell name = convertSig sig := by
  rw [convertPort, getPort_eq h, pure_bind]

theorem unaryHeader_eq {a y : SigSpec} (shape : UnaryShape cell a y) :
    unaryHeader cell = (do
      let aName ← convertSig a
      let yName ← convertSig y
      pure ⟨a.length, y.length, aName, yName⟩) := by
  rw [unaryHeader, getWidth_eq shape.portA, getWidth_eq shape.portY, pure_bind, pure_bind,
    convertPort_eq shape.portA, convertPort_eq shape.portY]

end Reads

variable {v : Valuation} {σ : Name → Word} {P : Prop} {base : Worker} {O K : List Name}

def Holding (v : Valuation) (σ : Name → Word) (sig : SigSpec) (n : Name) : Prop :=
  sig ≠ [] ∧ σ n = sigWord v sig

theorem Holding.width {sig : SigSpec} {n : Name} (h : Holding v σ sig n) :
    (σ n).width = sig.length := by
  rw [h.2, sigWord_width]

section Convert

variable {cell : Cell} {name : PortId} {width : ParamId} {sig : SigSpec}
  (h : PortWidth cell name width sig)

include h

theorem convert_spec : Spec (ledger v σ) P (convertSig sig) (Holding v σ sig) :=
  (convertSig_spec sig).weaken id (fun _ _ named => ⟨named.1, named.2 h.lt_int⟩)

theorem convert_piece : Yields v σ P (convertSig sig) (Holding v σ sig) base O K :=
  (convertSig_piece sig).weaken fun _ _ named => ⟨named.1, named.2 h.lt_int⟩

end Convert

/-- A name with the word of a nonempty operand brought to `width` bits. -/
def Extended (v : Valuation) (σ : Name → Word) (sig : SigSpec) (s : Bool) (width : Nat)
    (n : Name) : Prop :=
  sig ≠ [] ∧ σ n = extendWord s width (sigWord v sig)

/-- `Y` takes exactly the bits `r` from the instruction `i`. -/
structure Selects (v : Valuation) (σ : Name → Word) (y : SigSpec) (r : BitVec y.length)
    (i : Instr) : Prop where
  nonempty : y ≠ []
  iff : i.Holds σ ↔ sigWord v y = ⟨y.length, r⟩

variable {op : AluOp}

theorem Selects.alu {y : SigSpec} {yName rs1 rs2 : Name} {r : BitVec y.length}
    (named : Holding v σ y yName) (value : aluBits op (σ rs1) (σ rs2) y.length = r) :
    Selects v σ y r (.alu op yName rs1 rs2) := by
  refine ⟨named.1, ?_⟩
  rw [alu_iff named.width, named.2, value]

def bitWord (b : Bool) : Word := ⟨1, boolBits 1 b⟩

@[simp] theorem bitWord_width (b : Bool) : (bitWord b).width = 1 := rfl

theorem bitWord_val (b : Bool) : (bitWord b).val = if b then 1 else 0 := by
  cases b <;> rfl

theorem constWord_true : constWord (Const.ofState .S1 1) = bitWord true := by
  rfl

theorem bitWord_setWidth (b : Bool) (n : Nat) : (bitWord b).bits.setWidth n = boolBits n b := by
  simp [bitWord, boolBits]

theorem xor_bits (a b : Bool) (n : Nat) :
    aluBits .XOR (bitWord a) (bitWord b) n = boolBits n (a != b) := by
  simp only [aluBits, bitWord_setWidth]
  cases a <;> cases b <;> simp [boolBits]

theorem and_bits (a b : Bool) (n : Nat) :
    aluBits .AND (bitWord a) (bitWord b) n = boolBits n (a && b) := by
  simp only [aluBits, bitWord_setWidth]
  cases a <;> cases b <;> simp [boolBits]

theorem or_bits (a b : Bool) (n : Nat) :
    aluBits .OR (bitWord a) (bitWord b) n = boolBits n (a || b) := by
  simp only [aluBits, bitWord_setWidth]
  cases a <;> cases b <;> simp [boolBits]

/-- A one-bit temporary written by an instruction that computes `b` at every width. -/
theorem alu_bitWord {rd rs1 rs2 : Name} {b : Bool}
    (holds : (Instr.alu op rd rs1 rs2).Holds σ) (width : (σ rd).width = 1)
    (value : aluBits op (σ rs1) (σ rs2) 1 = boolBits 1 b) : σ rd = bitWord b := by
  rw [(alu_iff width).mp holds, value, bitWord]

theorem slice_bitWord {rd rs : Name} {offset : Nat} (holds : (Instr.SLICE rd rs offset 1).Holds σ)
    (width : (σ rd).width = 1) : σ rd = bitWord ((σ rs).bit offset) := by
  rw [(slice_iff width).mp holds]
  apply Word.eq_of_bit
  · rfl
  · intro i hi
    obtain rfl : i = 0 := by
      simp only [resized] at hi
      omega
    simp [resized, Word.bit, bitWord, boolBits]

theorem seq_zero (a : Word) {n : Nat} (width : a.width = n) (m : Nat) :
    aluBits .SEQ a ⟨n, 0#n⟩ m = boolBits m (a.bits == 0#a.width) := by
  subst width
  have same : (a.val == (⟨a.width, 0#a.width⟩ : Word).val) = (a.bits == 0#a.width) := by
    rw [Bool.eq_iff_iff, beq_iff_eq, beq_iff_eq]
    exact BitVec.toNat_inj
  simp only [aluBits, same]
  rfl

theorem seq_ones (a : Word) {n : Nat} (width : a.width = n) (m : Nat) :
    aluBits .SEQ a ⟨n, BitVec.allOnes n⟩ m = boolBits m (a.bits == BitVec.allOnes a.width) := by
  subst width
  have same : (a.val == (⟨a.width, BitVec.allOnes a.width⟩ : Word).val) =
      (a.bits == BitVec.allOnes a.width) := by
    rw [Bool.eq_iff_iff, beq_iff_eq, beq_iff_eq]
    exact BitVec.toNat_inj
  simp only [aluBits, same]
  rfl

/-- The instruction writes the truth value `b` to `rd`, at any width of `rd`. -/
def WritesBool (σ : Name → Word) (rd : Name) (b : Bool) (i : Instr) : Prop :=
  ∀ n, (σ rd).width = n → (i.Holds σ ↔ σ rd = ⟨n, boolBits n b⟩)

theorem WritesBool.alu {rd rs1 rs2 : Name} {b : Bool}
    (value : ∀ n, aluBits op (σ rs1) (σ rs2) n = boolBits n b) :
    WritesBool σ rd b (.alu op rd rs1 rs2) := by
  intro n width
  rw [alu_iff width, value]

theorem WritesBool.bitWord {rd : Name} {b : Bool} {i : Instr} (writes : WritesBool σ rd b i)
    (holds : i.Holds σ) (width : (σ rd).width = 1) : σ rd = bitWord b :=
  (writes 1 width).mp holds

section Results

variable {y : SigSpec} {yName : Name} {b : Bool} (named : P → Holding v σ y yName)
  (known : yName ∈ K)

include named known

theorem boolResult_piece {op : Name → Emit Instr} {F : Prop}
    (writes : ∀ O rd, Prepared v σ P rd (op rd) (fun i => F ∧ WritesBool σ rd b i) base O K) :
    Selected v σ P (boolResult yName y.length op)
      (fun i => F ∧ Selects v σ y (boolBits y.length b) i) base O K := by
  refine Piece.ite (fun _ => ⟨?_, ?_⟩) (fun _ => ⟨?_, ?_⟩)
  · refine (writes O yName).spec.weaken id (fun i facts write => ⟨write.1, (named facts).1, ?_⟩)
    rw [write.2 _ (named facts).width, (named facts).2]
  · intro s i t run tidy
    have dest := (writes O yName).dest s i t run
    refine ((writes O yName).lays s i t run tidy).weaken fun x hx => ?_
    rcases List.mem_cons.mp hx with rfl | used
    · exact List.mem_append_right _ (dest ▸ known)
    · exact List.mem_append_left _ used
  · refine .bind (temp_spec 1) fun tmp => ?_
    refine .bind ((writes O tmp).spec.weaken And.right (fun _ _ => id)) fun i => ?_
    refine Spec.bind (emit_spec i) (fun _ => Spec.ret ?_)
    rintro ⟨holds, ⟨fact, write⟩, width, facts⟩
    refine ⟨fact, (named facts).1, ?_⟩
    rw [padzero_iff (named facts).width, (named facts).2, write.bitWord holds width]
    simp only [resized, bitWord_setWidth]
    rw [BitVec.setWidth_eq]
  · refine .bind (temp_lays 1) fun tmp => ?_
    refine Lays.bind_of (writes (tmp :: O) tmp).lays (writes (tmp :: O) tmp).dest fun i dest => ?_
    subst dest
    refine .bind (emit_lays [] (by simp +contextual)) fun _ => ?_
    exact Lays.ret (by simp [known])

theorem bitResult_piece {bit : Name} {F : Prop} (knownBit : bit ∈ K)
    (word : P → F ∧ σ bit = bitWord b) :
    Selected v σ P (pure (bitResult yName y.length bit))
      (fun i => F ∧ Selects v σ y (boolBits y.length b) i) base O K := by
  unfold bitResult
  split
  · refine Selected.ret known (by simp [knownBit]) fun facts => ?_
    refine ⟨(word facts).1, (named facts).1, ?_⟩
    rw [mov_iff (named facts).width, (word facts).2, (named facts).2, resized, bitWord_setWidth]
  · refine Selected.ret known (by simp [knownBit]) fun facts => ?_
    refine ⟨(word facts).1, (named facts).1, ?_⟩
    rw [padzero_iff (named facts).width, (word facts).2, (named facts).2]
    simp only [resized, bitWord_setWidth]
    rw [BitVec.setWidth_eq]

end Results

end ManticoreFrontend.Writer.CellContracts
