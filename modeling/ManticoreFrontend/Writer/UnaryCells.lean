/- source: passes/manticore/manticore_writer.cc
   digest: What the selected instructions of a unary cell give to its output. -/

import ManticoreFrontend.Writer.CellContracts

namespace ManticoreFrontend.Writer.UnaryCells

open Foundation BitWord Kernel Constants CellTypes Signals DefinedValues CellChecker
open Assembly Generator Layout Cells CellLayout CellContracts

/-- What the instructions for `$pos` compute: bit 0 of a narrow signed operand takes the part of
its sign. -/
def posBits {w : Nat} (s : Bool) (n : Nat) (x : BitVec w) : BitVec n :=
  if s = true ∧ w < n then x.setWidth n ||| (if x.getLsbD 0 then upperMask w n else 0#n)
  else x.setWidth n

/-- What the instructions for `$neg` compute: the operand is sign extended in any case. -/
def negBits {w : Nat} (n : Nat) (x : BitVec w) : BitVec n := - x.signExtend n

variable (type : CellType) (s : Bool) {w : Nat} (x : BitVec w) (n : Nat)

/-- What the instructions for a unary cell compute. -/
def emittedUnary :
    Option (BitVec n) :=
  match type with
  | .pos => some (posBits s n x)
  | .neg => some (negBits n x)
  | .not | .reduceAnd | .reduceOr | .reduceBool | .reduceXor | .reduceXnor | .logicNot =>
    opBits type s false x (0#0) n
  | _ => none

/-- The operands on which a unary cell is translated faithfully: the lowest bit of a widened
signed `$pos` operand is its sign, and a widened unsigned `$neg` operand has no top bit. -/
def Faithful : Prop :=
  ¬ (type = .pos ∧ s = true ∧ w < n ∧ x.getLsbD 0 ≠ x.msb) ∧
    ¬ (type = .neg ∧ s = false ∧ w < n ∧ x.msb = true)

instance (type : CellType) (s : Bool) {w : Nat} (x : BitVec w) (n : Nat) :
    Decidable (Faithful type s x n) :=
  inferInstanceAs (Decidable (¬ (_ ∧ _ ∧ _ ∧ _) ∧ ¬ (_ ∧ _ ∧ _ ∧ _)))

variable {w : Nat}

/-- Above the operand, an extension by the upper mask shows the bit that selected it. -/
private theorem masked_getLsbD (x : BitVec w) {n : Nat} (wide : w < n) (b : Bool) :
    (x.setWidth n ||| (if b then upperMask w n else 0#n)).getLsbD w = b := by
  cases b <;> simp [upperMask_getLsbD, wide]

theorem posBits_eq_iff (s : Bool) (n : Nat) (x : BitVec w) :
    posBits s n x = extendTo s n x ↔ ¬ (s = true ∧ w < n ∧ x.getLsbD 0 ≠ x.msb) := by
  cases s with
  | false => simp [posBits]
  | true =>
    by_cases wide : w < n
    · rw [posBits, if_pos ⟨rfl, wide⟩, extendTo_true, signExtend_eq_mask]
      constructor
      · intro equal differ
        have top := congrArg (fun u => u.getLsbD w) equal
        simp only [masked_getLsbD x wide] at top
        exact differ.2.2 top
      · intro same
        have low : x.getLsbD 0 = x.msb := by
          by_contra differ
          exact same ⟨rfl, wide, differ⟩
        rw [low]
    · have narrow : n ≤ w := Nat.le_of_not_lt wide
      rw [posBits, if_neg (by simp [wide]), extendTo_of_le true narrow]
      simp [wide]

theorem negBits_eq_iff (s : Bool) (n : Nat) (x : BitVec w) :
    negBits n x = - extendTo s n x ↔ ¬ (s = false ∧ w < n ∧ x.msb = true) := by
  cases s with
  | true => simp [negBits]
  | false =>
    rw [negBits, extendTo_false, BitVec.neg_inj]
    by_cases wide : w < n
    · rw [signExtend_eq_mask]
      constructor
      · intro equal top
        have bit := congrArg (fun u => u.getLsbD w) equal
        simp only [masked_getLsbD x wide] at bit
        rw [BitVec.getLsbD_setWidth, BitVec.getLsbD_of_ge _ _ (Nat.le_refl w), top.2.2] at bit
        simp at bit
      · intro same
        have low : x.msb = false := by
          by_contra set
          exact same ⟨rfl, wide, by simpa using set⟩
        simp [low]
    · rw [BitVec.signExtend_eq_setWidth_of_le x (Nat.le_of_not_lt wide)]
      simp [wide]

theorem emittedUnary_eq_iff {type : CellType} {s : Bool} {x : BitVec w} {n : Nat}
    {emitted expected : BitVec n} (emits : emittedUnary type s x n = some emitted)
    (entry : opBits type s false x (0#0) n = some expected) :
    emitted = expected ↔ Faithful type s x n := by
  cases type <;> simp only [emittedUnary, Option.some.injEq, reduceCtorEq] at emits
  case pos =>
    simp only [opBits, Option.some.injEq] at entry
    subst emits entry
    simp [Faithful, posBits_eq_iff]
  case neg =>
    simp only [opBits, Option.some.injEq] at entry
    subst emits entry
    simp [Faithful, negBits_eq_iff]
  all_goals
    rw [emits] at entry
    obtain rfl := Option.some.inj entry
    simp [Faithful]

variable {v : Valuation} {σ : Name → Word} {P : Prop} {base : Worker} {O K : List Name} {cell : Cell}
  {a y : SigSpec}

section

variable (shape : UnaryShape cell a y)

include shape

theorem selectNot_piece :
    Selected v σ P (selectNot cell) (fun i => a ≠ [] ∧
      Selects v σ y (~~~ extendTo (signedParam cell .A_SIGNED) y.length (sigWord v a).bits) i) base O K := by
  simp only [selectNot, getWidth_eq shape.portA, getWidth_eq shape.portY, convertPort_eq shape.portA,
    convertPort_eq shape.portY, pure_bind]
  refine .bind Piece.assert fun _ => ?_
  refine .bind (convert_piece shape.portY) fun yName => ?_
  refine .bind (convert_piece shape.portA) fun aName => ?_
  refine Piece.bind (constGet_piece _) fun ones => Selected.ret (by simp) (by simp) ?_
  rintro ⟨wordOnes, namedA, namedY, same, -⟩
  refine ⟨namedA.1, Selects.alu namedY ?_⟩
  rw [same] at wordOnes
  rw [namedA.2, wordOnes, constWord_ofState_S1, extendTo_of_le _ (by simp [same])]
  simp [aluBits]

theorem selectPos_piece :
    Selected v σ P (selectPos cell) (fun i => a ≠ [] ∧
      Selects v σ y (posBits (signedParam cell .A_SIGNED) y.length (sigWord v a).bits) i) base O K := by
  simp only [selectPos, unaryHeader_eq shape, getBool_eq shape.signed, bind_assoc, pure_bind]
  refine .bind (convert_piece shape.portA) fun aName => ?_
  refine .bind (convert_piece shape.portY) fun yName => ?_
  refine Piece.ite (fun narrow => ?_) fun other => ?_
  · refine .bind (temp_piece 1) fun aSign => ?_
    refine .bind (emit_piece []) fun _ => ?_
    refine .bind (temp_piece _) fun extension => ?_
    refine .bind (constGet_piece _) fun none => ?_
    refine .bind (constGet_piece _) fun mask => ?_
    refine .bind (emit_piece []) fun _ => ?_
    refine .bind (temp_piece _) fun padded => ?_
    refine Piece.bind (emit_piece []) fun _ => Selected.ret (by simp) (by simp) ?_
    rintro ⟨pad, widthP, select, wordM, wordN, widthE, slice, widthS, namedY, namedA, -⟩
    refine ⟨namedA.1, Selects.alu namedY ?_⟩
    have sign := slice_bitWord slice widthS
    have emitted : posBits (signedParam cell .A_SIGNED) y.length (sigWord v a).bits =
        (sigWord v a).bits.setWidth y.length |||
          (if (sigWord v a).bit 0 then upperMask a.length y.length else 0#y.length) := by
      rw [posBits, if_pos ⟨narrow.1, by simpa using narrow.2⟩]
      simp only [sigWord_width]
      rfl
    rw [(padzero_iff widthP).mp pad, (mux_iff widthE).mp select, sign, wordM, wordN, namedA.2,
      constWord_ofState_S0, constWord_upperMask narrow.2.le, bitWord_val, emitted]
    simp only [aluBits, resized, BitVec.setWidth_eq]
    cases (sigWord v a).bit 0 <;> simp
  · refine Piece.ite (fun wide => Selected.ret (by simp) (by simp) ?_) fun fits =>
      Selected.ret (by simp) (by simp) ?_
    · rintro ⟨namedY, namedA, -⟩
      refine ⟨namedA.1, namedY.1, ?_⟩
      rw [slice_iff namedY.width, namedA.2, namedY.2, posBits, if_neg (by simp; omega)]
      simp [resized, extract_zero]
    · rintro ⟨namedY, namedA, -⟩
      refine ⟨namedA.1, namedY.1, ?_⟩
      rw [mov_iff namedY.width, namedA.2, namedY.2, posBits, if_neg (by simpa using other)]
      rfl

theorem selectNeg_piece :
    Selected v σ P (selectNeg cell) (fun i => a ≠ [] ∧
      Selects v σ y (negBits y.length (sigWord v a).bits) i) base O K := by
  simp only [selectNeg, getWidth_eq shape.portA, getWidth_eq shape.portY, getPort_eq shape.portA,
    convertPort_eq shape.portY, pure_bind]
  refine .bind Piece.assert fun _ => ?_
  refine .bind (sextConvert_piece a y.length) fun aName => ?_
  refine .bind (convert_piece shape.portY) fun yName => ?_
  refine .bind (temp_piece _) fun flipped => ?_
  refine .bind (constGet_piece _) fun ones => ?_
  refine .bind (emit_piece []) fun _ => ?_
  refine Piece.bind (constGet_piece _) fun one => Selected.ret (by simp) (by simp) ?_
  rintro ⟨wordOne, flip, wordOnes, width, namedY, ⟨-, namedA⟩, -⟩
  refine ⟨namedA.1, Selects.alu namedY ?_⟩
  rw [(alu_iff width).mp flip, wordOnes, wordOne, namedA.2 shape.portA.lt_int, constWord_ofState_S1,
    constWord_ofInt, negBits, BitVec.neg_eq_not_add]
  simp only [aluBits, extendWord, extendTo_true, BitVec.setWidth_eq, BitVec.xor_allOnes]
  rfl

theorem selectReduceAnd_piece :
    Selected v σ P (selectReduceAnd cell) (fun i => a ≠ [] ∧ Selects v σ y
      (boolBits y.length ((sigWord v a).bits == BitVec.allOnes (sigWord v a).width)) i) base O K := by
  simp only [selectReduceAnd, unaryHeader_eq shape, bind_assoc, pure_bind]
  refine .bind (convert_piece shape.portA) fun aName => ?_
  refine .bind (convert_piece shape.portY) fun yName => ?_
  refine .bind (constGet_piece _) fun ones => ?_
  refine boolResult_piece (fun facts => facts.2.1) (by simp) fun _ rd => .ret rfl (by simp) ?_
  rintro ⟨wordOnes, -, namedA, -⟩
  refine ⟨namedA.1, WritesBool.alu (fun n => ?_)⟩
  rw [namedA.2, wordOnes, constWord_ofState_S1, seq_ones _ (sigWord_width v a)]

theorem selectReduceOr_piece :
    Selected v σ P (selectReduceOr cell) (fun i => a ≠ [] ∧ Selects v σ y
      (boolBits y.length ((sigWord v a).bits != 0#(sigWord v a).width)) i) base O K := by
  simp only [selectReduceOr, unaryHeader_eq shape, bind_assoc, pure_bind]
  refine .bind (convert_piece shape.portA) fun aName => ?_
  refine .bind (convert_piece shape.portY) fun yName => ?_
  refine .bind (temp_piece 1) fun b0 => ?_
  refine .bind (constGet_piece _) fun zeros => ?_
  refine .bind (emit_piece []) fun _ => ?_
  refine .bind (constGet_piece _) fun constTrue => ?_
  refine boolResult_piece (fun facts => facts.2.2.2.2.1) (by simp) fun _ rd => .ret rfl (by simp) ?_
  rintro ⟨wordT, seq, wordZ, width, -, namedA, -⟩
  have equal : σ b0 = bitWord ((sigWord v a).bits == 0#(sigWord v a).width) := by
    refine alu_bitWord seq width ?_
    rw [namedA.2, wordZ, constWord_ofState_S0, seq_zero _ (sigWord_width v a)]
  refine ⟨namedA.1, WritesBool.alu (fun n => ?_)⟩
  rw [equal, wordT, constWord_true, xor_bits, Bool.bne_true]
  rfl

theorem selectLogicNot_piece :
    Selected v σ P (selectLogicNot cell) (fun i => a ≠ [] ∧ Selects v σ y
      (boolBits y.length ((sigWord v a).bits == 0#(sigWord v a).width)) i) base O K := by
  simp only [selectLogicNot, unaryHeader_eq shape, bind_assoc, pure_bind]
  refine .bind (convert_piece shape.portA) fun aName => ?_
  refine .bind (convert_piece shape.portY) fun yName => ?_
  refine boolResult_piece And.left (by simp) fun _ rd => ?_
  refine .bind (constGet_piece _) (by simp) fun zeros => .ret rfl (by simp) ?_
  rintro ⟨wordZ, -, namedA, -⟩
  refine ⟨namedA.1, WritesBool.alu (fun n => ?_)⟩
  rw [namedA.2, wordZ, constWord_ofState_S0, seq_zero _ (sigWord_width v a)]

end

/-- The loop invariant of the parity chain: `prevres` is the parity of the bits below `i`. -/
theorem xorLoop_piece (aName : Name) (left i : Nat) (prevres : Name) (knownA : aName ∈ K)
    (known : prevres ∈ K) (start : P → σ prevres = bitWord (bitParity (σ aName).bit i)) :
    Yields v σ P (xorLoop aName i left prevres)
      (fun n => σ n = bitWord (bitParity (σ aName).bit (i + left))) base O K := by
  induction left generalizing i prevres P K with
  | zero => exact Piece.ret (by simp [known]) start
  | succ left ih =>
    refine .bind (temp_piece 1) fun thisbit => ?_
    refine .bind (emit_piece [] (by simp [knownA])) fun _ => ?_
    refine .bind (temp_piece 1) fun thisres => ?_
    refine .bind (emit_piece [] (by simp [known])) fun _ => ?_
    rw [show i + (left + 1) = i + 1 + left by omega]
    refine (ih (i + 1) thisres (by simp [knownA]) (by simp) ?_).knowing
      (by simp +contextual [List.subset_def])
    rintro ⟨joined, widthR, slice, widthB, facts⟩
    refine alu_bitWord joined widthR ?_
    rw [start facts, slice_bitWord slice widthB, xor_bits, bitParity_succ]

private theorem parity_width (bits : a ≠ []) : 1 + (a.length - 1) = (sigWord v a).width := by
  have positive := List.length_pos_iff.mpr bits
  rw [sigWord_width]
  omega

theorem selectReduceXor_piece (shape : UnaryShape cell a y) :
    Selected v σ P (selectReduceXor cell) (fun i => a ≠ [] ∧ Selects v σ y
      (boolBits y.length (bitParity (sigWord v a).bits.getLsbD (sigWord v a).width)) i) base O K := by
  simp only [selectReduceXor, unaryHeader_eq shape, bind_assoc, pure_bind]
  refine .bind (convert_piece shape.portA) fun aName => ?_
  refine .bind (convert_piece shape.portY) fun yName => ?_
  refine .bind (temp_piece 1) fun prevres => ?_
  refine .bind (emit_piece []) fun _ => ?_
  refine Piece.bind (xorLoop_piece aName _ 1 prevres (by simp) (by simp) ?_) fun parity =>
    bitResult_piece (fun facts => facts.2.2.2.1) (by simp) (by simp) ?_
  · rintro ⟨slice, width, -⟩
    rw [slice_bitWord slice width, bitParity_succ, bitParity_zero, Bool.false_bne]
  · rintro ⟨word, -, -, -, namedA, -⟩
    exact ⟨namedA.1, by rw [word, namedA.2, parity_width namedA.1]; rfl⟩

/-- With `left` bits to go, the chain holds the parity of the bits below `i`, inverted when
`left` is even. -/
theorem xnorLoop_piece (aName constTrue : Name) (left i : Nat) (prevres : Name)
    (knownA : aName ∈ K) (knownT : constTrue ∈ K) (known : prevres ∈ K)
    (start : P → σ constTrue = bitWord true ∧
      σ prevres = bitWord (bitParity (σ aName).bit i != decide (left % 2 = 0))) :
    Yields v σ P (xnorLoop aName constTrue i left prevres)
      (fun n => σ n = bitWord !(bitParity (σ aName).bit (i + left))) base O K := by
  induction left generalizing i prevres P K with
  | zero => exact Piece.ret (by simp [known]) (fun facts => by simpa using (start facts).2)
  | succ left ih =>
    refine .bind (temp_piece 1) fun thisbit => ?_
    refine .bind (emit_piece [] (by simp [knownA])) fun _ => ?_
    refine .bind (temp_piece 1) fun tmp => ?_
    refine .bind (emit_piece [] (by simp [known])) fun _ => ?_
    refine .bind (temp_piece 1) fun thisres => ?_
    refine .bind (emit_piece [] (by simp [knownT])) fun _ => ?_
    rw [show i + (left + 1) = i + 1 + left by omega]
    refine (ih (i + 1) thisres (by simp [knownA]) (by simp [knownT]) (by simp) ?_).knowing
      (by simp +contextual [List.subset_def])
    rintro ⟨inverted, widthR, joined, widthT, slice, widthB, facts⟩
    obtain ⟨wordT, wordP⟩ := start facts
    have mixed := alu_bitWord joined widthT (by
      rw [wordP, slice_bitWord slice widthB, xor_bits])
    refine ⟨wordT, alu_bitWord inverted widthR ?_⟩
    rw [mixed, wordT, xor_bits, bitParity_succ]
    have flip : decide (left % 2 = 0) = !decide ((left + 1) % 2 = 0) := by
      rcases Nat.mod_two_eq_zero_or_one left with h | h <;> simp [h, Nat.add_mod]
    rw [flip]
    cases bitParity (σ aName).bit i <;> cases (σ aName).bit i <;>
      cases decide ((left + 1) % 2 = 0) <;> rfl

theorem xnorStart_piece {aName prevres constTrue yName : Name} {aWidth yWidth : Nat}
    (knownA : aName ∈ K) (knownT : constTrue ∈ K)
    (words : P → (σ prevres).width = 1 ∧ σ constTrue = bitWord true) :
    Piece v σ P (xnorStart ⟨aWidth, yWidth, aName, yName⟩ prevres constTrue)
      (fun _ => σ prevres = bitWord ((σ aName).bit 0 != decide (aWidth % 2 = 1))) base
      (prevres :: O) K (fun _ => O)
      (fun _ => prevres :: K) := by
  refine Piece.ite (fun odd => ?_) fun even => ?_
  · refine .bind (temp_piece 1) fun prevbit => ?_
    refine .bind (emit_piece [] (by simp [knownA])) fun _ => ?_
    refine ((emit_piece [] (by simp [knownT])).weaken fun _ facts flip => ?_).knowing (by simp)
    obtain ⟨slice, widthB, facts⟩ := facts
    obtain ⟨widthP, wordT⟩ := words facts
    refine alu_bitWord flip widthP ?_
    rw [slice_bitWord slice widthB, wordT, xor_bits, decide_eq_true odd]
  · refine (emit_piece [] (by simp [knownA])).weaken fun _ facts slice => ?_
    rw [slice_bitWord slice (words facts).1, decide_eq_false even, Bool.bne_false]

theorem selectReduceXnor_piece (shape : UnaryShape cell a y) :
    Selected v σ P (selectReduceXnor cell) (fun i => a ≠ [] ∧ Selects v σ y
      (boolBits y.length !(bitParity (sigWord v a).bits.getLsbD (sigWord v a).width)) i) base O K := by
  simp only [selectReduceXnor, unaryHeader_eq shape, bind_assoc, pure_bind]
  refine .bind (convert_piece shape.portA) fun aName => ?_
  refine .bind (convert_piece shape.portY) fun yName => ?_
  refine .bind (temp_piece 1) fun prevres => ?_
  refine .bind (constGet_piece _) fun constTrue => ?_
  refine Piece.bind (xnorStart_piece (by simp) (by simp)
    (fun facts => ⟨facts.2.1, facts.1.trans constWord_true⟩)) (fun _ => ?_)
  refine Piece.bind (xnorLoop_piece aName constTrue _ 1 prevres (by simp) (by simp) (by simp) ?_)
    fun parity => bitResult_piece (fun facts => facts.2.2.2.2.1) (by simp) (by simp) ?_
  · rintro ⟨start, wordT, -, -, namedA, -⟩
    have positive : 0 < a.length := List.length_pos_iff.mpr namedA.1
    have polarity : decide (a.length % 2 = 1) = decide ((a.length - 1) % 2 = 0) := by
      rw [decide_eq_decide]
      omega
    refine ⟨wordT.trans constWord_true, ?_⟩
    rw [start, polarity, bitParity_succ, bitParity_zero, Bool.false_bne]
  · rintro ⟨word, -, -, -, -, namedA, -⟩
    exact ⟨namedA.1, by rw [word, namedA.2, parity_width namedA.1]; rfl⟩

theorem selectUnary_piece (shape : UnaryShape cell a y) {r : BitVec y.length}
    (emits : emittedUnary cell.type (signedParam cell .A_SIGNED) (sigWord v a).bits y.length = some r) :
    Selected v σ P (selectCell cell) (fun i => a ≠ [] ∧ Selects v σ y r i) base O K := by
  unfold selectCell
  cases type : cell.type <;>
    simp only [type, emittedUnary, opBits, Option.some.injEq, reduceCtorEq] at emits <;> subst emits
  case not => exact selectNot_piece shape
  case pos => exact selectPos_piece shape
  case neg => exact selectNeg_piece shape
  case reduceAnd => exact selectReduceAnd_piece shape
  case reduceOr => exact selectReduceOr_piece shape
  case reduceBool => exact selectReduceOr_piece shape
  case reduceXor => exact selectReduceXor_piece shape
  case reduceXnor => exact selectReduceXnor_piece shape
  case logicNot => exact selectLogicNot_piece shape

end ManticoreFrontend.Writer.UnaryCells
