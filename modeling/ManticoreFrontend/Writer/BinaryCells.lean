/- source: passes/manticore/manticore_writer.cc
   digest: The selected instructions of a two-operand cell compute the reference operator. -/

import ManticoreFrontend.Writer.CellContracts

namespace ManticoreFrontend.Writer.BinaryCells

open Foundation BitWord Kernel Constants CellTypes Signals DefinedValues CellChecker
open Assembly Generator Layout Cells CellLayout CellContracts

theorem seq_extended (s : Bool) (a b : Word) {m : Nat} (fitsA : a.width ≤ m) (fitsB : b.width ≤ m)
    (n : Nat) : aluBits .SEQ (extendWord s m a) (extendWord s m b) n =
      boolBits n (intOf s a.bits == intOf s b.bits) := by
  have same : ((extendWord s m a).val == (extendWord s m b).val) =
      (intOf s a.bits == intOf s b.bits) := by
    rw [Bool.eq_iff_iff, beq_iff_eq, beq_iff_eq, ← intOf_extendTo s fitsA a.bits,
      ← intOf_extendTo s fitsB b.bits]
    constructor
    · intro equal
      exact congrArg (intOf s) (BitVec.eq_of_toNat_eq equal)
    · intro equal
      exact congrArg BitVec.toNat (eq_of_intOf_eq s equal)
  simp only [aluBits, same]
  rfl

theorem slt_extended (s : Bool) (a b : Word) {m : Nat} (fitsA : a.width ≤ m) (fitsB : b.width ≤ m)
    (n : Nat) :
    aluBits (if s then .SLTS else .SLT) (extendWord s m a) (extendWord s m b) n =
      boolBits n (decide (intOf s a.bits < intOf s b.bits)) := by
  rw [← intOf_extendTo s fitsA a.bits, ← intOf_extendTo s fitsB b.bits]
  cases s with
  | true => rfl
  | false =>
    simp only [extendTo_false, intOf_false, Int.ofNat_lt]
    rfl

variable {v : Valuation} {σ : Name → Word} {P : Prop} {base : Worker} {O K : List Name} {cell : Cell}
  {a b y : SigSpec}

theorem assertEqualSigns_piece (shape : BinaryShape cell a b y) :
    Piece v σ P (assertEqualSigns cell)
      (fun _ => signedParam cell .B_SIGNED = signedParam cell .A_SIGNED) base O K (fun _ => O)
      (fun _ => K) := by
  obtain ⟨ca, valueA⟩ := shape.signedA
  obtain ⟨cb, valueB⟩ := shape.signedB
  simp only [assertEqualSigns, getParam_eq valueA, getParam_eq valueB, pure_bind]
  refine Piece.assert.weaken fun _ _ same => ?_
  rw [signedParam, signedParam, valueA, valueB, same]

section Extension

variable {name : PortId} {width : ParamId} {sig : SigSpec} (h : PortWidth cell name width sig)
  (w : Nat) (s : Bool)

include h

theorem extendPort_piece : Yields v σ P (extendPort cell name w s)
    (fun n => sig.length ≤ w ∧ Extended v σ sig s w n) base O K := by
  simp only [extendPort, getPort_eq h, pure_bind]
  cases s with
  | true =>
    exact (sextConvert_piece sig w).weaken
      fun n _ named => ⟨named.1, named.2.1, named.2.2 h.lt_int⟩
  | false =>
    exact (padConvert_piece sig w).weaken
      fun n _ named => ⟨named.1, named.2.1, named.2.2 h.lt_int⟩

theorem extendOperand_piece : Yields v σ P (extendOrSlice sig w s) (Extended v σ sig s w) base O K :=
  (extendOrSlice_piece sig w s).weaken fun _ _ named => ⟨named.1, named.2 h.lt_int⟩

end Extension

/-- What a comparison establishes of its operands. -/
abbrev Compared (cell : Cell) (a : SigSpec) : Prop :=
  a ≠ [] ∧ signedParam cell .B_SIGNED = signedParam cell .A_SIGNED

/-- The contract of a two-operand cell: the selected instruction computes the entry of the
operator table. -/
def SelectsEntry (v : Valuation) (σ : Name → Word) (cell : Cell) (a b y : SigSpec) (i : Instr) :
    Prop :=
  a ≠ [] ∧ ∃ r, opBits cell.type (signedParam cell .A_SIGNED) (signedParam cell .B_SIGNED)
    (sigWord v a).bits (sigWord v b).bits y.length = some r ∧ Selects v σ y r i

variable {op : AluOp}

private theorem SelectsEntry.relation {f : Int → Int → Bool} {i : Instr}
    (entry : ∀ (s : Bool) (n : Nat) {wa wb : Nat} (x : BitVec wa) (x' : BitVec wb),
      opBits cell.type s s x x' n = some (boolBits n (f (intOf s x) (intOf s x'))))
    (compared : Compared cell a)
    (selects : Selects v σ y (boolBits y.length (f
      (intOf (signedParam cell .A_SIGNED) (sigWord v a).bits)
      (intOf (signedParam cell .A_SIGNED) (sigWord v b).bits))) i) :
    SelectsEntry v σ cell a b y i :=
  ⟨compared.1, _, by rw [compared.2]; exact entry _ _ _ _, selects⟩

section

variable (shape : BinaryShape cell a b y)

include shape

theorem mkSeq_prepared (rd : Name) :
    Prepared v σ P rd (mkSeq cell rd) (fun i => Compared cell a ∧
      WritesBool σ rd (intOf (signedParam cell .A_SIGNED) (sigWord v a).bits ==
        intOf (signedParam cell .A_SIGNED) (sigWord v b).bits) i) base O K := by
  simp only [mkSeq, getBool_eq shape.signedA, getWidth_eq shape.portA, getWidth_eq shape.portB,
    pure_bind]
  refine .bind (assertEqualSigns_piece shape) (by simp) fun _ => ?_
  refine .bind (extendPort_piece shape.portA _ _) (by simp) fun op1 => ?_
  refine .bind (extendPort_piece shape.portB _ _) (by simp) fun op2 => .ret rfl (by simp) ?_
  rintro ⟨⟨-, namedB⟩, ⟨-, namedA⟩, same, -⟩
  refine ⟨⟨namedA.1, same⟩, WritesBool.alu (fun n => ?_)⟩
  rw [namedA.2, namedB.2, seq_extended _ _ _ (by simp) (by simp)]

theorem mkCompare_prepared (rd : Name) (less : Bool) :
    Prepared v σ P rd (mkCompare cell rd less) (fun i => Compared cell a ∧
      WritesBool σ rd (decide
        (intOf (signedParam cell .A_SIGNED) (sigWord v (if less then a else b)).bits <
          intOf (signedParam cell .A_SIGNED) (sigWord v (if less then b else a)).bits)) i) base O K := by
  simp only [mkCompare, getBool_eq shape.signedA, getWidth_eq shape.portA, getWidth_eq shape.portB,
    pure_bind]
  refine .bind (assertEqualSigns_piece shape) (by simp) fun _ => ?_
  cases less with
  | true =>
    refine .bind (extendPort_piece shape.portA _ _) (by simp) fun op1 => ?_
    refine .bind (extendPort_piece shape.portB _ _) (by simp) fun op2 => .ret rfl (by simp) ?_
    rintro ⟨⟨-, namedB⟩, ⟨-, namedA⟩, same, -⟩
    refine ⟨⟨namedA.1, same⟩, WritesBool.alu (fun n => ?_)⟩
    rw [namedA.2, namedB.2, slt_extended _ _ _ (by simp) (by simp)]
    rfl
  | false =>
    refine .bind (extendPort_piece shape.portB _ _) (by simp) fun op1 => ?_
    refine .bind (extendPort_piece shape.portA _ _) (by simp) fun op2 => .ret rfl (by simp) ?_
    rintro ⟨⟨-, namedA⟩, ⟨-, namedB⟩, same, -⟩
    refine ⟨⟨namedA.1, same⟩, WritesBool.alu (fun n => ?_)⟩
    rw [namedA.2, namedB.2, slt_extended _ _ _ (by simp) (by simp)]
    rfl

theorem convertBinaryOperands_piece :
    Piece v σ P (convertBinaryOperands cell) (fun names =>
      signedParam cell .B_SIGNED = signedParam cell .A_SIGNED ∧
      Extended v σ a (signedParam cell .A_SIGNED) y.length names.1 ∧
      Extended v σ b (signedParam cell .A_SIGNED) y.length names.2) base O K (fun _ => O)
      (fun p => p.2 :: p.1 :: K) := by
  simp only [convertBinaryOperands, getBool_eq shape.signedA, getWidth_eq shape.portY,
    getPort_eq shape.portA, getPort_eq shape.portB, pure_bind]
  refine .bind (assertEqualSigns_piece shape) fun _ => ?_
  refine .bind (extendOperand_piece shape.portA _ _) fun first => ?_
  refine Piece.bind (extendOperand_piece shape.portB _ _) fun second => Piece.ret (by simp) ?_
  rintro ⟨namedB, namedA, same, -⟩
  exact ⟨same, namedA, namedB⟩

theorem selectBinary_piece {f : (n : Nat) → BitVec n → BitVec n → BitVec n}
    (alu : ∀ (n : Nat) (x x' : BitVec n), aluBits op ⟨n, x⟩ ⟨n, x'⟩ n = f n x x')
    (entry : ∀ (s : Bool) (n : Nat) {wa wb : Nat} (x : BitVec wa) (x' : BitVec wb),
      opBits cell.type s s x x' n = some (f n (extendTo s n x) (extendTo s n x'))) :
    Selected v σ P (selectBinary op cell) (SelectsEntry v σ cell a b y) base O K := by
  simp only [selectBinary, convertPort_eq shape.portY]
  refine .bind (convertBinaryOperands_piece shape) fun names => ?_
  refine Piece.bind (convert_piece shape.portY) fun yName => Selected.ret (by simp) (by simp) ?_
  rintro ⟨namedY, ⟨same, namedA, namedB⟩, -⟩
  refine ⟨namedA.1, _, by rw [same]; exact entry _ _ _ _, Selects.alu namedY ?_⟩
  rw [namedA.2, namedB.2]
  exact alu _ _ _

theorem selectXnor_piece (type : cell.type = .xnor) :
    Selected v σ P (selectXnor cell) (SelectsEntry v σ cell a b y) base O K := by
  simp only [selectXnor, getWidth_eq shape.portY, convertPort_eq shape.portY, pure_bind]
  refine .bind (convertBinaryOperands_piece shape) fun names => ?_
  refine .bind (temp_piece _) fun tmp => ?_
  refine .bind (emit_piece []) fun _ => ?_
  refine .bind (convert_piece shape.portY) fun yName => ?_
  refine Piece.bind (constGet_piece _) fun ones => Selected.ret (by simp) (by simp) ?_
  rintro ⟨wordOnes, namedY, mixed, width, ⟨same, namedA, namedB⟩, -⟩
  refine ⟨namedA.1, _, by rw [type, same]; rfl, Selects.alu namedY ?_⟩
  rw [(alu_iff width).mp mixed, wordOnes, namedA.2, namedB.2, constWord_ofState_S1]
  simp [aluBits, extendWord]

theorem selectEq_piece (type : cell.type = .eq) :
    Selected v σ P (selectEq cell) (SelectsEntry v σ cell a b y) base O K := by
  simp only [selectEq, getWidth_eq shape.portY, convertPort_eq shape.portY, pure_bind]
  refine .bind (convert_piece shape.portY) fun yName => ?_
  refine (boolResult_piece And.left (by simp) fun _ => mkSeq_prepared shape).weaken
    fun i _ selects => ?_
  refine SelectsEntry.relation (f := (· == ·)) ?_ selects.1 selects.2
  simp [type, opBits]

theorem selectNe_piece (type : cell.type = .ne) :
    Selected v σ P (selectNe cell) (SelectsEntry v σ cell a b y) base O K := by
  simp only [selectNe, getWidth_eq shape.portY, convertPort_eq shape.portY, pure_bind]
  refine .bind (convert_piece shape.portY) fun yName => ?_
  refine .bind (temp_piece 1) fun seqRes => ?_
  refine Prepared.emit [] (mkSeq_prepared shape seqRes) fun seq => ?_
  refine .bind (constGet_piece _) fun constTrue => ?_
  refine (boolResult_piece (fun facts => facts.2.2.2.2.1) (by simp) fun _ rd =>
    .ret rfl (by simp) ?_).weaken (fun i _ selects =>
      SelectsEntry.relation (f := (· != ·)) ?_ selects.1 selects.2)
  · rintro ⟨wordT, holds, ⟨compared, write⟩, width, -⟩
    refine ⟨compared, WritesBool.alu (fun n => ?_)⟩
    rw [write.bitWord holds width, wordT, constWord_true, xor_bits, Bool.bne_true]
    rfl
  · simp [type, opBits]

theorem selectStrict_piece {less : Bool} (type : cell.type = if less then .lt else .gt) :
    Selected v σ P (selectStrict cell less) (SelectsEntry v σ cell a b y) base O K := by
  simp only [selectStrict, getWidth_eq shape.portY, convertPort_eq shape.portY, pure_bind]
  refine .bind (convert_piece shape.portY) fun yName => ?_
  refine (boolResult_piece And.left (by simp) fun _ rd => mkCompare_prepared shape rd less).weaken
    (fun i _ selects => ?_)
  cases less with
  | true =>
    refine SelectsEntry.relation (f := fun m m' => decide (m < m')) ?_ selects.1 selects.2
    simp [type, opBits]
  | false =>
    refine SelectsEntry.relation (f := fun m m' => decide (m' < m)) ?_ selects.1 selects.2
    simp [type, opBits]

theorem selectWeak_piece {less : Bool} (type : cell.type = if less then .le else .ge) :
    Selected v σ P (selectWeak cell less) (SelectsEntry v σ cell a b y) base O K := by
  simp only [selectWeak, getWidth_eq shape.portY, convertPort_eq shape.portY, pure_bind]
  refine .bind (convert_piece shape.portY) fun yName => ?_
  refine .bind (temp_piece 1) fun equal => ?_
  refine .bind (temp_piece 1) fun comp => ?_
  refine Prepared.emit [comp] (mkSeq_prepared shape equal) fun seq => ?_
  refine Prepared.emit [] (mkCompare_prepared shape comp less) fun slt => ?_
  refine (boolResult_piece (fun facts => facts.2.2.2.2.2.2.1) (by simp) fun _ rd =>
    .ret rfl (by simp) ?_).weaken (fun i _ selects => SelectsEntry.relation
      (f := fun m m' => decide ((if less then m else m') < (if less then m' else m)) || m == m')
      ?_ selects.1 selects.2)
  · rintro ⟨holdsLt, ⟨-, writeLt⟩, holdsEq, ⟨compared, writeEq⟩, widthC, widthE, -⟩
    refine ⟨compared, WritesBool.alu (fun n => ?_)⟩
    rw [writeLt.bitWord holdsLt widthC, writeEq.bitWord holdsEq widthE, or_bits]
    cases less <;> rfl
  · intro s n wa wb x x'
    cases less with
    | true =>
      simp only [type, opBits, if_true, Bool.and_self, Option.some.injEq]
      congr 1
      rw [Bool.eq_iff_iff]
      simp
      omega
    | false =>
      simp only [type, opBits, Bool.false_eq_true, if_false, Bool.and_self, Option.some.injEq]
      congr 1
      rw [Bool.eq_iff_iff]
      simp
      omega

theorem selectLogic_piece {f : Bool → Bool → Bool}
    (alu : ∀ c d n, aluBits op (bitWord c) (bitWord d) n = boolBits n (f c d))
    (entry : ∀ (s t : Bool) (n : Nat) {wa wb : Nat} (x : BitVec wa) (x' : BitVec wb),
      opBits cell.type s t x x' n = some (boolBits n (f (x != 0#(wa)) (x' != 0#(wb))))) :
    Selected v σ P (selectLogic op cell) (SelectsEntry v σ cell a b y) base O K := by
  simp only [selectLogic, getWidth_eq shape.portA, getWidth_eq shape.portB, getWidth_eq shape.portY,
    convertPort_eq shape.portA, convertPort_eq shape.portB, convertPort_eq shape.portY, pure_bind]
  refine .bind (temp_piece 1) fun aZero => ?_
  refine .bind (temp_piece 1) fun bZero => ?_
  refine .bind (temp_piece 1) fun aNonzero => ?_
  refine .bind (temp_piece 1) fun bNonzero => ?_
  refine .bind (convert_piece shape.portA) fun aName => ?_
  refine .bind (convert_piece shape.portB) fun bName => ?_
  refine .bind (constGet_piece _) fun aZeros => ?_
  refine .bind (emit_piece [bNonzero, aNonzero, bZero] (by simp)) fun _ => ?_
  refine .bind (constGet_piece _) fun bZeros => ?_
  refine .bind (emit_piece [bNonzero, aNonzero] (by simp)) fun _ => ?_
  refine .bind (constGet_piece _) fun constTrue => ?_
  refine .bind (emit_piece [bNonzero] (by simp)) fun _ => ?_
  refine .bind (emit_piece []) fun _ => ?_
  refine .bind (convert_piece shape.portY) fun yName => ?_
  refine (boolResult_piece And.left (by simp) fun _ rd => .ret rfl (by simp) ?_).weaken
    (fun i _ selects => ⟨selects.1, _, entry _ _ _ _ _, selects.2⟩)
  rintro ⟨-, notB, notA, wordT, seqB, wordB, seqA, wordA, namedB, namedA, widthBn, widthAn, widthB,
    widthA, -⟩
  have zeroA := alu_bitWord seqA widthA (by
    rw [namedA.2, wordA, constWord_ofState_S0, seq_zero _ (sigWord_width v a)])
  have zeroB := alu_bitWord seqB widthB (by
    rw [namedB.2, wordB, constWord_ofState_S0, seq_zero _ (sigWord_width v b)])
  have nonzeroA := alu_bitWord notA widthAn (by
    rw [zeroA, wordT, constWord_true, xor_bits, Bool.bne_true])
  have nonzeroB := alu_bitWord notB widthBn (by
    rw [zeroB, wordT, constWord_true, xor_bits, Bool.bne_true])
  refine ⟨namedA.1, WritesBool.alu (fun n => ?_)⟩
  rw [nonzeroA, nonzeroB, alu]
  rfl

theorem selectShift_piece
    (alu : ∀ (s t : Bool) (n : Nat) (x amount : Word), opBits cell.type s t x.bits amount.bits n =
      some (aluBits op (extendWord s (max x.width n) x) amount n)) :
    Selected v σ P (selectShift op cell) (SelectsEntry v σ cell a b y) base O K := by
  simp only [selectShift, getBool_eq shape.signedA, getBool_eq shape.signedB,
    getWidth_eq shape.portA, getWidth_eq shape.portY, convertPort_eq shape.portY,
    convertPort_eq shape.portB, pure_bind]
  refine .bind Piece.assert fun _ => ?_
  refine .bind (convert_piece shape.portY) fun yName => ?_
  refine .bind (extendPort_piece shape.portA _ _) fun aName => ?_
  refine Piece.bind (convert_piece shape.portB) fun bName => Selected.ret (by simp) (by simp) ?_
  rintro ⟨namedB, ⟨-, namedA⟩, namedY, -⟩
  refine ⟨namedA.1, _, alu _ _ _ _ _, Selects.alu namedY ?_⟩
  rw [namedA.2, namedB.2, sigWord_width]

theorem selectSshr_piece (type : cell.type = .sshr) :
    Selected v σ P (selectSshr cell) (SelectsEntry v σ cell a b y) base O K := by
  simp only [selectSshr, getBool_eq shape.signedA, getBool_eq shape.signedB,
    getWidth_eq shape.portA, getWidth_eq shape.portY, convertPort_eq shape.portY,
    convertPort_eq shape.portA, convertPort_eq shape.portB, pure_bind]
  refine .bind Piece.assert fun _ => ?_
  refine .bind (convert_piece shape.portY) fun yName => ?_
  refine Piece.ite (fun signed => ?_) fun unsigned => ?_
  · refine Piece.ite (fun narrow => ?_) fun wide => ?_
    · refine .bind (temp_piece _) fun widened => ?_
      refine .bind (convert_piece shape.portA) fun aName => ?_
      refine .bind (convert_piece shape.portB) fun bName => ?_
      refine .bind (emit_piece []) fun _ => ?_
      refine Selected.ret (by simp) (by simp) ?_
      rintro ⟨shift, namedB, namedA, width, namedY, -⟩
      refine ⟨namedA.1, _, by rw [type, opBits, if_pos signed], namedY.1, ?_⟩
      rw [slice_iff namedY.width, (alu_iff width).mp shift, namedA.2, namedB.2, namedY.2]
      have fits : y.length ≤ max a.length y.length := Nat.le_max_right _ _
      have shorter : y.length ≤ (sigWord v a).width := by
        rw [sigWord_width]
        omega
      simp only [aluBits, resized, extract_zero, BitVec.setWidth_eq, shiftRightTo, if_true,
        extendTo_of_le true shorter, BitVec.setWidth_setWidth_of_le _ fits]
      rfl
    · refine .bind (extendPort_piece shape.portA _ _) fun aName => ?_
      refine Piece.bind (convert_piece shape.portB) fun bName => Selected.ret (by simp) (by simp) ?_
      rintro ⟨namedB, ⟨-, namedA⟩, namedY, -⟩
      have fits : max a.length y.length = y.length := by omega
      refine ⟨namedA.1, _, by rw [type, opBits, if_pos signed], Selects.alu namedY ?_⟩
      rw [fits] at namedA
      have longer : (sigWord v a).width ≤ y.length := by
        rw [sigWord_width]
        omega
      rw [namedA.2, namedB.2, ← shiftRightTo_widened longer]
      simp only [aluBits, extendWord, extendTo_true, BitVec.setWidth_eq]
      rfl
  · refine .bind (extendPort_piece shape.portA _ _) fun aName => ?_
    refine Piece.bind (convert_piece shape.portB) fun bName => Selected.ret (by simp) (by simp) ?_
    rintro ⟨namedB, ⟨-, namedA⟩, namedY, -⟩
    refine ⟨namedA.1, _, by rw [type, opBits, if_neg unsigned], Selects.alu namedY ?_⟩
    have swap : max y.length (sigWord v a).width = max a.length y.length := by
      rw [sigWord_width, Nat.max_comm]
    rw [namedA.2, namedB.2, swap, shiftRightTo_false]
    rfl

end

def isBinary : CellType → Bool
  | .and | .or | .xor | .xnor | .add | .sub | .mul | .eq | .ne | .lt | .gt | .le | .ge
  | .logicAnd | .logicOr => true
  | _ => false

def isShift : CellType → Bool
  | .shl | .sshl | .shr | .sshr => true
  | _ => false

theorem selectTwoOperand_piece (shape : BinaryShape cell a b y)
    (supported : isBinary cell.type = true ∨ isShift cell.type = true) :
    Selected v σ P (selectCell cell) (SelectsEntry v σ cell a b y) base O K := by
  unfold selectCell
  cases type : cell.type <;>
    simp only [type, isBinary, isShift, Bool.false_eq_true, or_self] at supported
  case and =>
    exact selectBinary_piece (f := fun n x x' => x &&& x') shape (by simp [aluBits])
      (by simp [type, opBits])
  case or =>
    exact selectBinary_piece (f := fun n x x' => x ||| x') shape (by simp [aluBits])
      (by simp [type, opBits])
  case xor =>
    exact selectBinary_piece (f := fun n x x' => x ^^^ x') shape (by simp [aluBits])
      (by simp [type, opBits])
  case xnor => exact selectXnor_piece shape type
  case add =>
    exact selectBinary_piece (f := fun n x x' => x + x') shape (by simp [aluBits])
      (by simp [type, opBits])
  case sub =>
    exact selectBinary_piece (f := fun n x x' => x - x') shape (by simp [aluBits])
      (by simp [type, opBits])
  case mul =>
    exact selectBinary_piece (f := fun n x x' => x * x') shape (by simp [aluBits])
      (by simp [type, opBits])
  case eq => exact selectEq_piece shape type
  case ne => exact selectNe_piece shape type
  case lt => exact selectStrict_piece shape type
  case gt => exact selectStrict_piece shape type
  case le => exact selectWeak_piece shape type
  case ge => exact selectWeak_piece shape type
  case logicAnd => exact selectLogic_piece (f := and) shape and_bits (by simp [type, opBits])
  case logicOr => exact selectLogic_piece (f := or) shape or_bits (by simp [type, opBits])
  case sshr => exact selectSshr_piece shape type
  case shr =>
    refine selectShift_piece shape fun s t n x amount => ?_
    rw [type, opBits, shiftRightTo_false, Nat.max_comm]
    rfl
  all_goals
    refine selectShift_piece shape fun s t n x amount => ?_
    rw [type, opBits, ← extendTo_shiftLeft s (Nat.le_max_right x.width n)]
    rfl

end ManticoreFrontend.Writer.BinaryCells
