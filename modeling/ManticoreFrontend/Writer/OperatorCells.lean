/- source: passes/manticore/manticore_writer.cc, kernel/celltypes.h
   digest: Emitted operator cells against the reference evaluator, for every width and signedness. -/

import ManticoreFrontend.Writer.Translation

namespace ManticoreFrontend.Writer.OperatorCells

open Foundation BitWord Emission Kernel Constants CellTypes Signals Option DefinedValues CellChecker
open Assembly Generator Denotation Cells CellLayout CellContracts UnaryCells BinaryCells Translation

structure Converted (cells : List Cell) (cell : Cell) (st st' : Worker) : Prop where
  checked : ∀ c ∈ cell :: cells, check c = true
  earlier : convertCells cells {} = some ((), st)
  accepted : convertCell cell st = some ((), st')

variable {cells : List Cell} {cell : Cell} {st st' : Worker} {v : Valuation} {a b y : SigSpec}

theorem Converted.before (h : Converted cells cell st st') : Reached st :=
  convertCells_reached reached_initial (fun c hc => h.checked c (by simp [hc])) h.earlier

theorem Converted.after (h : Converted cells cell st st') : Reached st' :=
  h.before.step (h.checked cell (by simp)) h.accepted

private theorem wordConst_eq_iff {n : Nat} {w : Word} {r : BitVec n} (width : w.width = n) :
    wordConst w = toConst r ↔ w = ⟨n, r⟩ := by
  obtain ⟨m, x⟩ := w
  subst width
  rw [wordConst, toConst_inj]
  constructor
  · rintro rfl
    rfl
  · intro h
    cases h
    rfl

theorem unaryShape_ports (checked : check cell = true) (unary : isUnary cell.type = true)
    (portA : cell.getPort .A = some a) (portY : cell.getPort .Y = some y) :
    UnaryShape cell a y := by
  obtain ⟨a', y', shape⟩ := checkUnary_shape (check_unary checked unary)
  obtain rfl := some.inj (portA.symm.trans shape.portA.connected)
  obtain rfl := some.inj (portY.symm.trans shape.portY.connected)
  exact shape

theorem unary_signedB (checked : check cell = true) (unary : isUnary cell.type = true) :
    signedParam cell .B_SIGNED = false := by
  have h := check_unary checked unary
  simp only [checkUnary, checkExpected, Bool.and_eq_true, List.all_eq_true, decide_eq_true_eq] at h
  unfold signedParam
  cases value : cell.getParam .B_SIGNED with
  | none => rfl
  | some c =>
    have listed := h.2.1 _ (lookup_mem value)
    simp at listed

private theorem opBits_unary {type : CellType} (unary : isUnary type = true) (s : Bool) {w : Nat}
    (x : BitVec w) (n : Nat) : ∃ r, opBits type s false x (0#0) n = some r := by
  cases type <;> simp [isUnary] at unary <;> exact ⟨_, rfl⟩

/-- The program of an accepted unary cell gives the name of `Y` the value of the reference evaluator
exactly on the faithful operands, and it extends every solution of the program before it in which
`Y` has the emitted value. -/
theorem unary_value_iff_faithful (h : Converted cells cell st st')
    (unary : isUnary cell.type = true) (portA : cell.getPort .A = some a)
    (portY : cell.getPort .Y = some y) (defined : (sigConst v a).isFullyDef = true) :
    (∀ σ n t, convertSig y st' = some (n, t) → Satisfies v σ t →
      (evalCell cell (sigConst v a) [] = some (wordConst (σ n)) ↔
        Faithful cell.type (signedParam cell .A_SIGNED) (sigWord v a).bits y.length)) ∧
    (Satisfiable v st' ↔ Satisfiable v st ∧ ∃ r,
      emittedUnary cell.type (signedParam cell .A_SIGNED) (sigWord v a).bits y.length = some r ∧
        sigWord v y = ⟨y.length, r⟩) := by
  have checked := h.checked cell (by simp)
  have shape := unaryShape_ports checked unary portA portY
  have operator : isOperator cell.type = true := by simp [isOperator, unary]
  obtain ⟨r, emits⟩ := emittedUnary_isSome unary (signedParam cell .A_SIGNED) (sigWord v a).bits
    y.length
  obtain ⟨e, entry⟩ := opBits_unary unary (signedParam cell .A_SIGNED) (sigWord v a).bits y.length
  have selects : ∀ σ, Selected v σ True (selectCell cell)
      (fun i => a ≠ [] ∧ Selects v σ y r i) st [] [] := fun σ => selectUnary_piece shape emits
  have solutions := convertCell_solutions h.before operator selects h.accepted
  refine ⟨fun σ n t run sat => ?_, ?_⟩
  · obtain ⟨after, word⟩ := name_value h.after shape.portY.lt_int run sat
    obtain ⟨before, value⟩ := solutions.mp after
    obtain ⟨nonemptyA, nonemptyY⟩ := convertCell_fact h.before operator selects h.accepted before
    have evaluated : evalCell cell (sigConst v a) [] = some (toConst e) := by
      rw [sigConst_eq_word defined, wordConst, ← toConst_nil (0#0)]
      refine evalCell_defined shape.portY ?_ (List.length_pos_iff.mpr nonemptyY) ?_
      · rw [sigWord_width]
        exact List.length_pos_iff.mpr nonemptyA
      · rw [unary_signedB checked unary]
        exact entry
    rw [evaluated, word, value, ← emittedUnary_eq_iff emits entry]
    simp only [wordConst, some.injEq, toConst_inj]
    exact eq_comm
  · rw [solutions]
    constructor
    · rintro ⟨before, value⟩
      exact ⟨before, r, emits, value⟩
    · rintro ⟨before, r', emits', value⟩
      obtain rfl := some.inj (emits.symm.trans emits')
      exact ⟨before, value⟩

/-- A unary cell from the wire `a` to the wire `y`. -/
def unaryCell (type : CellType) (signed : Bool) (aWidth yWidth : Nat) : Cell where
  name := "unary"
  type := type
  parameters := [(.A_SIGNED, [State.ofBool signed]), (.A_WIDTH, Const.ofInt aWidth 4),
    (.Y_WIDTH, Const.ofInt yWidth 4)]
  connections := [(.A, SigSpec.ofWire ⟨"a", aWidth, true, false⟩),
    (.Y, SigSpec.ofWire ⟨"y", yWidth, false, true⟩)]

/-- The wire `a` holds `m`, the wire `b` holds `n` and every other wire `k`. -/
def inputs (m n k : Nat) : Valuation := fun w =>
  BitVec.ofNat w.width (if w.name = "a" then m else if w.name = "b" then n else k)

private theorem converted_alone (cell : Cell) (checked : check cell = true)
    (accepted : (convertCell cell {}).isSome = true) : ∃ st', Converted [] cell {} st' := by
  obtain ⟨⟨u, st'⟩, run⟩ := isSome_iff_exists.mp accepted
  exact ⟨st', by simpa using checked, rfl, run⟩

private theorem satisfiable_initial (v : Valuation) : Satisfiable v {} :=
  ⟨fun _ => ⟨0, 0#0⟩, ⟨⟨by simp, by simp, by simp, by simp⟩, by simp⟩⟩

theorem unary_value_pos_three : ∃ st', Converted [] (unaryCell .pos true 2 3) {} st' ∧
    Satisfiable (inputs 3 0 7) st' ∧
    ∀ σ n t, convertSig (SigSpec.ofWire ⟨"y", 3, false, true⟩) st' = some (n, t) →
      Satisfies (inputs 3 0 7) σ t →
      evalCell (unaryCell .pos true 2 3) (sigConst (inputs 3 0 7)
        (SigSpec.ofWire ⟨"a", 2, true, false⟩)) [] = some (wordConst (σ n)) := by
  obtain ⟨st', converted⟩ := converted_alone (unaryCell .pos true 2 3) (by decide) (by decide)
  have value := unary_value_iff_faithful (v := inputs 3 0 7) converted rfl rfl rfl (by decide)
  refine ⟨st', converted, value.2.mpr ⟨satisfiable_initial _, _, rfl, by decide⟩, ?_⟩
  intro σ n t named sat
  exact (value.1 σ n t named sat).mpr (by decide)

private theorem satisfiable_unary {cell : Cell} {r : BitVec y.length} (shape : UnaryShape cell a y)
    (unary : isUnary cell.type = true)
    (emits : emittedUnary cell.type (signedParam cell .A_SIGNED) (sigWord v a).bits y.length = some r)
    (value : sigWord v y = ⟨y.length, r⟩) (run : convertCell cell {} = some ((), st')) :
    Satisfiable v st' := by
  have operator : isOperator cell.type = true := by simp [isOperator, unary]
  have solutions := convertCell_solutions reached_initial operator
    (fun σ => selectUnary_piece (v := v) shape emits) run
  exact solutions.mpr
    ⟨satisfiable_initial v, value⟩

/-- A signed `$pos` takes the two-bit operand 2 to 2 where the evaluator gives 6. An unsigned `$neg`
takes it to 2 where the evaluator gives 6. -/
theorem unary_value_unfaithful :
    (∃ st', Converted [] (unaryCell .pos true 2 3) {} st' ∧ Satisfiable (inputs 2 0 2) st' ∧
      evalCell (unaryCell .pos true 2 3) (sigConst (inputs 2 0 2)
        (SigSpec.ofWire ⟨"a", 2, true, false⟩)) [] ≠
        some (wordConst (sigWord (inputs 2 0 2) (SigSpec.ofWire ⟨"y", 3, false, true⟩)))) ∧
    (∃ st', Converted [] (unaryCell .neg false 2 3) {} st' ∧ Satisfiable (inputs 2 0 2) st' ∧
      evalCell (unaryCell .neg false 2 3) (sigConst (inputs 2 0 2)
        (SigSpec.ofWire ⟨"a", 2, true, false⟩)) [] ≠
        some (wordConst (sigWord (inputs 2 0 2) (SigSpec.ofWire ⟨"y", 3, false, true⟩)))) := by
  constructor
  · obtain ⟨st', converted⟩ :=
      converted_alone (unaryCell .pos true 2 3) (by decide) (by decide)
    have shape := unaryShape_ports (converted.checked _ List.mem_cons_self) rfl rfl rfl
    exact ⟨st', converted, satisfiable_unary shape rfl rfl (by decide) converted.accepted, by decide⟩
  · obtain ⟨st', converted⟩ :=
      converted_alone (unaryCell .neg false 2 3) (by decide) (by decide)
    have shape := unaryShape_ports (converted.checked _ List.mem_cons_self) rfl rfl rfl
    exact ⟨st', converted, satisfiable_unary shape rfl rfl (by decide) converted.accepted, by decide⟩

theorem binaryShape_ports (checked : check cell = true)
    (supported : isBinary cell.type = true ∨ isShift cell.type = true)
    (portA : cell.getPort .A = some a) (portB : cell.getPort .B = some b)
    (portY : cell.getPort .Y = some y) : BinaryShape cell a b y := by
  obtain ⟨a', b', y', shape⟩ := checkBinary_shape (check_twoOperand checked supported)
  obtain rfl := some.inj (portA.symm.trans shape.portA.connected)
  obtain rfl := some.inj (portB.symm.trans shape.portB.connected)
  obtain rfl := some.inj (portY.symm.trans shape.portY.connected)
  exact shape

private theorem opBits_isSome {type : CellType}
    (supported : isBinary type = true ∨ isShift type = true) (s t : Bool) {w w' : Nat} (x : BitVec w)
    (x' : BitVec w') (n : Nat) : ∃ r, opBits type s t x x' n = some r := by
  cases type <;> simp [isBinary, isShift] at supported <;> exact ⟨_, rfl⟩

private theorem twoOperand_value (h : Converted cells cell st st')
    (supported : isBinary cell.type = true ∨ isShift cell.type = true)
    (portA : cell.getPort .A = some a) (portB : cell.getPort .B = some b)
    (portY : cell.getPort .Y = some y) (definedA : (sigConst v a).isFullyDef = true)
    (definedB : (sigConst v b).isFullyDef = true) :
    (∀ σ n t, convertSig y st' = some (n, t) → Satisfies v σ t →
      evalCell cell (sigConst v a) (sigConst v b) = some (wordConst (σ n))) ∧
    (Satisfiable v st' ↔ Satisfiable v st ∧
      evalCell cell (sigConst v a) (sigConst v b) = some (wordConst (sigWord v y))) := by
  have shape := binaryShape_ports (h.checked cell (by simp)) supported portA portB portY
  have operator : isOperator cell.type = true := by
    rcases supported with binary | shift
    · simp [isOperator, binary]
    · simp [isOperator, shift]
  obtain ⟨r, entry⟩ := opBits_isSome supported (signedParam cell .A_SIGNED)
    (signedParam cell .B_SIGNED) (sigWord v a).bits (sigWord v b).bits y.length
  have selects : ∀ σ, Selected v σ True (selectCell cell)
      (fun i => a ≠ [] ∧ Selects v σ y r i) st [] [] := by
    intro σ
    refine (selectTwoOperand_piece shape supported).weaken (fun i _ selected => ?_)
    obtain ⟨nonempty, r', entry', selected⟩ := selected
    obtain rfl := some.inj (entry.symm.trans entry')
    exact ⟨nonempty, selected⟩
  have solutions := convertCell_solutions h.before operator selects h.accepted
  have evaluated : Satisfiable v st →
      evalCell cell (sigConst v a) (sigConst v b) = some (toConst r) := by
    intro before
    obtain ⟨nonemptyA, nonemptyY⟩ := convertCell_fact h.before operator selects h.accepted before
    rw [sigConst_eq_word definedA, sigConst_eq_word definedB, wordConst, wordConst]
    refine evalCell_defined shape.portY ?_ (List.length_pos_iff.mpr nonemptyY) entry
    rw [sigWord_width]
    exact List.length_pos_iff.mpr nonemptyA
  refine ⟨fun σ n t run sat => ?_, ?_⟩
  · obtain ⟨after, word⟩ := name_value h.after shape.portY.lt_int run sat
    obtain ⟨before, value⟩ := solutions.mp after
    rw [evaluated before, word, value, wordConst]
  · rw [solutions]
    refine and_congr_right (fun before => ?_)
    rw [evaluated before, some.injEq, eq_comm (a := toConst r),
      wordConst_eq_iff (sigWord_width v y)]

/-- Instruction selection of the two-operand cells other than shifts is the reference evaluator. -/
theorem binary_value_eq_eval (h : Converted cells cell st st')
    (binary : isBinary cell.type = true) (portA : cell.getPort .A = some a)
    (portB : cell.getPort .B = some b) (portY : cell.getPort .Y = some y)
    (definedA : (sigConst v a).isFullyDef = true) (definedB : (sigConst v b).isFullyDef = true) :
    (∀ σ n t, convertSig y st' = some (n, t) → Satisfies v σ t →
      evalCell cell (sigConst v a) (sigConst v b) = some (wordConst (σ n))) ∧
    (Satisfiable v st' ↔ Satisfiable v st ∧
      evalCell cell (sigConst v a) (sigConst v b) = some (wordConst (sigWord v y))) :=
  twoOperand_value h (Or.inl binary) portA portB portY definedA definedB

/-- A two-operand cell from the wires `a` and `b` to the wire `y`. -/
def twoOperandCell (type : CellType) (aSigned bSigned : Bool) (aWidth bWidth yWidth : Nat) :
    Cell where
  name := "binary"
  type := type
  parameters := [(.A_SIGNED, [State.ofBool aSigned]), (.B_SIGNED, [State.ofBool bSigned]),
    (.A_WIDTH, Const.ofInt aWidth 4), (.B_WIDTH, Const.ofInt bWidth 4),
    (.Y_WIDTH, Const.ofInt yWidth 4)]
  connections := [(.A, SigSpec.ofWire ⟨"a", aWidth, true, false⟩),
    (.B, SigSpec.ofWire ⟨"b", bWidth, true, false⟩),
    (.Y, SigSpec.ofWire ⟨"y", yWidth, false, true⟩)]

theorem binary_value_lt_signed : ∃ st', Converted [] (twoOperandCell .lt true true 2 3 2) {} st' ∧
    Satisfiable (inputs 3 1 1) st' := by
  obtain ⟨st', converted⟩ :=
    converted_alone (twoOperandCell .lt true true 2 3 2) (by decide) (by decide)
  have value := binary_value_eq_eval (v := inputs 3 1 1) converted rfl rfl rfl rfl (by decide)
    (by decide)
  exact ⟨st', converted, value.2.mpr ⟨satisfiable_initial _, by decide⟩⟩

section

variable {name : PortId} {width : ParamId} (h : PortWidth cell name width a) (nonempty : a ≠ [])

include h nonempty

theorem extendPort_total {w : Nat} (le : a.length ≤ w) (s : Bool) :
    Total (extendPort cell name w s) := by
  rw [extendPort, getPort_eq h, pure_bind]
  exact Total.ite (fun _ => sextConvert_total nonempty le) (fun _ => padConvert_total nonempty le)

theorem convertPort_total : Total (convertPort cell name) := by
  rw [convertPort_eq h]
  exact convertSig_total nonempty

end

theorem shift_unsignedB (checked : check cell = true) (shift : isShift cell.type = true) :
    signedParam cell .B_SIGNED = false := by
  have binary := check_twoOperand checked (Or.inr shift)
  simp only [checkBinary, Bool.and_eq_true] at binary
  obtain ⟨⟨⟨⟨⟨-, bool⟩, -⟩, -⟩, -⟩, -⟩ := binary
  have zero : param cell .B_SIGNED = some 0 := by
    unfold check at checked
    cases type : cell.type <;> simp [type, isShift] at shift checked <;> exact checked.2
  obtain ⟨c, value, unsigned⟩ := map_eq_some_iff.mp zero
  simp only [paramBool, value, Bool.and_eq_true, decide_eq_true_eq] at bool
  simp [signedParam, value, Const.asBool_of_asInt bool.1 unsigned]

section Shift

variable (shape : BinaryShape cell a b y) (unsigned : signedParam cell .B_SIGNED = false)
  (nonemptyA : a ≠ []) (nonemptyB : b ≠ []) (nonemptyY : y ≠ [])
include shape unsigned nonemptyA nonemptyB nonemptyY

theorem selectShift_total (op : AluOp) : Total (selectShift op cell) := by
  rw [selectShift, getBool_eq shape.signedB, getBool_eq shape.signedA, getWidth_eq shape.portA,
    getWidth_eq shape.portY]
  simp only [pure_bind]
  refine (Total.assert unsigned).bind (fun _ => (convertPort_total shape.portY nonemptyY).bind ?_)
  refine fun yName => (extendPort_total shape.portA nonemptyA (le_max_left _ _) _).bind ?_
  exact fun aName => (convertPort_total shape.portB nonemptyB).bind fun bName => Total.ret _

theorem selectSshr_total : Total (selectSshr cell) := by
  rw [selectSshr, getBool_eq shape.signedB, getBool_eq shape.signedA, getWidth_eq shape.portA,
    getWidth_eq shape.portY]
  simp only [pure_bind]
  refine (Total.assert unsigned).bind (fun _ => (convertPort_total shape.portY nonemptyY).bind ?_)
  have convertB := convertPort_total shape.portB nonemptyB
  have extend := fun s => extendPort_total shape.portA nonemptyA (le_max_left a.length y.length) s
  refine fun yName => Total.ite (fun _ => Total.ite (fun _ => ?_) (fun _ => ?_)) (fun _ => ?_)
  · refine (temp_total _).bind (fun widened => (convertPort_total shape.portA nonemptyA).bind ?_)
    exact fun aName => convertB.bind fun bName => (emit_total _).bind fun _ => Total.ret _
  · exact (extend true).bind fun aName => convertB.bind fun bName => Total.ret _
  · exact (extend false).bind fun aName => convertB.bind fun bName => Total.ret _

theorem convertShift_total (shift : isShift cell.type = true) : Total (convertCell cell) := by
  have left := selectShift_total shape unsigned nonemptyA nonemptyB nonemptyY .SLL
  have right := selectShift_total shape unsigned nonemptyA nonemptyB nonemptyY .SRL
  have arithmetic := selectSshr_total shape unsigned nonemptyA nonemptyB nonemptyY
  unfold convertCell selectCell
  cases type : cell.type <;> simp [type, isShift] at shift
  · exact left.bind emit_total
  · exact right.bind emit_total
  · exact left.bind emit_total
  · exact arithmetic.bind emit_total

end Shift

/-- Instruction selection of the shifts is the reference evaluator, for every width and every shift
amount; shifts of nonempty signals are always accepted. -/
theorem shift_value_eq_eval (checked : ∀ c ∈ cell :: cells, check c = true)
    (earlier : convertCells cells {} = some ((), st)) (shift : isShift cell.type = true)
    (portA : cell.getPort .A = some a) (portB : cell.getPort .B = some b)
    (portY : cell.getPort .Y = some y) (definedA : (sigConst v a).isFullyDef = true)
    (definedB : (sigConst v b).isFullyDef = true) :
    (a ≠ [] → b ≠ [] → y ≠ [] → ∃ st', convertCell cell st = some ((), st')) ∧
    ∀ st', convertCell cell st = some ((), st') →
      (∀ σ n t, convertSig y st' = some (n, t) → Satisfies v σ t →
        evalCell cell (sigConst v a) (sigConst v b) = some (wordConst (σ n))) ∧
      (Satisfiable v st' ↔ Satisfiable v st ∧
        evalCell cell (sigConst v a) (sigConst v b) = some (wordConst (sigWord v y))) := by
  have checkedCell := checked cell (by simp)
  have shape := binaryShape_ports checkedCell (Or.inr shift) portA portB portY
  refine ⟨fun nonemptyA nonemptyB nonemptyY => ?_, fun st' accepted => ?_⟩
  · obtain ⟨u, st', run⟩ := convertShift_total shape (shift_unsignedB checkedCell shift) nonemptyA
      nonemptyB nonemptyY shift st
    exact ⟨st', run⟩
  · exact twoOperand_value ⟨checked, earlier, accepted⟩ (Or.inr shift) portA portB portY definedA
      definedB

theorem shift_value_sshr_overwide : ∃ st',
    convertCell (twoOperandCell .sshr true false 3 3 2) {} = some ((), st') ∧
    Satisfiable (inputs 6 5 3) st' := by
  have checked : ∀ c ∈ [twoOperandCell .sshr true false 3 3 2], check c = true := by decide
  have value := shift_value_eq_eval (v := inputs 6 5 3) checked rfl rfl rfl rfl rfl (by decide)
    (by decide)
  obtain ⟨st', run⟩ := value.1 (by decide) (by decide) (by decide)
  exact ⟨st', run, (value.2 st' run).2.mpr ⟨satisfiable_initial _, by decide⟩⟩

theorem convertCells_concat :
    convertCells (cells ++ [cell]) = convertCells cells >>= fun _ => convertCell cell := by
  induction cells with
  | nil => simp [convertCells]
  | cons c cells ih => simp [convertCells, ih]

/-- The program of any number of two-operand cells is solved by exactly those values of the wires at
which every cell computes what the reference evaluator does. -/
theorem netlist_solutions (plain : ∀ c ∈ cells, check c = true ∧
      (isBinary c.type = true ∨ isShift c.type = true) ∧
      ∀ p ∈ [PortId.A, .B], (c.getPort p).all fun sig => (sigConst v sig).isFullyDef)
    (run : convertCells cells {} = some ((), st)) :
    Satisfiable v st ↔ ∀ c ∈ cells, (c.getPort .A).bind (fun a => (c.getPort .B).bind fun b =>
      evalCell c (sigConst v a) (sigConst v b)) = (c.getPort .Y).map (wordConst <| sigWord v ·) := by
  induction cells using List.reverseRecOn generalizing st with
  | nil =>
    obtain ⟨-, rfl⟩ := pure_eq_some.mp run
    simp [satisfiable_initial]
  | append_singleton cells c ih =>
    rw [convertCells_concat] at run
    obtain ⟨_, s, earlier, accepted⟩ := bind_eq_some.mp run
    obtain ⟨checked, supported, defined⟩ := plain c (by simp)
    obtain ⟨a, b, y, shape⟩ := checkBinary_shape (check_twoOperand checked supported)
    have portA := shape.portA.connected
    have portB := shape.portB.connected
    have portY := shape.portY.connected
    have value := twoOperand_value ⟨fun d member => (plain d (by simpa [or_comm] using member)).1,
      earlier, accepted⟩ supported portA portB portY (by simpa [portA] using defined .A)
      (by simpa [portB] using defined .B)
    rw [value.2, ih (fun d member => plain d (by simp [member])) earlier]
    simp [or_imp, forall_and, portA, portB, portY]

theorem netlist_solutions_three : ∃ st,
    convertCells ([.add, .xor].map (twoOperandCell · false false 2 2 3)) {} = some ((), st) ∧
      Satisfiable (inputs 1 2 3) st := by
  obtain ⟨⟨_, st⟩, run⟩ := isSome_iff_exists.mp (show (convertCells
    ([.add, .xor].map (twoOperandCell · false false 2 2 3)) {}).isSome = true by decide +kernel)
  exact ⟨st, run, (netlist_solutions (by decide +kernel) run).mpr (by decide +kernel)⟩

end ManticoreFrontend.Writer.OperatorCells
