/- source: passes/opt/opt_expr.cc (replace_const_cells: $eq, $ne, $eqx, $nex)
   digest: Equality cells reduced bit pair by bit pair, with every stage equal to the evaluator on
           two-valued operands. -/

import ManticoreFrontend.Kernel.Circuits
import ManticoreFrontend.Kernel.UnionRuns
import ManticoreFrontend.Kernel.UndefinedBits

namespace ManticoreFrontend.Passes.OptExprEqual

open Foundation.BitWord Kernel Constants Calc CellTypes Circuits DefinedArithmetic DefinedValues
open MergeFind Nets Signals UndefinedBits UnionRuns List

/-- A comparison cell; the width parameters are the lengths of its ports. -/
structure CompareCell where
  type : CellType
  signedA : Bool
  signedB : Bool
  a : SigSpec
  b : SigSpec
  yWidth : Nat

/-- What a rule makes of a cell: a cell with other operands, a signal for Y, or an exception on an
access outside a signal. -/
inductive Outcome
  | keep (cell : CompareCell)
  | drive (y : Circuit)
  | abort

namespace CompareCell

def isEqual (cell : CompareCell) : Bool := cell.type = .eq || cell.type = .eqx

def bothSigned (cell : CompareCell) : Bool := cell.signedA && cell.signedB

/-- Y driven by a constant whose low bit says whether the operands are equal. -/
def driveEqual (cell : CompareCell) (equal : Bool) : Outcome :=
  .drive (.sig (extendSig [.const (State.ofBool (equal == cell.isEqual))] cell.yWidth false))

def pairDiffers : SigBit × SigBit → Bool
  | (.const x, .const y) => x ≠ y && x.isDef && y.isDef
  | _ => false

/-- Operands of unequal width are extended to the wider one. -/
def align (cell : CompareCell) (sig : SigSpec) : SigSpec :=
  if cell.a.length = cell.b.length then sig
  else extendSig sig (max cell.a.length cell.b.length) cell.bothSigned

def equalRule (cell : CompareCell) : Outcome :=
  let pairs := (cell.align cell.a).zip (cell.align cell.b)
  if pairs.any pairDiffers then cell.driveEqual false
  else
    let rest := pairs.filter fun p => p.1 ≠ p.2
    if rest.length = 0 then cell.driveEqual true
    else if rest.length < pairs.length then
      .keep { cell with a := rest.map Prod.fst, b := rest.map Prod.snd }
    else .keep cell

def isFullyConst (sig : SigSpec) : Bool :=
  sig.all fun bit => match bit with
    | .const _ => true
    | .wire _ _ => false

def isFullyZero (sig : SigSpec) : Bool := sig.all (· = .const .S0)

def isFullyUndef (sig : SigSpec) : Bool := sig.all fun bit => bit = .const .Sx || bit = .const .Sz

variable (map : SigBit → SigBit)

/-- A one-bit comparison with a constant, for operands that `assign_map` has replaced. -/
def bitRule (cell : CompareCell) : Outcome :=
  if (cell.type = .eq ∨ cell.type = .ne) ∧ cell.yWidth = 1 ∧ cell.a.length = 1 ∧
      cell.b.length = 1 then
    let a := cell.a.map map
    let b := cell.b.map map
    let swapped := isFullyConst a && !isFullyConst b
    let portA := if swapped then b else cell.a
    let constant := if swapped then a else b
    if isFullyConst constant then
      if isFullyUndef constant then .drive (.sig [.const .Sx])
      else if (constant.any (· = .const .S1)) = decide (cell.type = .eq) then .drive (.sig portA)
      else .drive (.unary .not cell.signedA (.sig portA) cell.yWidth)
    else .keep cell
  else .keep cell

def zeroRule (cell : CompareCell) : Outcome :=
  if (cell.type = .eq ∨ cell.type = .ne) ∧
      (isFullyZero (cell.a.map map) = true ∨ isFullyZero (cell.b.map map) = true) then
    let type := if cell.type = .eq then CellType.logicNot else .reduceBool
    if isFullyZero (cell.a.map map) then .drive (.unary type cell.signedB (.sig cell.b) cell.yWidth)
    else .drive (.unary type cell.signedA (.sig cell.a) cell.yWidth)
  else .keep cell

/-- The loop state of the removal of redundant bit pairs. -/
structure FineState where
  redundant : List (SigBit × SigBit) := []
  contradiction : Mfp SigBit := {}
  a : SigSpec
  b : SigSpec
  removed : Nat := 0

variable (lt : SigBit → SigBit → Bool)

/-- One round of the loop over bit pairs, with the widths before the loop. -/
def fineStep (aWidth bWidth : Nat) (st : FineState) (i : Nat) : FineState :=
  let bitA := if i < aWidth then map (st.a.getD i (.const .S0)) else .const .S0
  let bitB := if i < bWidth then map (st.b.getD i (.const .S0)) else .const .S0
  let known := bitA ≠ .const .Sx ∧ bitA ≠ .const .Sz ∧ bitB ≠ .const .Sx ∧ bitB ≠ .const .Sz
  let contradiction := if known then merge st.contradiction bitA bitB else st.contradiction
  let key := if lt bitB bitA then (bitB, bitA) else (bitA, bitB)
  if key ∈ st.redundant then
    { st with
      contradiction
      a := if i < aWidth then st.a.eraseIdx i else st.a
      b := if i < bWidth then st.b.eraseIdx i else st.b
      removed := st.removed + 1 }
  else { st with contradiction, redundant := key :: st.redundant }

def fineWidth (cell : CompareCell) : Nat :=
  if cell.signedA then min cell.a.length cell.b.length else max cell.a.length cell.b.length

def fineLoop (cell : CompareCell) : FineState :=
  let start : FineState := { a := cell.a, b := cell.b }
  (List.range cell.fineWidth).reverse.foldl (fineStep map lt cell.a.length cell.b.length)
    { start with contradiction := promote (promote {} (.const .S0)) (.const .S1) }

/-- Redundant pairs of bits are removed; operands that cannot be equal give a constant. -/
def fineRule (cell : CompareCell) : Outcome :=
  let st := cell.fineLoop map lt
  if st.contradiction.find (.const .S0) = st.contradiction.find (.const .S1) then
    .drive (.sig (SigSpec.ofConst (Const.ofInt (if cell.isEqual then 0 else 1) cell.yWidth)))
  else if st.removed ≠ 0 then .keep { cell with a := st.a, b := st.b }
  else .keep cell

end CompareCell

/-- A rule goes on with the cell that an earlier one left. -/
def Outcome.andThen (first : Outcome) (rule : CompareCell → Outcome) : Outcome :=
  match first with
  | .keep cell => rule cell
  | done => done

/-- The rules for `$eq`, `$ne`, `$eqx` and `$nex`, in their order. -/
def replaceEqual (map : SigBit → SigBit) (lt : SigBit → SigBit → Bool) (doFine : Bool)
    (cell : CompareCell) : Outcome :=
  ((cell.equalRule.andThen (CompareCell.bitRule map)).andThen (CompareCell.zeroRule map)).andThen
    fun cell => if doFine then cell.fineRule map lt else .keep cell

/-- Bit `i` of a constant that is continued by its sign or by zeros. -/
def contBit (s : Bool) (x : Const) (i : Nat) : State :=
  x.getD i (if s then x.getLast?.getD .S0 else .S0)

/-- Two constants of equal value, compared at every position. -/
def Same (s : Bool) (x y : Const) : Prop := ∀ i, contBit s x i = contBit s y i

private theorem contBit_toConst (s : Bool) {w : Nat} (x : BitVec w) {i n : Nat} (inside : i < n) :
    contBit s (toConst x) i = State.ofBool ((extendTo s n x).getLsbD i) := by
  rw [extendTo_getLsbD, contBit]
  by_cases own : i < w
  · simp [own, inside]
  · rw [getD_eq_default _ _ (by simpa using Nat.le_of_not_lt own), toConst_getLast?]
    cases s with
    | false => simp [own, State.ofBool]
    | true =>
      by_cases empty : w = 0
      · subst empty
        simp [State.ofBool, BitVec.of_length_zero]
      · simp [own, inside, empty]

private theorem same_toConst (s : Bool) {w v : Nat} (x : BitVec w) (y : BitVec v) :
    Same s (toConst x) (toConst y) ↔ intOf s x = intOf s y := by
  constructor
  · intro same
    rw [← extendTo_max_eq_iff]
    apply BitVec.eq_of_getLsbD_eq
    intro i inside
    have bits := same i
    rw [contBit_toConst s x inside, contBit_toConst s y inside] at bits
    exact State.ofBool_injective bits
  · intro equal i
    rw [contBit_toConst s x (Nat.lt_succ_self i), contBit_toConst s y (Nat.lt_succ_self i),
      extendTo_eq_ofInt, extendTo_eq_ofInt, equal]

/-- The values of the low bits of Y: a truth value extended by zeros. -/
def truthBits (n : Nat) (b : Bool) : Const := toConst (boolBits n b)

/-- The value is there, and its low bits are those of `truth`. -/
abbrev Shows (value : Option Const) (n : Nat) (truth : Bool) : Prop :=
  ∃ e, value = some e ∧ e.take n = truthBits n truth

namespace CompareCell

variable (cell : CompareCell) (r : Reading)

def value : Option Const :=
  eval cell.type (r.sig cell.a) (r.sig cell.b) cell.signedA cell.signedB cell.yWidth

structure TwoValued : Prop where
  a : (r.sig cell.a).isFullyDef = true
  b : (r.sig cell.b).isFullyDef = true

def SameOperands : Prop := Same cell.bothSigned (r.sig cell.a) (r.sig cell.b)

def Equality : Prop := cell.type ∈ [CellType.eq, .ne, .eqx, .nex]

variable {cell r}

theorem take_truthBits {n : Nat} {e : Const} {b : Bool} (positive : 0 < n → e = truthBits n b) :
    e.take n = truthBits n b := by
  by_cases empty : n = 0
  · subst empty
    simp [truthBits]
  · rw [positive (by omega), truthBits, take_of_length_le (by simp)]

private theorem value_equality (equality : cell.Equality) (two : cell.TwoValued r) {same : Bool}
    (known : same = true ↔ cell.SameOperands r) :
    Shows (cell.value r) cell.yWidth (same == cell.isEqual) := by
  obtain ⟨w, x, valueA⟩ := exists_toConst two.a
  obtain ⟨v, y, valueB⟩ := exists_toConst two.b
  rw [SameOperands, valueA, valueB, same_toConst] at known
  have truth : (intOf cell.bothSigned x == intOf cell.bothSigned y) = same := by
    rw [Bool.eq_iff_iff, beq_iff_eq, known]
  have apart : (intOf cell.bothSigned x != intOf cell.bothSigned y) = !same := by
    rw [bne, truth]
  have shows {e : Const} (value : cell.value r = some e)
      (bits : 0 < cell.yWidth → e = truthBits cell.yWidth (same == cell.isEqual)) :
      Shows (cell.value r) cell.yWidth (same == cell.isEqual) :=
    ⟨e, value, take_truthBits bits⟩
  have member := equality
  simp only [Equality, mem_cons, not_mem_nil, or_false] at member
  rw [bothSigned] at truth apart
  simp only [value, valueA, valueB, truthBits, isEqual] at shows ⊢
  obtain type | type | type | type := member <;> rw [type] at shows ⊢ <;>
    refine shows rfl fun positive => ?_
  · simp [constEq_defined x y _ positive, truth]
  · simp [constNe_defined x y _ positive, apart]
  · simp [constEqx_defined x y _ positive, truth]
  · simp [constNex_defined x y _ positive, apart]

/-- On equality cells a stage leaves a cell that compares equal when the first one does, or a signal
for Y with the evaluator's bits. -/
def StageRight (cell : CompareCell) (r : Reading) : Outcome → Prop
  | .keep next => next.type = cell.type ∧ next.yWidth = cell.yWidth ∧ next.TwoValued r ∧
      (next.SameOperands r ↔ cell.SameOperands r)
  | .drive y => ∃ v, y.value r = some v ∧ ∀ same : Bool, (same = true ↔ cell.SameOperands r) →
      v.take cell.yWidth = truthBits cell.yWidth (same == cell.isEqual)
  | .abort => False

private theorem stageRight_keep (two : cell.TwoValued r) : cell.StageRight r (.keep cell) :=
  ⟨rfl, rfl, two, Iff.rfl⟩

theorem stageRight_drive {y : Circuit} {v : Const} {equal : Bool} (value : y.value r = some v)
    (known : equal = true ↔ cell.SameOperands r)
    (bits : v.take cell.yWidth = truthBits cell.yWidth (equal == cell.isEqual)) :
    cell.StageRight r (.drive y) := by
  refine ⟨v, value, fun same also => ?_⟩
  have agree : same = equal := by rw [Bool.eq_iff_iff, also, known]
  rw [agree, bits]

theorem extendU0_ofBool (n : Nat) (b : Bool) : extendU0 [State.ofBool b] n false = truthBits n b := by
  rw [truthBits, boolBits, ← extendTo_false, ← extendU0_toConst]
  cases b <;> rfl

private theorem driveEqual_right {equal : Bool} (known : equal = true ↔ cell.SameOperands r) :
    cell.StageRight r (cell.driveEqual equal) := by
  refine stageRight_drive rfl known (take_truthBits fun _ => ?_)
  rw [sig_extendSig, extendStates_eq (Or.inr rfl)]
  exact extendU0_ofBool _ _

theorem map_eq_iff_zip {α β : Type} {f : α → β} {l m : List α} (length : l.length = m.length) :
    l.map f = m.map f ↔ ∀ p ∈ l.zip m, f p.1 = f p.2 := by
  induction l generalizing m with
  | nil => simp [length_eq_zero_iff.mp length.symm]
  | cons x l ih =>
    cases m with
    | nil => cases length
    | cons y m =>
      simp only [length_cons, Nat.add_right_cancel_iff] at length
      simp [ih length]

variable {s : Bool} {x y : Const}

private theorem same_iff_extendU0 (definedX : x.isFullyDef = true) (definedY : y.isFullyDef = true) :
    Same s x y ↔ extendU0 x (max x.length y.length) s = extendU0 y (max x.length y.length) s := by
  obtain ⟨w, x, rfl⟩ := exists_toConst definedX
  obtain ⟨v, y, rfl⟩ := exists_toConst definedY
  rw [same_toConst, extendU0_toConst, extendU0_toConst, toConst_inj, toConst_length, toConst_length,
    extendTo_max_eq_iff]

private theorem same_iff_eq (definedX : x.isFullyDef = true)
    (definedY : y.isFullyDef = true) (length : x.length = y.length) : Same s x y ↔ x = y := by
  have own (z : Const) : extendU0 z z.length s = z := by simp [extendU0]
  have left : extendU0 x y.length s = x := by rw [← length, own]
  rw [same_iff_extendU0 definedX definedY, length, Nat.max_self, own, left]

variable {sig : SigSpec} {b : SigBit}

private theorem bit_isDef_of_mem (defined : (r.sig sig).isFullyDef = true) (mem : b ∈ sig) :
    (r.bit b).isDef = true :=
  all_eq_true.mp defined _ (mem_map_of_mem mem)

private theorem isFullyDef_of_bits (bits : ∀ b ∈ sig, (r.bit b).isDef = true) :
    (r.sig sig).isFullyDef = true := by
  rw [Const.isFullyDef, Reading.sig, all_map, all_eq_true]
  exact bits

/-- The operands are compared as they are, or both have bits, or they are extended by zeros. -/
def Alignable (cell : CompareCell) : Prop :=
  cell.a.length = cell.b.length ∨ (cell.a ≠ [] ∧ cell.b ≠ []) ∨ cell.bothSigned = false

private theorem align_length (cell : CompareCell) :
    (cell.align cell.a).length = (cell.align cell.b).length := by
  unfold align
  split
  · assumption
  · simp [extendSig]

private theorem sig_align (alignable : cell.Alignable) (own : sig = cell.a ∨ sig = cell.b) :
    r.sig (cell.align sig) =
      extendU0 (r.sig sig) (max cell.a.length cell.b.length) cell.bothSigned := by
  unfold align
  split
  · have whole : max cell.a.length cell.b.length = (r.sig sig).length := by
      rw [Reading.sig_length]
      obtain rfl | rfl := own <;> omega
    rw [whole]
    simp [extendU0]
  · rename_i unequal
    rw [sig_extendSig, extendStates_eq]
    obtain equal | ⟨left, right⟩ | unsigned := alignable
    · exact absurd equal unequal
    · left
      obtain rfl | rfl := own <;> simpa [Reading.sig]
    · exact Or.inr unsigned

theorem extendU0_isFullyDef {x : Const} (defined : x.isFullyDef = true) (n : Nat) (s : Bool) :
    (extendU0 x n s).isFullyDef = true := by
  obtain ⟨w, x, rfl⟩ := exists_toConst defined
  rw [extendU0_toConst]
  exact toConst_isFullyDef _

private theorem sameOperands_iff_pairs (two : cell.TwoValued r) (alignable : cell.Alignable) :
    cell.SameOperands r ↔
      ∀ p ∈ (cell.align cell.a).zip (cell.align cell.b), r.bit p.1 = r.bit p.2 := by
  rw [SameOperands, same_iff_extendU0 two.a two.b, Reading.sig_length, Reading.sig_length,
    ← sig_align alignable (Or.inl rfl), ← sig_align alignable (Or.inr rfl)]
  exact map_eq_iff_zip cell.align_length

theorem align_nil (unequal : cell.a.length ≠ cell.b.length) (signed : cell.bothSigned = true) :
    ∀ b ∈ cell.align [], b = .const .Sx := by
  intro b mem
  rw [align, if_neg unequal, signed] at mem
  exact eq_of_mem_replicate (mem_of_mem_take mem)

private theorem align_isDef (defined : (r.sig sig).isFullyDef = true) (bits : sig ≠ []) :
    ∀ b ∈ cell.align sig, (r.bit b).isDef = true := by
  intro b mem
  apply bit_isDef_of_mem _ mem
  unfold align
  split
  · exact defined
  · rw [sig_extendSig, extendStates_eq (Or.inl (by simpa [Reading.sig] using bits))]
    exact extendU0_isFullyDef defined _ _

private theorem undef_matches_nothing (defined : (r.bit b).isDef = true) :
    b ≠ .const .Sx ∧ pairDiffers (.const .Sx, b) = false ∧ pairDiffers (b, .const .Sx) = false := by
  cases b with
  | wire w offset => simp [pairDiffers]
  | const data => cases data <;> simp_all [pairDiffers, Reading.bit, State.isDef]

/-- Without a bit to copy, a signed operand is padded with undefined bits, which match none of the
other operand: the rule leaves the cell as it is. -/
private theorem equalRule_of_not_alignable (two : cell.TwoValued r) (unaligned : ¬ cell.Alignable) :
    cell.equalRule = .keep cell := by
  simp only [Alignable, not_or, not_and_or, not_not, Bool.not_eq_false] at unaligned
  obtain ⟨unequal, empty, signed⟩ := unaligned
  have apart : ∀ p ∈ (cell.align cell.a).zip (cell.align cell.b),
      pairDiffers p = false ∧ p.1 ≠ p.2 := by
    rintro ⟨p, q⟩ mem
    obtain ⟨left, right⟩ := of_mem_zip mem
    obtain none | none := empty
    · have bits : cell.b ≠ [] := fun also => unequal (by rw [none, also])
      rw [none] at left
      obtain rfl := align_nil unequal signed p left
      have other := undef_matches_nothing (align_isDef two.b bits q right)
      exact ⟨other.2.1, fun same => other.1 same.symm⟩
    · have bits : cell.a ≠ [] := fun also => unequal (by rw [none, also])
      rw [none] at right
      obtain rfl := align_nil unequal signed q right
      have other := undef_matches_nothing (align_isDef two.a bits p left)
      exact ⟨other.2.2, other.1⟩
  have length : ((cell.align cell.a).zip (cell.align cell.b)).length =
      max cell.a.length cell.b.length := by
    simp [align, if_neg unequal, extendSig]
  unfold equalRule
  simp only
  generalize (cell.align cell.a).zip (cell.align cell.b) = l at apart length
  have quiet : l.any pairDiffers = false := by
    rw [any_eq_false]
    intro p mem
    simp [(apart p mem).1]
  have whole : l.filter (fun p => p.1 ≠ p.2) = l := by
    rw [filter_eq_self]
    intro p mem
    simpa using (apart p mem).2
  have positive : l.length ≠ 0 := by omega
  rw [quiet, whole, if_neg Bool.false_ne_true, if_neg positive, if_neg (Nat.lt_irrefl _)]

private theorem equalRule_right (two : cell.TwoValued r) : cell.StageRight r cell.equalRule := by
  by_cases alignable : cell.Alignable
  · have pairs := sameOperands_iff_pairs two alignable
    unfold equalRule
    simp only
    generalize zipped : (cell.align cell.a).zip (cell.align cell.b) = l at pairs
    split
    · rename_i differs
      apply driveEqual_right
      simp only [Bool.false_eq_true, false_iff, pairs]
      intro all
      obtain ⟨p, mem, differ⟩ := any_eq_true.mp differs
      have equal := all p mem
      unfold pairDiffers at differ
      split at differ
      · simp at equal differ
        exact differ.1.1 equal
      · cases differ
    · have rest_iff : (∀ p ∈ l.filter (fun p => p.1 ≠ p.2), r.bit p.1 = r.bit p.2) ↔
          cell.SameOperands r := by
        rw [pairs]
        constructor
        · intro rest p mem
          by_cases same : p.1 = p.2
          · rw [same]
          · exact rest p (by simp [mem, same])
        · intro all p mem
          exact all p (mem_of_mem_filter mem)
      split
      · rename_i none
        apply driveEqual_right
        rw [← rest_iff, length_eq_zero_iff.mp none]
        simp
      · split
        · have part {own : SigSpec} (is : own = cell.a ∨ own = cell.b)
              (defined : (r.sig own).isFullyDef = true) {f : SigBit × SigBit → SigBit}
              (inside : ∀ p ∈ l, f p ∈ cell.align own) :
              (r.sig ((l.filter fun p => p.1 ≠ p.2).map f)).isFullyDef = true := by
            apply isFullyDef_of_bits
            intro b mem
            obtain ⟨p, rest, rfl⟩ := mem_map.mp mem
            apply bit_isDef_of_mem _ (inside p (mem_of_mem_filter rest))
            rw [sig_align alignable is]
            exact extendU0_isFullyDef defined _ _
          subst zipped
          have inA := part (Or.inl rfl) two.a fun p mem => (of_mem_zip mem).1
          have inB := part (Or.inr rfl) two.b fun p mem => (of_mem_zip mem).2
          refine ⟨rfl, rfl, ⟨inA, inB⟩, ?_⟩
          rw [← rest_iff, SameOperands, same_iff_eq inA inB (by simp)]
          simp [Reading.sig]
        · exact stageRight_keep two
  · rw [equalRule_of_not_alignable two alignable]
    exact stageRight_keep two

variable {map : SigBit → SigBit}

/-- The wires respect the connections that `assign_map` was built from. -/
def Respects (map : SigBit → SigBit) (r : Reading) : Prop := ∀ b, r.bit (map b) = r.bit b

theorem sig_map (respects : Respects map r) (sig : SigSpec) : r.sig (sig.map map) = r.sig sig := by
  rw [Reading.sig, map_map]
  exact map_congr_left fun b _ => respects b

theorem isFullyZero_value (respects : Respects map r) (zero : isFullyZero (sig.map map) = true) :
    r.sig sig = List.replicate sig.length .S0 := by
  rw [← sig_map respects, eq_replicate_iff]
  refine ⟨by simp, forall_mem_map.mpr fun b inside => ?_⟩
  have value := all_eq_true.mp zero b inside
  rw [decide_eq_true_eq] at value
  rw [value]
  rfl

private theorem same_zero_iff {w : Nat} (x : BitVec w) (n : Nat) :
    Same s (toConst x) (List.replicate n .S0) ↔ x = 0#(w) := by
  have zeros : replicate n State.S0 = toConst (0#(n)) := by
    rw [← ofState_zero]
    rfl
  rw [zeros, same_toConst, (intOf_eq_zero 0#(n) s).mpr rfl, intOf_eq_zero]

private theorem same_comm : Same s x y ↔ Same s y x := by
  constructor <;> intro same i <;> exact (same i).symm

private theorem zeroTest_right (signed : Bool) {w : Nat} {x : BitVec w}
    (type : cell.type = .eq ∨ cell.type = .ne) (operand : r.sig sig = toConst x)
    (same : cell.SameOperands r ↔ x = 0#(w)) :
    cell.StageRight r (.drive (.unary (if cell.type = .eq then .logicNot else .reduceBool) signed
      (.sig sig) cell.yWidth)) := by
  have known : (x == 0#(w)) = true ↔ cell.SameOperands r := beq_iff_eq.trans same.symm
  obtain type | type := type
  · refine stageRight_drive (v := constLogicNot (toConst x) false cell.yWidth) ?_ known
      (take_truthBits fun positive => ?_)
    · rw [Circuit.value_unary rfl, operand]
      simp [type, eval, keepsOwnSign, evalTable]
    · rw [constLogicNot_defined _ _ positive]
      simp [truthBits, isEqual, type]
  · refine stageRight_drive (v := constReduceBool (toConst x) cell.yWidth) ?_ known
      (take_truthBits fun positive => ?_)
    · rw [Circuit.value_unary rfl, operand]
      simp [type, eval, evalTable]
    · rw [constReduceBool_eq_or, constReduceOr_defined _ positive]
      simp [truthBits, isEqual, type, bne]

private theorem zeroRule_right (respects : Respects map r) (two : cell.TwoValued r) :
    cell.StageRight r (cell.zeroRule map) := by
  unfold zeroRule
  split
  · rename_i applies
    obtain ⟨type, zero⟩ := applies
    obtain ⟨w, x, valueA⟩ := exists_toConst two.a
    obtain ⟨v, y, valueB⟩ := exists_toConst two.b
    by_cases left : isFullyZero (cell.a.map map) = true
    · rw [if_pos left]
      apply zeroTest_right _ type valueB
      rw [SameOperands, same_comm, isFullyZero_value respects left, valueB, same_zero_iff]
    · rw [if_neg left]
      apply zeroTest_right _ type valueA
      rw [SameOperands, isFullyZero_value respects (zero.resolve_left left), valueA, same_zero_iff]
  · exact stageRight_keep two

theorem truthBits_one (b : Bool) : truthBits 1 b = [State.ofBool b] := by
  rw [← extendU0_ofBool]
  rfl

private theorem constant_of_value {k : Bool} (isConst : isFullyConst [b] = true)
    (value : r.bit b = State.ofBool k) : b = .const (State.ofBool k) := by
  cases b with
  | wire w offset => cases isConst
  | const data => exact congrArg SigBit.const value

private theorem constantTest_right {port : SigSpec} {x k : Bool}
    (type : cell.type = .eq ∨ cell.type = .ne) (width : cell.yWidth = 1)
    (operand : r.sig port = [State.ofBool x]) (value : r.bit b = State.ofBool k)
    (same : cell.SameOperands r ↔ x = k) (isConst : isFullyConst [b] = true) :
    cell.StageRight r (if isFullyConst [b] then
      if isFullyUndef [b] then .drive (.sig [.const .Sx])
      else if ([b].any (· = .const .S1)) = decide (cell.type = .eq) then .drive (.sig port)
      else .drive (.unary .not cell.signedA (.sig port) cell.yWidth)
    else .keep cell) := by
  obtain rfl := constant_of_value isConst value
  have known : isFullyUndef [.const (State.ofBool k)] = false := by cases k <;> decide
  have one : ([SigBit.const (State.ofBool k)].any (· = .const .S1)) = k := by cases k <;> decide
  have truth : (x == k) = true ↔ cell.SameOperands r := beq_iff_eq.trans same.symm
  rw [if_pos isConst, known, if_neg Bool.false_ne_true, one]
  split
  · rename_i direct
    refine stageRight_drive rfl truth ?_
    rw [operand, width, truthBits_one, direct]
    obtain type | type := type <;> cases x <;> simp [type, isEqual]
  · rename_i inverted
    refine stageRight_drive (v := [State.ofBool !x]) ?_ truth ?_
    · rw [Circuit.value_unary rfl, operand, width]
      cases x <;> cases cell.signedA <;> decide
    · rw [width, truthBits_one, (Bool.eq_not (a := k)).mpr inverted]
      obtain type | type := type <;> cases x <;> simp [type, isEqual]

private theorem single_value (length : sig.length = 1) (defined : (r.sig sig).isFullyDef = true) :
    ∃ b x, sig = [b] ∧ r.sig sig = [State.ofBool x] ∧ r.bit b = State.ofBool x := by
  obtain ⟨b, rfl⟩ := length_eq_one_iff.mp length
  have bit := State.ofBool_of_isDef (bit_isDef_of_mem defined mem_cons_self)
  exact ⟨b, r.bit b == .S1, rfl, by rw [bit]; rfl, bit.symm⟩

private theorem bitRule_right (respects : Respects map r) (two : cell.TwoValued r) :
    cell.StageRight r (cell.bitRule map) := by
  unfold bitRule
  split
  · rename_i applies
    obtain ⟨type, width, lengthA, lengthB⟩ := applies
    obtain ⟨p, x, onlyA, valueA, bitA⟩ := single_value lengthA two.a
    obtain ⟨q, y, onlyB, valueB, bitB⟩ := single_value lengthB two.b
    have same : cell.SameOperands r ↔ x = y := by
      rw [SameOperands, same_iff_eq two.a two.b (by simp [lengthA, lengthB]), valueA, valueB]
      simp [State.ofBool_injective.eq_iff]
    have mappedA : r.bit (map p) = State.ofBool x := (respects p).trans bitA
    have mappedB : r.bit (map q) = State.ofBool y := (respects q).trans bitB
    simp only [onlyA, onlyB, map_cons, map_nil]
    by_cases constB : isFullyConst [map q] = true
    · have kept : (isFullyConst [map p] && !isFullyConst [map q]) = false := by simp [constB]
      simp only [kept, Bool.false_eq_true, if_false]
      exact constantTest_right type width (by rw [← onlyA]; exact valueA) mappedB same constB
    · by_cases constA : isFullyConst [map p] = true
      · have swap : (isFullyConst [map p] && !isFullyConst [map q]) = true := by simp [constA, constB]
        simp only [swap, if_true]
        exact constantTest_right type width (by simp [Reading.sig, mappedB]) mappedA
          (same.trans eq_comm) constA
      · have kept : (isFullyConst [map p] && !isFullyConst [map q]) = false := by simp [constA]
        simp only [kept, Bool.false_eq_true, if_false]
        rw [if_neg constB]
        exact stageRight_keep two
  · exact stageRight_keep two

variable {i : Nat} {sig own : SigSpec}

private theorem contBit_eraseIdx {x : Const} (below : s = true → i + 1 < x.length) (j : Nat) :
    contBit s (x.eraseIdx i) j = contBit s x (if j < i then j else j + 1) := by
  have padding : (if s then (x.eraseIdx i).getLast?.getD .S0 else .S0) =
      if s then x.getLast?.getD State.S0 else .S0 := by
    cases s with
    | false => rfl
    | true =>
      have short := below rfl
      have length : (x.eraseIdx i).length = x.length - 1 :=
        length_eraseIdx_of_lt (by omega)
      have later : ¬ x.length - 1 - 1 < i := by omega
      have index : x.length - 1 - 1 + 1 = x.length - 1 := by omega
      rw [getLast?_eq_getElem?, getLast?_eq_getElem?, length, getElem?_eraseIdx,
        if_neg later, index]
  rw [contBit, contBit, padding, getD_eq_getElem?_getD, getD_eq_getElem?_getD, getElem?_eraseIdx]
  split <;> rfl

private theorem same_iff_eraseIdx (below : s = true → i + 1 < x.length ∧ i + 1 < y.length) :
    Same s x y ↔ contBit s x i = contBit s y i ∧ Same s (x.eraseIdx i) (y.eraseIdx i) := by
  have erased (j : Nat) : contBit s (x.eraseIdx i) j = contBit s (y.eraseIdx i) j ↔
      contBit s x (if j < i then j else j + 1) = contBit s y (if j < i then j else j + 1) := by
    rw [contBit_eraseIdx (fun sign => (below sign).1), contBit_eraseIdx (fun sign => (below sign).2)]
  constructor
  · exact fun same => ⟨same i, fun j => (erased j).mpr (same _)⟩
  · rintro ⟨here, rest⟩ j
    obtain low | rfl | high := Nat.lt_trichotomy j i
    · simpa only [if_pos low] using (erased j).mp (rest j)
    · exact here
    · have moved := (erased (j - 1)).mp (rest (j - 1))
      rwa [if_neg (by omega), Nat.sub_add_cancel (by omega)] at moved

private theorem sig_eraseIdx (r : Reading) (sig : SigSpec) (i : Nat) :
    r.sig (sig.eraseIdx i) = (r.sig sig).eraseIdx i := by
  rw [Reading.sig, Reading.sig, eraseIdx_map]

variable {lt : SigBit → SigBit → Bool}

/-- The state of the loop when the pairs from `k` on have been looked at. -/
structure FineInv (cell : CompareCell) (r : Reading) (k : Nat) (st : FineState) : Prop where
  takeA : st.a.take k = cell.a.take k
  takeB : st.b.take k = cell.b.take k
  wholeA : cell.a.length ≤ k → st.a = cell.a
  wholeB : cell.b.length ≤ k → st.b = cell.b
  definedA : (r.sig st.a).isFullyDef = true
  definedB : (r.sig st.b).isFullyDef = true
  same : Same cell.bothSigned (r.sig st.a) (r.sig st.b) ↔ cell.SameOperands r
  valid : st.contradiction.Valid
  classes : cell.SameOperands r → ∀ c, r.bit (st.contradiction.find c) = r.bit c
  keys : ∀ p ∈ st.redundant, ∃ j, k ≤ j ∧
    ((r.bit p.1 = contBit cell.bothSigned (r.sig st.a) j ∧
      r.bit p.2 = contBit cell.bothSigned (r.sig st.b) j) ∨
    (r.bit p.2 = contBit cell.bothSigned (r.sig st.a) j ∧
      r.bit p.1 = contBit cell.bothSigned (r.sig st.b) j))
  fresh : k = cell.fineWidth → st.redundant = []
  top : cell.signedA = true → k < cell.fineWidth → k < st.a.length ∧ k < st.b.length

section

variable (take : sig.take (i + 1) = own.take (i + 1))

include take

private theorem take_of_take_succ : sig.take i = own.take i := by
  have shorter := congrArg (List.take i) take
  simpa [take_take] using shorter

private theorem lt_length_of_take (long : i < own.length) : i < sig.length := by
  have length := congrArg length take
  simp only [length_take] at length
  omega

private theorem lookup_value (respects : Respects map r) (whole : own.length ≤ i + 1 → sig = own)
    (unsigned : own.length ≤ i → s = false) :
    r.bit (if i < own.length then map (sig.getD i (.const .S0)) else .const .S0) =
      contBit s (r.sig sig) i := by
  by_cases inside : i < own.length
  · have short := lt_length_of_take take inside
    rw [if_pos inside, respects, getD_eq_getElem _ _ short, contBit,
      getD_eq_getElem _ _ (by simpa using short)]
    simp [Reading.sig]
  · rw [if_neg inside, whole (by omega), unsigned (by omega), contBit,
      getD_eq_default _ _ (by simpa using Nat.le_of_not_lt inside)]
    rfl

private theorem take_of_eraseIdx : (sig.eraseIdx i).take i = own.take i := by
  rw [List.take_eraseIdx_eq_take_of_le _ _ _ (Nat.le_refl i)]
  exact take_of_take_succ take

end

private theorem isFullyDef_eraseIdx (defined : (r.sig sig).isFullyDef = true) (i : Nat) :
    (r.sig (sig.eraseIdx i)).isFullyDef = true :=
  isFullyDef_of_bits fun _ mem => bit_isDef_of_mem defined (mem_of_mem_eraseIdx mem)

private theorem classes_merge {m : Mfp SigBit} {p q : SigBit} (valid : m.Valid)
    (classes : cell.SameOperands r → ∀ c, r.bit (m.find c) = r.bit c)
    (equal : cell.SameOperands r → r.bit p = r.bit q) :
    (merge m p q).Valid ∧ (cell.SameOperands r → ∀ c, r.bit ((merge m p q).find c) = r.bit c) := by
  obtain ⟨valid', moved⟩ := find_merge valid p q
  refine ⟨valid', ?_⟩
  intro same c
  rw [moved]
  split
  · rename_i member
    rw [classes same, ← equal same, ← classes same p, ← member, classes same]
  · exact classes same c

private theorem eraseIdx_beyond (whole : own.length ≤ i + 1 → sig = own) (short : own.length ≤ i) :
    sig.eraseIdx i = own := by
  rw [whole (by omega), eraseIdx_of_length_le short]

private theorem eraseIdx_of_guard (whole : own.length ≤ i + 1 → sig = own) :
    (if i < own.length then sig.eraseIdx i else sig) = sig.eraseIdx i := by
  split
  · rfl
  · rw [eraseIdx_beyond whole (by omega), whole (by omega)]

section Step

variable {st : FineState} {p q : SigBit} (inv : FineInv cell r (i + 1) st)
  (inside : i < cell.fineWidth) (bitA : r.bit p = contBit cell.bothSigned (r.sig st.a) i)
  (bitB : r.bit q = contBit cell.bothSigned (r.sig st.b) i) {contradiction : Mfp SigBit}
  (valid : contradiction.Valid)
  (classes : cell.SameOperands r → ∀ c, r.bit (contradiction.find c) = r.bit c)

include inv inside bitA bitB valid classes in
private theorem FineInv.insert (key : SigBit × SigBit) (pair : key = (p, q) ∨ key = (q, p)) :
    FineInv cell r i { st with contradiction, redundant := key :: st.redundant } := by
  exact
    { takeA := take_of_take_succ inv.takeA
      takeB := take_of_take_succ inv.takeB
      wholeA := fun short => inv.wholeA (by omega)
      wholeB := fun short => inv.wholeB (by omega)
      definedA := inv.definedA
      definedB := inv.definedB
      same := inv.same
      valid := valid
      classes := classes
      keys := by
        intro k mem
        obtain rfl | mem := mem_cons.mp mem
        · refine ⟨i, Nat.le_refl i, ?_⟩
          obtain rfl | rfl := pair
          · exact Or.inl ⟨bitA, bitB⟩
          · exact Or.inr ⟨bitA, bitB⟩
        · obtain ⟨j, later, values⟩ := inv.keys k mem
          exact ⟨j, by omega, values⟩
      fresh := fun last => absurd last (Nat.ne_of_lt inside)
      top := by
        intro signedA _
        rw [fineWidth, if_pos signedA] at inside
        exact ⟨lt_length_of_take inv.takeA (by omega), lt_length_of_take inv.takeB (by omega)⟩ }

include inv inside bitA bitB valid classes in
/-- A pair that is seen again can be removed: the operands are equal without it as with it. -/
theorem FineInv.remove (removed : Nat) {key : SigBit × SigBit} (pair : key = (p, q) ∨ key = (q, p))
    (seen : key ∈ st.redundant) (signs : cell.bothSigned = true → cell.signedA = true) :
    FineInv cell r i { st with
      contradiction, a := st.a.eraseIdx i, b := st.b.eraseIdx i, removed } := by
  have more : i + 1 < cell.fineWidth := by
    by_contra last
    have none := inv.fresh (by omega)
    rw [none] at seen
    cases seen
  have below (sign : cell.bothSigned = true) :
      i + 1 < (r.sig st.a).length ∧ i + 1 < (r.sig st.b).length := by
    simpa using inv.top (signs sign) more
  -- a later position keeps its bit when position `i` goes
  have moved {x : Const} (short : cell.bothSigned = true → i + 1 < x.length) {j : Nat}
      (later : i + 1 ≤ j) :
      contBit cell.bothSigned (x.eraseIdx i) (j - 1) = contBit cell.bothSigned x j := by
    rw [contBit_eraseIdx short, if_neg (by omega), Nat.sub_add_cancel (by omega)]
  have movedA {j : Nat} (later : i + 1 ≤ j) := moved (fun sign => (below sign).1) later
  have movedB {j : Nat} (later : i + 1 ≤ j) := moved (fun sign => (below sign).2) later
  have implied : Same cell.bothSigned ((r.sig st.a).eraseIdx i) ((r.sig st.b).eraseIdx i) →
      contBit cell.bothSigned (r.sig st.a) i = contBit cell.bothSigned (r.sig st.b) i := by
    intro same
    obtain ⟨j, later, values⟩ := inv.keys key seen
    have equal := same (j - 1)
    rw [movedA later, movedB later] at equal
    rw [← bitA, ← bitB]
    obtain rfl | rfl := pair <;> obtain ⟨left, right⟩ | ⟨left, right⟩ := values <;>
      simp only at left right <;> simp only [left, right, equal]
  exact
    { takeA := take_of_eraseIdx inv.takeA
      takeB := take_of_eraseIdx inv.takeB
      wholeA := eraseIdx_beyond inv.wholeA
      wholeB := eraseIdx_beyond inv.wholeB
      definedA := isFullyDef_eraseIdx inv.definedA i
      definedB := isFullyDef_eraseIdx inv.definedB i
      same := by
        rw [← inv.same, same_iff_eraseIdx below, sig_eraseIdx, sig_eraseIdx]
        exact ⟨fun rest => ⟨implied rest, rest⟩, And.right⟩
      valid := valid
      classes := classes
      keys := by
        intro k mem
        obtain ⟨j, later, values⟩ := inv.keys k mem
        refine ⟨j - 1, by omega, ?_⟩
        simp only [sig_eraseIdx]
        rw [movedA later, movedB later]
        exact values
      fresh := fun last => absurd last (Nat.ne_of_lt inside)
      top := by
        intro signedA _
        have long := inv.top signedA more
        rw [length_eraseIdx_of_lt (by omega), length_eraseIdx_of_lt (by omega)]
        omega }

end Step

private theorem FineInv.step (respects : Respects map r) {st : FineState}
    (inv : FineInv cell r (i + 1) st) (inside : i < cell.fineWidth) :
    FineInv cell r i (fineStep map lt cell.a.length cell.b.length st i) := by
  have signs : cell.bothSigned = true → cell.signedA = true := by
    unfold bothSigned
    simp only [Bool.and_eq_true]
    exact And.left
  have unsigned : cell.a.length ≤ i ∨ cell.b.length ≤ i → cell.bothSigned = false := by
    intro past
    by_contra signed
    have signedA := signs (by simpa using signed)
    rw [fineWidth, if_pos signedA] at inside
    omega
  have bitA := lookup_value inv.takeA respects inv.wholeA (fun past => unsigned (Or.inl past))
  have bitB := lookup_value inv.takeB respects inv.wholeB (fun past => unsigned (Or.inr past))
  unfold fineStep
  simp only [eraseIdx_of_guard inv.wholeA, eraseIdx_of_guard inv.wholeB]
  generalize (if i < cell.a.length then map (st.a.getD i (.const .S0)) else .const .S0) = p at bitA ⊢
  generalize (if i < cell.b.length then map (st.b.getD i (.const .S0)) else .const .S0) = q at bitB ⊢
  have equal (same : cell.SameOperands r) : r.bit p = r.bit q := by
    rw [bitA, bitB, inv.same.mpr same i]
  generalize merged : (if p ≠ .const .Sx ∧ p ≠ .const .Sz ∧ q ≠ .const .Sx ∧ q ≠ .const .Sz then
    merge st.contradiction p q else st.contradiction) = m
  have joined : m.Valid ∧ (cell.SameOperands r → ∀ c, r.bit (m.find c) = r.bit c) := by
    rw [← merged]
    split
    · exact classes_merge inv.valid inv.classes equal
    · exact ⟨inv.valid, inv.classes⟩
  have pair : (if lt q p = true then (q, p) else (p, q)) = (p, q) ∨
      (if lt q p = true then (q, p) else (p, q)) = (q, p) := by
    split
    · exact Or.inr rfl
    · exact Or.inl rfl
  generalize (if lt q p = true then (q, p) else (p, q)) = key at pair
  split
  · rename_i seen
    exact inv.remove inside bitA bitB joined.1 joined.2 _ pair seen signs
  · exact inv.insert inside bitA bitB joined.1 joined.2 _ pair

private theorem FineInv.run (respects : Respects map r) {k : Nat} {st : FineState}
    (inv : FineInv cell r k st) (inside : k ≤ cell.fineWidth) :
    FineInv cell r 0 ((List.range k).reverse.foldl
      (fineStep map lt cell.a.length cell.b.length) st) := by
  induction k generalizing st with
  | zero => exact inv
  | succ k ih =>
    rw [range_succ, reverse_append, reverse_singleton, singleton_append, foldl_cons]
    exact ih (inv.step respects inside) (by omega)

private theorem fineLoop_inv (respects : Respects map r) (two : cell.TwoValued r) :
    FineInv cell r 0 (cell.fineLoop map lt) := by
  apply FineInv.run respects _ (Nat.le_refl _)
  exact
    { takeA := rfl
      takeB := rfl
      wholeA := fun _ => rfl
      wholeB := fun _ => rfl
      definedA := two.a
      definedB := two.b
      same := Iff.rfl
      valid := Mfp.valid_empty
      classes := fun _ _ => rfl
      keys := by simp
      fresh := fun _ => rfl
      top := fun _ less => absurd less (Nat.lt_irrefl _) }

theorem ofInt_truth (n : Nat) (b : Bool) : Const.ofInt (if b then 0 else 1) n = truthBits n !b := by
  rw [ofInt_eq_toConst, truthBits]
  congr 1
  cases b with
  | false =>
    apply BitVec.eq_of_toNat_eq
    simp [boolBits]
  | true => simp [boolBits]

private theorem fineRule_right (respects : Respects map r) (two : cell.TwoValued r) :
    cell.StageRight r (cell.fineRule map lt) := by
  have inv : FineInv cell r 0 (cell.fineLoop map lt) := fineLoop_inv respects two
  unfold fineRule
  simp only
  split
  · rename_i contradiction
    have apart : ¬ cell.SameOperands r := by
      intro same
      have zero := inv.classes same (.const .S0)
      rw [contradiction, inv.classes same (.const .S1)] at zero
      cases zero
    have known : false = true ↔ cell.SameOperands r := by simp [apart]
    refine stageRight_drive rfl known (take_truthBits fun _ => ?_)
    rw [Reading.sig_ofConst, ofInt_truth, Bool.false_beq]
  · split
    · exact ⟨rfl, rfl, ⟨inv.definedA, inv.definedB⟩, inv.same⟩
    · exact stageRight_keep two

private theorem StageRight.andThen {first : Outcome} {rule : CompareCell → Outcome}
    (before : cell.StageRight r first)
    (after : ∀ next : CompareCell, next.TwoValued r → next.StageRight r (rule next)) :
    cell.StageRight r (first.andThen rule) := by
  cases first with
  | keep next =>
    obtain ⟨type, width, two, same⟩ := before
    have equal : next.isEqual = cell.isEqual := by simp [isEqual, type]
    have later := after next two
    change cell.StageRight r (rule next)
    generalize rule next = out at later
    cases out with
    | keep last =>
      obtain ⟨type', width', two', same'⟩ := later
      exact ⟨type'.trans type, width'.trans width, two', same'.trans same⟩
    | drive y =>
      obtain ⟨v, value, bits⟩ := later
      refine ⟨v, value, ?_⟩
      intro known iff
      rw [← width, ← equal]
      exact bits known (iff.trans same.symm)
    | abort => exact later
  | drive y => exact before
  | abort => exact before

end CompareCell

def Outcome.value (r : Reading) : Outcome → Option Const
  | .keep cell => cell.value r
  | .drive y => y.value r
  | .abort => none

/-- The outcome gives every bit of Y the evaluator's value. -/
def Outcome.Right (out : Outcome) (cell : CompareCell) (r : Reading) : Prop :=
  ∃ e y, cell.value r = some e ∧ out.value r = some y ∧
    y.take cell.yWidth = e.take cell.yWidth

private theorem CompareCell.StageRight.right {cell : CompareCell} {r : Reading} {out : Outcome}
    (equality : cell.Equality) (two : cell.TwoValued r) (stage : cell.StageRight r out) :
    out.Right cell r := by
  classical
  have known : decide (cell.SameOperands r) = true ↔ cell.SameOperands r := decide_eq_true_iff
  obtain ⟨e, value, bits⟩ := value_equality equality two known
  cases out with
  | keep next =>
    obtain ⟨type, width, two', same⟩ := stage
    have equality' : next.Equality := by
      rw [Equality, type]
      exact equality
    obtain ⟨y, value', bits'⟩ := value_equality equality' two' (known.trans same.symm)
    refine ⟨e, y, value, value', ?_⟩
    rw [width] at bits'
    have equal : next.isEqual = cell.isEqual := by simp [isEqual, type]
    rw [bits, bits', equal]
  | drive y =>
    obtain ⟨v, value', bits'⟩ := stage
    exact ⟨e, v, value, value', (bits' _ known).trans bits.symm⟩
  | abort => exact stage.elim

theorem replaceEqual_right {map : SigBit → SigBit} {lt : SigBit → SigBit → Bool} {doFine : Bool}
    {cell : CompareCell} {r : Reading} (equality : cell.Equality)
    (respects : CompareCell.Respects map r) (two : cell.TwoValued r) :
    (replaceEqual map lt doFine cell).Right cell r := by
  apply CompareCell.StageRight.right equality two
  apply CompareCell.StageRight.andThen
  · apply CompareCell.StageRight.andThen
    · apply CompareCell.StageRight.andThen
      · exact CompareCell.equalRule_right two
      · intro next two
        exact CompareCell.bitRule_right respects two
    · intro next two
      exact CompareCell.zeroRule_right respects two
  · intro next two
    cases doFine with
    | false => exact CompareCell.stageRight_keep two
    | true => exact CompareCell.fineRule_right respects two

end ManticoreFrontend.Passes.OptExprEqual
