/- source: kernel/calc.cc, kernel/celltypes.h
   digest: On fully defined operands the reference evaluator computes the bit-vector operators. -/

import ManticoreFrontend.Kernel.CellTypes

namespace ManticoreFrontend.Kernel.DefinedValues

open Foundation.BitWord Constants Calc CellTypes List

variable {w : Nat}

variable (x : BitVec w)

theorem toConst_getLast? :
    (toConst x).getLast? = if w = 0 then none else some (State.ofBool x.msb) := by
  by_cases h : w = 0
  · subst h
    simp
  · have inside : w - 1 < (toConst x).length := by
      simp
      omega
    rw [getLast?_eq_getElem?, toConst_length, getElem?_eq_getElem inside,
      toConst_getElem, BitVec.msb_eq_getLsbD_last]
    simp [h]

theorem toConst_dropLast : (toConst x).dropLast = toConst (x.setWidth (w - 1)) := by
  apply eq_toConst
  · simp
  · intro i hi inside
    simp [inside]

theorem toConst_eq_map :
    toConst x = ((List.range w).map (fun i => x.getLsbD i)).map State.ofBool := by
  symm
  apply eq_toConst
  · simp
  · simp

theorem extendU0_toConst (n : Nat) (s : Bool) :
    extendU0 (toConst x) n s = toConst (extendTo s n x) := by
  apply eq_toConst
  · simp [extendU0]
    omega
  · intro i hi inside
    rw [extendTo_getLsbD]
    simp only [extendU0, getElem_take, inside, decide_true, Bool.true_and]
    by_cases h : i < w
    · simp [h]
    · rw [getElem_append_right (by simpa using h)]
      rw [getElem_replicate, toConst_getLast?]
      cases s with
      | false => simp [h, State.ofBool]
      | true =>
        by_cases zero : w = 0
        · subst zero
          simp [State.ofBool, BitVec.eq_nil x]
        · simp [zero, h]

theorem magnitude_testBit (one : State) (k : Const) (i : Nat) :
    (magnitude one k).testBit i = decide (k[i]? = some one) := by
  induction k generalizing i with
  | nil => simp [magnitude]
  | cons b k ih =>
    cases i with
    | zero =>
      by_cases h : b = one
      · simp [magnitude, h]
      · simp [magnitude, h]
    | succ i =>
      have half : magnitude one (b :: k) / 2 = magnitude one k := by
        simp only [magnitude]
        split <;> omega
      rw [Nat.testBit_succ, half, ih]
      simp

theorem magnitude_eq_toNat {one : State} {x y : BitVec w}
    (same : ∀ i < w, (State.ofBool (x.getLsbD i) = one ↔ y.getLsbD i)) :
    magnitude one (toConst x) = y.toNat := by
  apply Nat.eq_of_testBit_eq
  intro i
  rw [magnitude_testBit, BitVec.testBit_toNat]
  by_cases h : i < w
  · rw [getElem?_eq_getElem (by simpa using h), toConst_getElem, Bool.eq_iff_iff, ← same i h]
    simp
  · rw [getElem?_eq_none (by simpa using h)]
    simp [BitVec.getLsbD_of_ge _ _ (Nat.le_of_not_lt h)]

theorem magnitude_toConst : magnitude .S1 (toConst x) = x.toNat :=
  magnitude_eq_toNat fun i _ => by cases x.getLsbD i <;> simp [State.ofBool]

theorem magnitude_zeros : magnitude .S0 (toConst x) = (~~~x).toNat :=
  magnitude_eq_toNat fun i h => by
    rw [BitVec.getLsbD_not]
    cases x.getLsbD i <;> simp [State.ofBool, h]

private theorem undefPos_toConst (u : Int) : undefPos (toConst x) u = u := by
  have none_undefined : (toConst x).findIdx? (fun b => !b.isDef) = none := by
    rw [findIdx?_eq_none_iff]
    intro b hb
    have := all_eq_true.mp (toConst_isFullyDef x) b hb
    simp [this]
  unfold undefPos
  rw [none_undefined]
  simp

theorem const2big_toConst (s : Bool) (u : Int) : const2big (toConst x) s u = (intOf s x, u) := by
  unfold const2big
  rw [toConst_getLast?, toConst_dropLast, undefPos_toConst, undefPos_toConst, magnitude_toConst,
    magnitude_zeros]
  cases s with
  | false => simp
  | true =>
    by_cases zero : w = 0
    · subst zero
      simp [BitVec.of_length_zero]
    · cases top : x.msb with
      | false =>
        have low := BitVec.toInt_eq_toNat_of_msb top
        simp [State.ofBool, low]
      | true =>
        have low := BitVec.toInt_eq_msb_cond x
        have half := BitVec.msb_eq_true_iff_two_mul_ge.mp top
        have power : 2 ^ w = 2 * 2 ^ (w - 1) := by
          rw [← Nat.pow_succ']
          congr 1
          omega
        have rest : x.toNat % 2 ^ (w - 1) = x.toNat - 2 ^ (w - 1) := by
          rw [Nat.mod_eq_sub_mod (by omega), Nat.mod_eq_of_lt (by omega)]
        rw [top] at low
        simp only [zero, if_false, State.ofBool, if_true, beq_self_eq_true, Bool.and_self,
          intOf_true, BitVec.toNat_not, BitVec.toNat_setWidth, rest, Prod.mk.injEq, and_true,
          low]
        omega

theorem big2const_defined (val : Int) (n : Nat) :
    big2const val n (-1) = toConst (BitVec.ofInt n val) := by
  unfold big2const
  rw [if_neg (by decide)]
  split
  · rename_i negative
    obtain ⟨k, rfl⟩ : ∃ k : Nat, val = Int.negSucc k := by
      cases val with
      | ofNat k => simp at negative; omega
      | negSucc k => exact ⟨k, rfl⟩
    apply eq_toConst
    · simp
    · intro i hi inside
      rw [List.getElem_ofFn, BitVec.ofInt_negSucc_eq_not_ofNat, BitVec.getLsbD_not,
        BitVec.getLsbD_ofNat]
      simp [inside]
  · obtain ⟨k, rfl⟩ : ∃ k : Nat, val = (k : Int) := ⟨val.toNat, by omega⟩
    apply eq_toConst
    · simp
    · intro i hi inside
      rw [List.getElem_ofFn, BitVec.ofInt_natCast, BitVec.getLsbD_ofNat]
      simp [inside]

theorem padResult_ofBool (b : Bool) {n : Nat} (positive : 0 < n) :
    padResult [State.ofBool b] n = toConst (boolBits n b) := by
  apply eq_toConst
  · simp [padResult]
    omega
  · intro i hi inside
    rw [boolBits_getLsbD]
    cases i with
    | zero => simp [padResult, inside]
    | succ i => simp [padResult, State.ofBool]

variable {wa wb : Nat} (x : BitVec wa) (y : BitVec wb)

private theorem invertBit_ofBool (b : Bool) : invertBit (State.ofBool b) = State.ofBool !b := by
  cases b <;> rfl

theorem constNot_defined (s : Bool) (n : Nat) :
    constNot (toConst x) s n = toConst (~~~ extendTo s n x) := by
  rw [constNot, resultLenOr_natCast, extendU0_toConst]
  apply eq_toConst
  · simp
  · intro i hi inside
    rw [getElem_map, toConst_getElem, invertBit_ofBool, BitVec.getLsbD_not]
    simp [inside]

variable {logicFunc : State → State → State} {f : Bool → Bool → Bool}

private theorem logicWrapper_defined
    (table : ∀ a b, logicFunc (State.ofBool a) (State.ofBool b) = State.ofBool (f a b))
    (s t : Bool) (n : Nat) (r : BitVec n)
    (bits : ∀ i, i < n → r.getLsbD i = f ((extendTo s n x).getLsbD i) ((extendTo t n y).getLsbD i)) :
    logicWrapper logicFunc (toConst x) (toConst y) s t n = toConst r := by
  simp only [logicWrapper, resultLenOr_natCast, extendU0_toConst]
  apply eq_toConst
  · simp
  · intro i hi inside
    rw [getElem_zipWith, toConst_getElem, toConst_getElem, table, bits i inside]

variable (s t : Bool)

theorem constAnd_defined (n : Nat) :
    constAnd (toConst x) (toConst y) s t n = toConst (extendTo s n x &&& extendTo t n y) :=
  logicWrapper_defined x y (f := and) (by decide) s t n _ (fun i _ => BitVec.getLsbD_and)

theorem constOr_defined (n : Nat) :
    constOr (toConst x) (toConst y) s t n = toConst (extendTo s n x ||| extendTo t n y) :=
  logicWrapper_defined x y (f := or) (by decide) s t n _ (fun i _ => BitVec.getLsbD_or)

theorem constXor_defined (n : Nat) :
    constXor (toConst x) (toConst y) s t n = toConst (extendTo s n x ^^^ extendTo t n y) :=
  logicWrapper_defined x y (f := xor) (by decide) s t n _ (fun i _ => BitVec.getLsbD_xor)

theorem constXnor_defined (n : Nat) :
    constXnor (toConst x) (toConst y) s t n = toConst (~~~ (extendTo s n x ^^^ extendTo t n y)) :=
  logicWrapper_defined x y (f := fun a b => !xor a b) (by decide) s t n _ (fun i inside => by
    rw [BitVec.getLsbD_not, BitVec.getLsbD_xor]
    simp [inside])

theorem reduce_defined
    (table : ∀ a b, logicFunc (State.ofBool a) (State.ofBool b) = State.ofBool (f a b))
    (l : List Bool) (b : Bool) :
    (l.map State.ofBool).foldl logicFunc (State.ofBool b) = State.ofBool (l.foldl f b) := by
  induction l generalizing b with
  | nil => rfl
  | cons c l ih =>
    rw [map_cons, foldl_cons, foldl_cons, table]
    exact ih (f b c)

private theorem foldl_and (l : List Bool) (b : Bool) : l.foldl and b = (b && l.all id) := by
  induction l generalizing b with
  | nil => simp
  | cons c l ih => simp [ih, Bool.and_assoc]

theorem foldl_or (l : List Bool) (b : Bool) : l.foldl or b = (b || l.any id) := by
  induction l generalizing b with
  | nil => simp
  | cons c l ih => simp [ih, Bool.or_assoc]

variable {n : Nat}

theorem constReduceAnd_defined (positive : 0 < n) :
    constReduceAnd (toConst x) n = toConst (boolBits n (x == BitVec.allOnes wa)) := by
  have all : ((range wa).map (fun i => x.getLsbD i)).all id = (x == BitVec.allOnes wa) := by
    rw [Bool.eq_iff_iff, beq_iff_eq, BitVec.eq_of_getLsbD_eq_iff]
    simp +contextual
  rw [constReduceAnd, logicReduceWrapper, toConst_eq_map,
    show State.S1 = State.ofBool true from rfl, reduce_defined (f := and) (by decide), foldl_and,
    all, Bool.true_and, padResult_ofBool _ positive]

theorem constReduceOr_defined (positive : 0 < n) :
    constReduceOr (toConst x) n = toConst (boolBits n (x != 0#(wa))) := by
  have any : ((range wa).map (fun i => x.getLsbD i)).any id = (x != 0#(wa)) := by
    rw [Bool.eq_iff_iff, bne_iff_ne, ne_eq, BitVec.eq_of_getLsbD_eq_iff]
    simp
  rw [constReduceOr, logicReduceWrapper, toConst_eq_map,
    show State.S0 = State.ofBool false from rfl, reduce_defined (f := or) (by decide), foldl_or,
    any, Bool.false_or, padResult_ofBool _ positive]

theorem constReduceBool_eq_or : constReduceBool = constReduceOr := rfl

private theorem foldl_xor_range (f : Nat → Bool) (k : Nat) :
    ((List.range k).map f).foldl (fun a b => a != b) false = bitParity f k := by
  rw [foldl_map, bitParity]

theorem constReduceXor_defined (positive : 0 < n) :
    constReduceXor (toConst x) n = toConst (boolBits n (bitParity x.getLsbD wa)) := by
  rw [constReduceXor, logicReduceWrapper, toConst_eq_map,
    show State.S0 = State.ofBool false from rfl,
    reduce_defined (f := fun a b => a != b) (by decide), foldl_xor_range,
    padResult_ofBool _ positive]

theorem flipFront_boolBits (positive : 0 < n) (b : Bool) :
    flipFront (toConst (boolBits n b)) = toConst (boolBits n !b) := by
  rw [← padResult_ofBool b positive, ← padResult_ofBool (!b) positive]
  cases b <;> rfl

theorem constReduceXnor_defined (positive : 0 < n) :
    constReduceXnor (toConst x) n = toConst (boolBits n !(bitParity x.getLsbD wa)) := by
  have xor := constReduceXor_defined x positive
  rw [constReduceXor] at xor
  rw [constReduceXnor, xor, flipFront_boolBits positive]

theorem intOf_eq_zero (s : Bool) : intOf s x = 0 ↔ x = 0#(wa) := by
  constructor
  · intro h
    apply eq_of_intOf_eq s
    rw [h]
    cases s <;> simp
  · rintro rfl
    cases s <;> simp

private theorem truthBit_defined (s : Bool) :
    truthBit (toConst x) s = State.ofBool (x != 0#(wa)) := by
  rw [truthBit, const2big_toConst]
  by_cases h : x = 0#(wa)
  · have zero := (intOf_eq_zero x s).mpr h
    rw [h] at zero
    simp [zero, h, State.ofBool]
  · have nonzero := mt (intOf_eq_zero x s).mp h
    simp [nonzero, h, State.ofBool]

theorem constLogicNot_eq (arg : Const) (s : Bool) (n : Int) :
    constLogicNot arg s n = padResult [invertBit (truthBit arg s)] n := by
  simp only [constLogicNot, truthBit]
  split
  · split <;> rfl
  · rfl

theorem constLogicNot_defined (s : Bool) (positive : 0 < n) :
    constLogicNot (toConst x) s n = toConst (boolBits n (x == 0#(wa))) := by
  rw [constLogicNot_eq, truthBit_defined, invertBit_ofBool, bne, Bool.not_not,
    padResult_ofBool _ positive]

theorem logicAnd_ofBool (a b : Bool) :
    logicAnd (State.ofBool a) (State.ofBool b) = State.ofBool (a && b) := by
  cases a <;> cases b <;> rfl

private theorem logicOr_ofBool (a b : Bool) :
    logicOr (State.ofBool a) (State.ofBool b) = State.ofBool (a || b) := by
  cases a <;> cases b <;> rfl

theorem constLogicAnd_defined (positive : 0 < n) :
    constLogicAnd (toConst x) (toConst y) s t n =
      toConst (boolBits n (x != 0#(wa) && y != 0#(wb))) := by
  rw [constLogicAnd, truthBit_defined, truthBit_defined, logicAnd_ofBool,
    padResult_ofBool _ positive]

theorem constLogicOr_defined (positive : 0 < n) :
    constLogicOr (toConst x) (toConst y) s t n =
      toConst (boolBits n (x != 0#(wa) || y != 0#(wb))) := by
  rw [constLogicOr, truthBit_defined, truthBit_defined, logicOr_ofBool, padResult_ofBool _ positive]

theorem constCompare_defined (rel : Int → Int → Bool) (s t : Bool) (positive : 0 < n) :
    constCompare rel (toConst x) (toConst y) s t n =
      toConst (boolBits n (rel (intOf s x) (intOf t y))) := by
  rw [← padResult_ofBool _ positive, constCompare]
  simp [const2big_toConst]

theorem matchedStatus_defined (l m : List Bool) (length : l.length = m.length) :
    matchedStatus .S1 ((l.map State.ofBool).zip (m.map State.ofBool)) =
      if l = m then some .S1 else none := by
  induction l generalizing m with
  | nil =>
    cases m with
    | nil => rfl
    | cons b m => simp at length
  | cons a l ih =>
    cases m with
    | nil => simp at length
    | cons b m =>
      have tail := ih m (by simpa using length)
      cases a <;> cases b <;> simp [matchedStatus, State.ofBool] at tail ⊢ <;>
        exact tail

private theorem matchedStatus_toConst (u u' : BitVec n) :
    matchedStatus .S1 ((toConst u).zip (toConst u')) = if u = u' then some .S1 else none := by
  rw [toConst_eq_map u, toConst_eq_map u', matchedStatus_defined _ _ (by simp)]
  congr 1
  rw [eq_iff_iff, ← toConst_inj, toConst_eq_map u, toConst_eq_map u']
  exact (map_injective_iff.mpr State.ofBool_injective).eq_iff.symm

theorem set_front (positive : 0 < n) :
    (Const.ofState .S0 n).set 0 .S1 = toConst (boolBits n true) := by
  obtain ⟨m, rfl⟩ : ∃ m, n = m + 1 := ⟨n - 1, by omega⟩
  rw [← padResult_ofBool true positive]
  simp [Const.ofState, padResult, replicate_succ, State.ofBool]

theorem zero_front (n : Nat) : Const.ofState .S0 n = toConst (boolBits n false) := by
  rw [ofState_zero]
  simp [boolBits]

theorem extendTo_max_eq_iff (s : Bool) :
    extendTo s (max wa wb) x = extendTo s (max wa wb) y ↔ intOf s x = intOf s y := by
  constructor
  · intro h
    rw [← intOf_extendTo s (Nat.le_max_left wa wb) x, h, intOf_extendTo s (Nat.le_max_right wa wb)]
  · intro h
    rw [extendTo_eq_ofInt, extendTo_eq_ofInt, h]

theorem constEq_defined (s : Bool) (positive : 0 < n) :
    constEq (toConst x) (toConst y) s s n =
      toConst (boolBits n (intOf s x == intOf s y)) := by
  simp only [constEq, extendU0_toConst, Bool.and_self, toConst_length, matchedStatus_toConst,
    extendTo_max_eq_iff]
  by_cases h : intOf s x = intOf s y
  · simpa [h] using set_front positive
  · rw [beq_false_of_ne h]
    simpa [h] using zero_front n

theorem constNe_defined (s : Bool) (positive : 0 < n) :
    constNe (toConst x) (toConst y) s s n =
      toConst (boolBits n (intOf s x != intOf s y)) := by
  rw [constNe, constEq_defined x y s positive, flipFront_boolBits positive]
  rfl

theorem constArith_defined (op : Int → Int → Int) (s t : Bool) (n : Nat) :
    constArith op (toConst x) (toConst y) s t n =
      toConst (BitVec.ofInt n (op (intOf s x) (intOf t y))) := by
  simp only [constArith, const2big_toConst, resultLenOr_natCast, big2const_defined]

theorem constAdd_defined (n : Nat) :
    constAdd (toConst x) (toConst y) s t n = toConst (extendTo s n x + extendTo t n y) := by
  rw [constAdd, constArith_defined, BitVec.ofInt_add, extendTo_eq_ofInt, extendTo_eq_ofInt]

theorem constSub_defined (n : Nat) :
    constSub (toConst x) (toConst y) s t n = toConst (extendTo s n x - extendTo t n y) := by
  rw [constSub, constArith_defined, extendTo_eq_ofInt, extendTo_eq_ofInt, Int.sub_eq_add_neg,
    BitVec.ofInt_add, BitVec.ofInt_neg, BitVec.sub_eq_add_neg]

theorem constMul_defined (n : Nat) :
    constMul (toConst x) (toConst y) s t n = toConst (extendTo s n x * extendTo t n y) := by
  rw [constMul, constArith_defined, BitVec.ofInt_mul, extendTo_eq_ofInt, extendTo_eq_ofInt]

variable (s : Bool) (n : Nat)

theorem constPos_defined : constPos (toConst x) s n = toConst (extendTo s n x) := by
  rw [constPos, Int.toNat_natCast, extendU0_toConst]

theorem constNeg_defined : constNeg (toConst x) s n = toConst (- extendTo s n x) := by
  rw [constNeg, ofState_zero, constSub_defined]
  simp [extendTo_eq_ofInt]

theorem shiftWorker_right (nonempty : s = true → 0 < wa) :
    constShiftWorker (toConst x) (toConst y) s false 1 n .S0 =
      toConst (shiftRightTo s n x y.toNat) := by
  simp only [constShiftWorker, const2big_toConst, resultLenOr_natCast, intOf_false]
  rw [if_neg (by decide)]
  apply eq_toConst
  · simp
  · intro i hi inside
    rw [getElem_map, getElem_range, shiftRightTo_getLsbD]
    simp only [inside, decide_true, Bool.true_and, mul_one, toConst_length]
    rw [if_neg (by omega)]
    by_cases h : y.toNat + i < wa
    · rw [if_neg (by omega), if_pos h, show ((i : Int) + y.toNat).toNat = y.toNat + i by omega,
        getD_eq_getElem _ _ (by simpa using h), toConst_getElem]
    · rw [if_pos (by omega), if_neg h, toConst_getLast?]
      cases s with
      | false => rfl
      | true => simp [(nonempty rfl).ne']

theorem shiftWorker_left (nonempty : s = true → 0 < wa) :
    constShiftWorker (toConst x) (toConst y) s false (-1) n .S0 =
      toConst (extendTo s n x <<< y.toNat) := by
  simp only [constShiftWorker, const2big_toConst, resultLenOr_natCast, intOf_false]
  rw [if_neg (by decide)]
  apply eq_toConst
  · simp
  · intro i hi inside
    rw [getElem_map, getElem_range, BitVec.getLsbD_shiftLeft, extendTo_getLsbD]
    simp only [inside, decide_true, Bool.true_and, mul_neg, mul_one, toConst_length]
    by_cases low : i < y.toNat
    · simp [low, State.ofBool]
    · rw [if_neg (by omega)]
      have shifted : i - y.toNat < n := by omega
      simp only [low, decide_false, Bool.not_false, Bool.true_and, shifted, decide_true]
      by_cases h : i - y.toNat < wa
      · rw [if_neg (by omega), if_pos h, show ((i : Int) + -y.toNat).toNat = i - y.toNat by omega,
          getD_eq_getElem _ _ (by simpa using h), toConst_getElem]
      · rw [if_pos (by omega), if_neg h, toConst_getLast?]
        cases s with
        | false => rfl
        | true => simp [(nonempty rfl).ne']

theorem constShl_defined :
    constShl (toConst x) (toConst y) s n = toConst (extendTo s n x <<< y.toNat) := by
  rw [constShl, Int.toNat_natCast, extendU0_toConst, shiftWorker_left _ _ _ _ (by simp),
    extendTo_self]

theorem constShr_defined :
    constShr (toConst x) (toConst y) s n =
      toConst (shiftRightTo false n (extendTo s (max n wa) x) y.toNat) := by
  rw [constShr, Int.toNat_natCast, toConst_length, extendU0_toConst,
    shiftWorker_right _ _ _ _ (by simp)]

theorem constSshr_defined (nonempty : s = true → 0 < wa) :
    constSshr (toConst x) (toConst y) s n = toConst (shiftRightTo s n x y.toNat) := by
  rw [constSshr, shiftWorker_right _ _ _ _ nonempty]

/-- The operator cells in bit-vector terms: operands of signedness `sa` and `sb`, result of `n`
bits. Types that the code generator refuses have no entry. -/
def opBits (type : CellType) (sa sb : Bool) {wa wb : Nat} (x : BitVec wa) (y : BitVec wb)
    (n : Nat) : Option (BitVec n) :=
  let s := sa && sb
  match type with
  | .not => some (~~~ extendTo sa n x)
  | .pos => some (extendTo sa n x)
  | .neg => some (- extendTo sa n x)
  | .reduceAnd => some (boolBits n (x == BitVec.allOnes wa))
  | .reduceOr | .reduceBool => some (boolBits n (x != 0#(wa)))
  | .reduceXor => some (boolBits n (bitParity x.getLsbD wa))
  | .reduceXnor => some (boolBits n !(bitParity x.getLsbD wa))
  | .logicNot => some (boolBits n (x == 0#(wa)))
  | .and => some (extendTo s n x &&& extendTo s n y)
  | .or => some (extendTo s n x ||| extendTo s n y)
  | .xor => some (extendTo s n x ^^^ extendTo s n y)
  | .xnor => some (~~~ (extendTo s n x ^^^ extendTo s n y))
  | .add => some (extendTo s n x + extendTo s n y)
  | .sub => some (extendTo s n x - extendTo s n y)
  | .mul => some (extendTo s n x * extendTo s n y)
  | .eq => some (boolBits n (intOf s x == intOf s y))
  | .ne => some (boolBits n (intOf s x != intOf s y))
  | .lt => some (boolBits n (decide (intOf s x < intOf s y)))
  | .le => some (boolBits n (decide (intOf s x ≤ intOf s y)))
  | .ge => some (boolBits n (decide (intOf s x ≥ intOf s y)))
  | .gt => some (boolBits n (decide (intOf s x > intOf s y)))
  | .logicAnd => some (boolBits n (x != 0#(wa) && y != 0#(wb)))
  | .logicOr => some (boolBits n (x != 0#(wa) || y != 0#(wb)))
  | .shl | .sshl => some (extendTo sa n x <<< y.toNat)
  | .shr => some (shiftRightTo false n (extendTo sa (max n wa) x) y.toNat)
  | .sshr => some (if sa then shiftRightTo true n x y.toNat
      else shiftRightTo false n (extendTo false (max n wa) x) y.toNat)
  | _ => none

theorem eval_defined {type : CellType} {sa sb : Bool} {wa wb n : Nat} {x : BitVec wa}
    {y : BitVec wb} {r : BitVec n} (operand : 0 < wa) (positive : 0 < n)
    (entry : opBits type sa sb x y n = some r) :
    eval type (toConst x) (toConst y) sa sb n = some (toConst r) := by
  cases type <;> simp only [opBits, Option.some.injEq, reduceCtorEq] at entry <;> subst entry
  case shl => simp [eval, evalTable, keepsOwnSign, constShl_defined]
  case shr => simp [eval, evalTable, keepsOwnSign, constShr_defined]
  case sshl =>
    cases sa with
    | false => simp [eval, evalTable, constShl_defined]
    | true => simp [eval, evalTable, keepsOwnSign, constSshl, shiftWorker_left, operand]
  case sshr =>
    cases sa with
    | false => simp [eval, evalTable, constShr_defined]
    | true => simp [eval, evalTable, keepsOwnSign, constSshr_defined, operand]
  all_goals simp [eval, evalTable, keepsOwnSign, positive, constNot_defined, constPos_defined,
    constNeg_defined, constReduceAnd_defined, constReduceOr_defined, constReduceXor_defined,
    constReduceXnor_defined, constReduceBool_eq_or, constLogicNot_defined, constAnd_defined,
    constOr_defined, constXor_defined, constXnor_defined, constAdd_defined, constSub_defined,
    constMul_defined, constEq_defined, constNe_defined, constLt, constLe, constGe, constGt,
    constCompare_defined, constLogicAnd_defined, constLogicOr_defined]

end ManticoreFrontend.Kernel.DefinedValues
