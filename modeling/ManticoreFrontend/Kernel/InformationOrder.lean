/- source: kernel/calc.cc, kernel/celltypes.h
   digest: Constant folding is monotone when undefined bits are replaced, except for case equality and powers. -/

import ManticoreFrontend.Kernel.DefinedValues

namespace ManticoreFrontend.Kernel.InformationOrder

open Constants Calc CellTypes DefinedValues List

instance : Fintype State := ⟨{.S0, .S1, .Sx, .Sz, .Sa, .Sm}, fun s => by cases s <;> decide⟩

/-- State `t` carries at least the information of `s`: a defined bit stays as it is. -/
def Refines (s t : State) : Prop := s.isDef = true → t = s

instance (s t : State) : Decidable (Refines s t) := inferInstanceAs (Decidable (_ → _))

theorem Refines.refl (s : State) : Refines s s := fun _ => rfl

/-- The order on constants of one length, bit by bit. -/
def RefinesAll : Const → Const → Prop := List.Forall₂ Refines

/-- More information about the arguments gives more about the value. -/
def Monotonic (f : State → State → State) : Prop :=
  ∀ s s' t t', Refines s s' → Refines t t' → Refines (f s t) (f s' t')

instance (f : State → State → State) : Decidable (Monotonic f) :=
  inferInstanceAs (Decidable (∀ _ _ _ _, _))

variable {f : State → State → State}

namespace RefinesAll

variable {a a' b b' : Const}

theorem refl (a : Const) : RefinesAll a a := forall₂_same.mpr fun s _ => Refines.refl s

theorem length (h : RefinesAll a a') : a.length = a'.length := List.Forall₂.length_eq h

theorem eq_of_isFullyDef (h : RefinesAll a a') (defined : a.isFullyDef = true) : a' = a := by
  induction h with
  | nil => rfl
  | cons head _ ih =>
    simp only [Const.isFullyDef, all_cons, Bool.and_eq_true] at defined
    rw [head defined.1, ih defined.2]

theorem undef {n : Nat} (length : a.length = n) : RefinesAll (Const.ofState .Sx n) a := by
  subst length
  induction a with
  | nil => exact .nil
  | cons s a ih => exact .cons (fun defined => by cases defined) ih

theorem getD (h : RefinesAll a a') (i : Nat) (d : State) : Refines (a.getD i d) (a'.getD i d) := by
  induction h generalizing i with
  | nil => exact Refines.refl d
  | cons head _ ih =>
    cases i with
    | zero => exact head
    | succ i => exact ih i

theorem append (ha : RefinesAll a a') (hb : RefinesAll b b') : RefinesAll (a ++ b) (a' ++ b') :=
  rel_append ha hb

theorem take (n : Nat) (h : RefinesAll a a') : RefinesAll (a.take n) (a'.take n) :=
  forall₂_take n h

theorem drop (n : Nat) (h : RefinesAll a a') : RefinesAll (a.drop n) (a'.drop n) :=
  forall₂_drop n h

theorem map {f g : State → State} (table : ∀ s t, Refines s t → Refines (f s) (g t))
    (h : RefinesAll a a') : RefinesAll (a.map f) (a'.map g) :=
  rel_map (fun s t => table s t) h

theorem zipWith (table : Monotonic f) (ha : RefinesAll a a') (hb : RefinesAll b b') :
    RefinesAll (List.zipWith f a b) (List.zipWith f a' b') := by
  induction ha generalizing b b' with
  | nil => exact .nil
  | cons head _ ih =>
    cases hb with
    | nil => exact .nil
    | cons head' tail' => exact .cons (table _ _ _ _ head head') (ih tail')

theorem foldl {s s' : State} (table : Monotonic f)
    (hs : Refines s s') (ha : RefinesAll a a') : Refines (a.foldl f s) (a'.foldl f s') :=
  rel_foldl (fun s s' first t t' second => table s s' t t' first second) hs ha

theorem mem_one (h : RefinesAll a a') (mem : State.S1 ∈ a) : State.S1 ∈ a' := by
  induction h with
  | nil => cases mem
  | cons head _ ih =>
    cases mem with
    | head => simp [head rfl]
    | tail _ rest => exact mem_cons_of_mem _ (ih rest)

theorem getLast (h : RefinesAll a a') (d : State) :
    Refines (a.getLast?.getD d) (a'.getLast?.getD d) := by
  rw [getLast?_eq_getElem?, getLast?_eq_getElem?, ← h.length]
  exact h.getD (a.length - 1) d

end RefinesAll

theorem const2big_undef (v : Const) (s : Bool) (u : Int) :
    (const2big v s u).2 < 0 ↔ u < 0 ∧ v.isFullyDef = true := by
  have found (k : Const) : undefPos k u < 0 ↔ u < 0 ∧ k.isFullyDef = true := by
    unfold undefPos
    by_cases negative : u < 0
    · rw [if_pos negative]
      cases search : k.findIdx? (fun b => !b.isDef) with
      | none =>
        have clean := findIdx?_eq_none_iff.mp search
        simp only [negative, true_and, true_iff]
        exact all_eq_true.mpr fun b mem => by simpa using clean b mem
      | some i =>
        obtain ⟨inside, undefined, -⟩ := findIdx?_eq_some_iff_getElem.mp search
        have dirty : k.isFullyDef = false :=
          all_eq_false.mpr ⟨k[i], getElem_mem inside, by simpa using undefined⟩
        simp [dirty]
    · simp [negative]
  unfold const2big
  by_cases signed : (s && v.getLast? == some .S1) = true
  · rw [if_pos signed, found]
    simp only [Bool.and_eq_true, beq_iff_eq] at signed
    have whole : v = v.dropLast ++ [.S1] := (dropLast_append_getLast? _ signed.2).symm
    have same : v.isFullyDef = Const.isFullyDef v.dropLast := by
      conv_lhs => rw [whole]
      simp [Const.isFullyDef, State.isDef]
    rw [same]
  · rw [if_neg signed, found]

theorem undefined_position {a b : Const} (undefined : ¬ (a.isFullyDef = true ∧ b.isFullyDef = true))
    (s t : Bool) : (const2big b t (const2big a s (-1)).2).2 ≥ 0 := by
  by_contra negative
  obtain ⟨first, second⟩ := (const2big_undef b t _).mp (lt_of_not_ge negative)
  exact undefined ⟨((const2big_undef a s _).mp first).2, second⟩

theorem const2big_eq_zero (v : Const) (s : Bool) (u : Int) :
    (const2big v s u).1 = 0 ↔ State.S1 ∉ v := by
  have zero (k : Const) : magnitude .S1 k = 0 ↔ State.S1 ∉ k := by
    induction k with
    | nil => simp [magnitude]
    | cons b k ih =>
      by_cases one : b = .S1
      · simp [magnitude, one]
      · have other : State.S1 ≠ b := fun h => one h.symm
        simp [magnitude, one, ih, other]
  unfold const2big
  by_cases signed : (s && v.getLast? == some .S1) = true
  · rw [if_pos signed]
    simp only [Bool.and_eq_true, beq_iff_eq] at signed
    have mem : State.S1 ∈ v := mem_of_getLast? signed.2
    simp only [mem, not_true_eq_false, iff_false]
    omega
  · rw [if_neg signed]
    simpa using zero v

theorem logicAnd_refines : Monotonic logicAnd := by
  decide +kernel

theorem logicOr_refines : Monotonic logicOr := by
  decide +kernel

theorem logicXor_refines : Monotonic logicXor := by
  decide +kernel

theorem logicXnor_refines : Monotonic logicXnor := by
  decide +kernel

theorem padResult_refines {s t : State} (h : Refines s t) (n : Int) :
    RefinesAll (padResult [s] n) (padResult [t] n) :=
  RefinesAll.append (.cons h .nil) (RefinesAll.refl _)

theorem flipFront_refines {a a' : Const} (h : RefinesAll a a') :
    RefinesAll (flipFront a) (flipFront a') := by
  cases h with
  | nil => exact .nil
  | @cons s t a a' head tail =>
    by_cases defined : s.isDef = true
    · rw [head defined]
      cases s <;> exact .cons (Refines.refl _) tail
    · have kept : flipFront (s :: a) = s :: a := by
        cases s <;> first | rfl | exact absurd rfl defined
      rw [kept]
      cases t <;> exact .cons (fun d => absurd d defined) tail

section Operators

variable {a a' b b' : Const} (ha : RefinesAll a a') (hb : RefinesAll b b')

include ha

theorem extendU0_refines (w : Nat) (s : Bool) : RefinesAll (extendU0 a w s) (extendU0 a' w s) := by
  have padding : Refines (if s then a.getLast?.getD .S0 else .S0)
      (if s then a'.getLast?.getD .S0 else .S0) := by
    cases s with
    | false => exact Refines.refl _
    | true => exact ha.getLast .S0
  have fill (n : Nat) : RefinesAll (replicate n (if s then a.getLast?.getD .S0 else .S0))
      (replicate n (if s then a'.getLast?.getD .S0 else .S0)) := by
    induction n with
    | zero => exact .nil
    | succ n ih => exact .cons padding ih
  simp only [extendU0, ha.length]
  exact (ha.append (fill _)).take w

theorem constNot_refines (s : Bool) (n : Int) : RefinesAll (constNot a s n) (constNot a' s n) := by
  rw [constNot, constNot, ha.length]
  exact (extendU0_refines ha _ s).map (by decide)

theorem evalNot_refines : RefinesAll (evalNot a) (evalNot a') :=
  ha.map (by decide)

theorem reduce_refines (table : Monotonic f) (initial : State) (n : Int) :
    RefinesAll (logicReduceWrapper initial f a n) (logicReduceWrapper initial f a' n) :=
  padResult_refines (RefinesAll.foldl table (Refines.refl initial) ha) n

theorem truthBit_refines (s : Bool) : Refines (truthBit a s) (truthBit a' s) := by
  have zero := const2big_eq_zero a s (-1)
  have zero' := const2big_eq_zero a' s (-1)
  have defined := const2big_undef a s (-1)
  simp only [truthBit]
  by_cases one : State.S1 ∈ a
  · have one' := ha.mem_one one
    rw [if_neg (by simpa [zero] using one), if_neg (by simpa [zero'] using one')]
    exact Refines.refl _
  · rw [if_pos (zero.mpr one)]
    by_cases full : a.isFullyDef = true
    · rw [ha.eq_of_isFullyDef full, if_pos (zero.mpr one)]
      exact Refines.refl _
    · rw [if_pos (by simp only [full] at defined; simp at defined; omega)]
      exact fun d => by cases d

theorem constLogicNot_refines (s : Bool) (n : Int) :
    RefinesAll (constLogicNot a s n) (constLogicNot a' s n) := by
  have invert : ∀ s t, Refines s t → Refines (invertBit s) (invertBit t) := by decide
  rw [constLogicNot_eq, constLogicNot_eq]
  exact padResult_refines (invert _ _ (truthBit_refines ha s)) n

include hb

theorem logicWrapper_refines (table : Monotonic f) (s t : Bool) (n : Int) :
    RefinesAll (logicWrapper f a b s t n) (logicWrapper f a' b' s t n) := by
  simp only [logicWrapper, ha.length, hb.length]
  exact RefinesAll.zipWith table (extendU0_refines ha _ s) (extendU0_refines hb _ t)

theorem constLogicAnd_refines (s t : Bool) (n : Int) :
    RefinesAll (constLogicAnd a b s t n) (constLogicAnd a' b' s t n) :=
  padResult_refines
    (logicAnd_refines _ _ _ _ (truthBit_refines ha s) (truthBit_refines hb t)) n

theorem constLogicOr_refines (s t : Bool) (n : Int) :
    RefinesAll (constLogicOr a b s t n) (constLogicOr a' b' s t n) :=
  padResult_refines
    (logicOr_refines _ _ _ _ (truthBit_refines ha s) (truthBit_refines hb t)) n

theorem undefined_or_same (s t : Bool) :
    (const2big b t (const2big a s (-1)).2).2 ≥ 0 ∨ a' = a ∧ b' = b := by
  by_cases full : a.isFullyDef = true ∧ b.isFullyDef = true
  · exact .inr ⟨ha.eq_of_isFullyDef full.1, hb.eq_of_isFullyDef full.2⟩
  · exact .inl (undefined_position full s t)

theorem constCompare_refines (rel : Int → Int → Bool) (s t : Bool) (n : Int) :
    RefinesAll (constCompare rel a b s t n) (constCompare rel a' b' s t n) := by
  rcases undefined_or_same ha hb s t with undefined | ⟨rfl, rfl⟩
  · simp only [constCompare]
    apply padResult_refines
    rw [if_pos undefined]
    exact fun d => by cases d
  · exact RefinesAll.refl _

omit ha hb in
@[simp] theorem big2const_length (v : Int) (n : Nat) (u : Int) : (big2const v n u).length = n := by
  unfold big2const
  split
  · simp [Const.ofState]
  · split <;> simp

theorem constArith_refines (op : Int → Int → Int) (s t : Bool) (n : Int) :
    RefinesAll (constArith op a b s t n) (constArith op a' b' s t n) := by
  rcases undefined_or_same ha hb s t with undefined | ⟨rfl, rfl⟩
  · have all : constArith op a b s t n =
        Const.ofState .Sx (resultLenOr n (max a.length b.length)) := if_pos undefined
    rw [all]
    apply RefinesAll.undef
    simp [constArith, ha.length, hb.length]
  · exact RefinesAll.refl _

omit ha hb in
theorem constDivLike_undefined {s t : Bool} (undefined : (const2big b t (const2big a s (-1)).2).2 ≥ 0)
    (op : Int → Int → Int) (n : Nat) : constDivLike op a b s t n = Const.ofState .Sx n := by
  simp only [constDivLike]
  split
  · rfl
  · rw [big2const, if_pos (by omega), resultLenOr_natCast]

theorem constDivLike_refines (op : Int → Int → Int) (s t : Bool) (n : Nat) :
    RefinesAll (constDivLike op a b s t n) (constDivLike op a' b' s t n) := by
  have length (a b : Const) : (constDivLike op a b s t n).length = n := by
    simp only [constDivLike]
    split <;> simp [Const.ofState]
  rcases undefined_or_same ha hb s t with undefined | ⟨rfl, rfl⟩
  · rw [constDivLike_undefined undefined]
    exact RefinesAll.undef (length a' b')
  · exact RefinesAll.refl _

theorem constShiftWorker_refines (signExt t : Bool) (direction n : Int) (vacant : State) :
    RefinesAll (constShiftWorker a b signExt t direction n vacant)
      (constShiftWorker a' b' signExt t direction n vacant) := by
  by_cases full : b.isFullyDef = true
  · rw [hb.eq_of_isFullyDef full]
    have defined := not_le.mpr ((const2big_undef b t (-1)).mpr ⟨by decide, full⟩)
    simp only [constShiftWorker, ha.length]
    rw [if_neg defined, if_neg defined, RefinesAll, forall₂_map_left_iff,
      forall₂_map_right_iff, forall₂_same]
    intro i _
    split
    · exact Refines.refl _
    · split
      · split
        · exact ha.getLast .Sx
        · exact Refines.refl _
      · exact ha.getD _ .Sx
  · have undefined : (const2big b t (-1)).2 ≥ 0 := by
      by_contra negative
      exact full ((const2big_undef b t _).mp (lt_of_not_ge negative)).2
    have all : constShiftWorker a b signExt t direction n vacant =
        Const.ofState .Sx (resultLenOr n a.length) := if_pos undefined
    rw [all]
    apply RefinesAll.undef
    simp only [constShiftWorker, ha.length]
    split <;> simp [Const.ofState]

end Operators

variable {a a' b b' : Const}

theorem matchedStatus_none (ha : RefinesAll a a') (hb : RefinesAll b b') (s s' : State)
    (differ : matchedStatus s (a.zip b) = none) : matchedStatus s' (a'.zip b') = none := by
  induction ha generalizing b b' s s' with
  | nil => cases differ
  | @cons x x' a a' head tail ih =>
    cases hb with
    | nil => cases differ
    | @cons y y' b b' head' tail' =>
      simp only [zip_cons_cons, matchedStatus] at differ ⊢
      by_cases clash : (x = .S0 ∧ y = .S1) ∨ (x = .S1 ∧ y = .S0)
      · rcases clash with ⟨rfl, rfl⟩ | ⟨rfl, rfl⟩ <;> rw [head rfl, head' rfl] <;> simp
      · have rest : ∃ t, matchedStatus t (a.zip b) = none := by
          rw [if_neg (fun h => clash (.inl h)), if_neg (fun h => clash (.inr h))] at differ
          split at differ
          · exact ⟨_, differ⟩
          · exact ⟨_, differ⟩
        obtain ⟨t, rest⟩ := rest
        have tails (t' : State) : matchedStatus t' (a'.zip b') = none := ih tail' t t' rest
        simp [tails]

theorem matchedStatus_some {l : List (State × State)} {s t : State}
    (same : matchedStatus s l = some t) :
    t = .Sx ∨ t = s ∧ ∀ p ∈ l, p.1.isDef = true ∧ p.2.isDef = true := by
  induction l generalizing s with
  | nil =>
    right
    exact ⟨(Option.some.inj same).symm, by simp⟩
  | cons p l ih =>
    simp only [matchedStatus] at same
    split at same
    · cases same
    · split at same
      · cases same
      · split at same
        · rcases ih same with lost | ⟨lost, -⟩ <;> exact .inl lost
        · rename_i defined
          rcases ih same with lost | ⟨kept, rest⟩
          · exact .inl lost
          · right
            refine ⟨kept, ?_⟩
            intro q mem
            rcases mem_cons.mp mem with rfl | mem
            · simpa using defined
            · exact rest q mem

private theorem isFullyDef_of_zip (length : a.length = b.length)
    (defined : ∀ p ∈ a.zip b, p.1.isDef = true ∧ p.2.isDef = true) :
    a.isFullyDef = true ∧ b.isFullyDef = true := by
  constructor
  · rw [← map_fst_zip length.le]
    exact all_eq_true.mpr (forall_mem_map.mpr fun p mem => (defined p mem).1)
  · rw [← map_snd_zip length.ge]
    exact all_eq_true.mpr (forall_mem_map.mpr fun p mem => (defined p mem).2)

private theorem status_refines (ha : RefinesAll a a') (hb : RefinesAll b b')
    (length : a.length = b.length) :
    Refines ((matchedStatus .S1 (a.zip b)).getD .S0) ((matchedStatus .S1 (a'.zip b')).getD .S0) := by
  cases first : matchedStatus .S1 (a.zip b) with
  | none =>
    rw [matchedStatus_none ha hb .S1 .S1 first]
    exact Refines.refl _
  | some t =>
    rcases matchedStatus_some first with rfl | ⟨-, defined⟩
    · exact fun d => by cases d
    · obtain ⟨fullA, fullB⟩ := isFullyDef_of_zip length defined
      rw [ha.eq_of_isFullyDef fullA, hb.eq_of_isFullyDef fullB, first]
      exact Refines.refl _

private theorem constEq_eq (s t : Bool) (n : Int) :
    constEq a b s t n = (Const.ofState .S0 n.toNat).set 0
      ((matchedStatus .S1 ((extendU0 a (max a.length b.length) (s && t)).zip
        (extendU0 b (max a.length b.length) (s && t)))).getD .S0) := by
  simp only [constEq]
  split
  · rename_i none
    rw [none]
    cases n.toNat <;> rfl
  · rename_i some
    rw [some]
    rfl

theorem constEq_refines (ha : RefinesAll a a') (hb : RefinesAll b b') (s t : Bool) (n : Int) :
    RefinesAll (constEq a b s t n) (constEq a' b' s t n) := by
  rw [constEq_eq, constEq_eq, ← ha.length, ← hb.length]
  have status := status_refines (extendU0_refines ha (max a.length b.length) (s && t))
    (extendU0_refines hb (max a.length b.length) (s && t)) (by simp [extendU0])
  cases n.toNat with
  | zero => exact .nil
  | succ m => exact .cons status (RefinesAll.refl _)

theorem bmuxHalf_length (sel : State) {t : Const} {m : Nat} (length : t.length = 2 * m) :
    (bmuxHalf sel t).length = m := by
  have half : t.length / 2 = m := by omega
  cases sel <;> simp [bmuxHalf] <;> omega

private theorem merge_refines {l l' h h' : Const} (low : RefinesAll l l') (high : RefinesAll h h')
    (same : l.length = h.length) :
    RefinesAll (List.zipWith (fun u v => if u = v then u else .Sx) l h) l' ∧
    RefinesAll (List.zipWith (fun u v => if u = v then u else .Sx) l h) h' ∧
    RefinesAll (List.zipWith (fun u v => if u = v then u else .Sx) l h)
      (List.zipWith (fun u v => if u = v then u else .Sx) l' h') := by
  have agree : ∀ u u' v v' : State, Refines u u' → Refines v v' →
      Refines (if u = v then u else .Sx) u' ∧ Refines (if u = v then u else .Sx) v' ∧
        Refines (if u = v then u else .Sx) (if u' = v' then u' else .Sx) := by
    decide +kernel
  induction low generalizing h h' with
  | nil =>
    cases high with
    | nil => exact ⟨.nil, .nil, .nil⟩
    | cons => cases same
  | cons head tail ih =>
    cases high with
    | nil => cases same
    | cons head' tail' =>
      obtain ⟨left, right, both⟩ := ih tail' (by simpa using same)
      obtain ⟨left', right', both'⟩ := agree _ _ _ _ head head'
      exact ⟨.cons left' left, .cons right' right, .cons both' both⟩

theorem bmuxHalf_refines {sel sel' : State} {t t' : Const} {m : Nat} (hs : Refines sel sel')
    (ht : RefinesAll t t') (length : t.length = 2 * m) :
    RefinesAll (bmuxHalf sel t) (bmuxHalf sel' t') := by
  have half : t.length / 2 = m := by omega
  have half' : t'.length / 2 = m := by rw [← ht.length, half]
  have low := ht.take m
  have high := ht.drop m
  by_cases defined : sel.isDef = true
  · rw [hs defined]
    cases sel <;> simp only [bmuxHalf, half, half'] <;> first | exact low | exact high | cases defined
  · have merged : bmuxHalf sel t =
        zipWith (fun u v => if u = v then u else .Sx) (t.take m) (t.drop m) := by
      cases sel <;> simp only [bmuxHalf, half] <;> exact absurd rfl defined
    obtain ⟨left, right, both⟩ := merge_refines low high (by simp; omega)
    rw [merged]
    cases sel' <;> simp only [bmuxHalf, half'] <;> first | exact left | exact right | exact both

theorem constBmux_refines (ha : RefinesAll a a') (hb : RefinesAll b b') {m : Nat}
    (length : a.length = 2 ^ b.length * m) :
    (constBmux a b).length = m ∧ RefinesAll (constBmux a b) (constBmux a' b') := by
  induction hb generalizing m with
  | nil => exact ⟨by simpa [constBmux] using length, ha⟩
  | @cons sel sel' b b' head tail ih =>
    obtain ⟨rest, refined⟩ := @ih (2 * m) (by rw [length, length_cons, pow_succ, mul_assoc])
    exact ⟨bmuxHalf_length sel rest, bmuxHalf_refines head refined rest⟩

private theorem ruledOut_refines (hb : RefinesAll b b') (i : Nat)
    (out : b.zipIdx.any (fun sel => sel.1 == if i.testBit sel.2 then .S0 else .S1) = true) :
    b'.zipIdx.any (fun sel => sel.1 == if i.testBit sel.2 then .S0 else .S1) = true := by
  obtain ⟨⟨s, j⟩, mem, differ⟩ := any_eq_true.mp out
  have at_j : b[j]? = some s := mem_zipIdx_iff_getElem?.mp mem
  have defined : s.isDef = true := by
    simp only [beq_iff_eq] at differ
    rw [differ]
    split <;> rfl
  have kept := hb.getD j .Sx
  simp only [List.getD, at_j, Option.getD_some] at kept
  have at_j' : b'[j]? = some s := by
    obtain ⟨inside, -⟩ := List.getElem?_eq_some_iff.mp at_j
    have inside' : j < b'.length := hb.length ▸ inside
    simpa [getElem?_eq_getElem inside'] using kept defined
  exact any_eq_true.mpr ⟨(s, j), mem_zipIdx_iff_getElem?.mpr at_j', differ⟩

theorem demuxBlock_refines (ha : RefinesAll a a') (hb : RefinesAll b b') (i : Nat) :
    RefinesAll (demuxBlock a b i) (demuxBlock a' b' i) := by
  simp only [demuxBlock, ← ha.length]
  by_cases out : b.zipIdx.any (fun sel => sel.1 == if i.testBit sel.2 then .S0 else .S1) = true
  · rw [if_pos out, if_pos (ruledOut_refines hb i out)]
    exact RefinesAll.refl _
  · rw [if_neg out]
    by_cases undefined : b.any (fun sel => !sel.isDef) = true
    · rw [if_pos undefined]
      -- whatever the selection becomes, only the zeros of the operand are known
      have zeros : Const.ofState .S0 a.length = a'.map fun _ => .S0 := by
        rw [ha.length, map_const', Const.ofState]
      split
      · rw [zeros]
        exact ha.map (by decide)
      · split
        · exact ha.map (by decide)
        · have known := ha.map (f := fun bit => if bit = .S0 then .S0 else .Sx) (g := id) (by decide)
          simpa using known
    · have full : b.isFullyDef = true := by
        simp only [Bool.not_eq_true, any_eq_false, Bool.not_eq_true'] at undefined
        exact all_eq_true.mpr fun s mem => by simpa using undefined s mem
      rw [hb.eq_of_isFullyDef full, if_neg out, if_neg undefined, if_neg undefined]
      exact ha

theorem constDemux_refines (ha : RefinesAll a a') (hb : RefinesAll b b') :
    RefinesAll (constDemux a b) (constDemux a' b') := by
  rw [constDemux, constDemux, ← hb.length]
  refine rel_flatMap (R := Eq) (forall₂_same.mpr fun _ _ => rfl) ?_
  rintro i _ rfl
  exact demuxBlock_refines ha hb i

private theorem sopTerm_refines (ha : RefinesAll a a') (table : Const) (width i : Nat) :
    ((sopTerm table width a i).1 = true → (sopTerm table width a' i).1 = true) ∧
    ((sopTerm table width a' i).1 = true → (sopTerm table width a i).2 = true) ∧
    ((sopTerm table width a' i).2 = true → (sopTerm table width a i).2 = true) := by
  have literals : ∀ s s' : State, Refines s s' → ∀ p q : Bool,
      (((!p || s == .S0) && (!q || s == .S1)) = true →
        ((!p || s' == .S0) && (!q || s' == .S1)) = true) ∧
      (((!p || s' == .S0) && (!q || s' == .S1)) = true →
        ((!p || s != .S1) && (!q || s != .S0)) = true) ∧
      (((!p || s' != .S1) && (!q || s' != .S0)) = true →
        ((!p || s != .S1) && (!q || s != .S0)) = true) := by
    decide
  simp only [sopTerm, all_eq_true]
  refine ⟨?_, ?_, ?_⟩
  · intro all j mem
    exact (literals _ _ (ha.getD j .Sx) _ _).1 (all j mem)
  · intro all j mem
    exact (literals _ _ (ha.getD j .Sx) _ _).2.1 (all j mem)
  · intro all j mem
    exact (literals _ _ (ha.getD j .Sx) _ _).2.2 (all j mem)

theorem evalSop_refines (ha : RefinesAll a a') (table : Const) (width depth : Nat) :
    Refines (evalSop table width depth a) (evalSop table width depth a') := by
  have term := sopTerm_refines ha table width
  have any_of {p q : Nat → Bool} (imp : ∀ i, p i = true → q i = true)
      (hit : (range depth).any p = true) : (range depth).any q = true := by
    obtain ⟨i, mem, hit⟩ := any_eq_true.mp hit
    exact any_eq_true.mpr ⟨i, mem, imp i hit⟩
  simp only [evalSop, any_map, Function.comp_def]
  by_cases one : (range depth).any (fun i => (sopTerm table width a i).1) = true
  · rw [if_pos one, if_pos (any_of (fun i => (term i).1) one)]
    exact Refines.refl _
  · rw [if_neg one]
    by_cases open_ : (range depth).any (fun i => (sopTerm table width a i).2) = true
    · rw [if_pos open_]
      exact fun d => by cases d
    · rw [if_neg open_, if_neg fun hit => open_ (any_of (fun i => (term i).2.1) hit),
        if_neg fun hit => open_ (any_of (fun i => (term i).2.2) hit)]
      exact Refines.refl _

section Evaluator

variable (ha : RefinesAll a a') (hb : RefinesAll b b')

theorem rel_ite {p : Prop} [Decidable p] {x x' y y' : Option Const}
    (hx : p → Option.Rel RefinesAll x x') (hy : ¬ p → Option.Rel RefinesAll y y') :
    Option.Rel RefinesAll (if p then x else y) (if p then x' else y') := by
  split
  · exact hx ‹p›
  · exact hy ‹¬ p›

theorem rel_bind {α : Type} (o : Option α) {f g : α → Option Const}
    (h : ∀ x, o = some x → Option.Rel RefinesAll (f x) (g x)) :
    Option.Rel RefinesAll (o >>= f) (o >>= g) := by
  cases o with
  | none => exact .none
  | some x => exact h x rfl

include ha hb

theorem evalGate_refines (id : IdString) :
    Option.Rel RefinesAll (evalGate id a b) (evalGate id a' b') := by
  have conj := logicWrapper_refines ha hb logicAnd_refines false false 1
  have disj := logicWrapper_refines ha hb logicOr_refines false false 1
  have xor := logicWrapper_refines ha hb logicXor_refines false false 1
  have xnor := logicWrapper_refines ha hb logicXnor_refines false false 1
  have conjNot :=
    logicWrapper_refines ha (evalNot_refines hb) logicAnd_refines false false 1
  have disjNot :=
    logicWrapper_refines ha (evalNot_refines hb) logicOr_refines false false 1
  exact rel_ite (fun _ => .some ha) fun _ => rel_ite (fun _ => .some (evalNot_refines ha)) fun _ =>
    rel_ite (fun _ => .some conj) fun _ => rel_ite (fun _ => .some (evalNot_refines conj)) fun _ =>
    rel_ite (fun _ => .some disj) fun _ => rel_ite (fun _ => .some (evalNot_refines disj)) fun _ =>
    rel_ite (fun _ => .some xor) fun _ => rel_ite (fun _ => .some xnor) fun _ =>
    rel_ite (fun _ => .some conjNot) fun _ => rel_ite (fun _ => .some disjNot) fun _ => .none

theorem evalTable_refines {type : CellType} (caseEq : type ≠ .eqx) (caseNe : type ≠ .nex)
    (power : type ≠ .pow) (s t : Bool) (n : Nat) :
    Option.Rel RefinesAll (evalTable type a b s t n) (evalTable type a' b' s t n) := by
  cases type with
  | not => exact .some (constNot_refines ha s n)
  | pos => exact .some (extendU0_refines ha _ s)
  | neg => exact .some (constArith_refines (RefinesAll.refl (Const.ofState .S0 1)) ha (· - ·) true s n)
  | and => exact .some (logicWrapper_refines ha hb logicAnd_refines s t n)
  | or => exact .some (logicWrapper_refines ha hb logicOr_refines s t n)
  | xor => exact .some (logicWrapper_refines ha hb logicXor_refines s t n)
  | xnor => exact .some (logicWrapper_refines ha hb logicXnor_refines s t n)
  | reduceAnd => exact .some (reduce_refines ha logicAnd_refines .S1 n)
  | reduceOr => exact .some (reduce_refines ha logicOr_refines .S0 n)
  | reduceXor => exact .some (reduce_refines ha logicXor_refines .S0 n)
  | reduceXnor => exact .some (flipFront_refines (reduce_refines ha logicXor_refines .S0 n))
  | reduceBool => exact .some (reduce_refines ha logicOr_refines .S0 n)
  | logicNot => exact .some (constLogicNot_refines ha s n)
  | logicAnd => exact .some (constLogicAnd_refines ha hb s t n)
  | logicOr => exact .some (constLogicOr_refines ha hb s t n)
  | shl => exact .some (constShiftWorker_refines (extendU0_refines ha _ s) hb false false (-1) n .S0)
  | shr =>
    have shifted := constShiftWorker_refines
      (extendU0_refines ha (max (n : Int).toNat a.length) s) hb false false 1 n .S0
    simp only [evalTable, constShr, ← ha.length]
    exact .some shifted
  | sshl => exact .some (constShiftWorker_refines ha hb s false (-1) n .S0)
  | sshr => exact .some (constShiftWorker_refines ha hb s false 1 n .S0)
  | shift =>
    have shifted := constShiftWorker_refines
      (extendU0_refines ha (max (n : Int).toNat a.length) s) hb false t 1 n .S0
    simp only [evalTable, constShift, ← ha.length]
    exact .some shifted
  | shiftx => exact .some (constShiftWorker_refines ha hb false t 1 n .Sx)
  | lt => exact .some (constCompare_refines ha hb _ s t n)
  | le => exact .some (constCompare_refines ha hb _ s t n)
  | ge => exact .some (constCompare_refines ha hb _ s t n)
  | gt => exact .some (constCompare_refines ha hb _ s t n)
  | eq => exact .some (constEq_refines ha hb s t n)
  | ne => exact .some (flipFront_refines (constEq_refines ha hb s t n))
  | eqx => exact absurd rfl caseEq
  | nex => exact absurd rfl caseNe
  | add => exact .some (constArith_refines ha hb _ s t n)
  | sub => exact .some (constArith_refines ha hb _ s t n)
  | mul => exact .some (constArith_refines ha hb _ s t n)
  | div => exact .some (constDivLike_refines ha hb _ s t n)
  | mod => exact .some (constDivLike_refines ha hb _ s t n)
  | divfloor => exact .some (constDivLike_refines ha hb _ s t n)
  | modfloor => exact .some (constDivLike_refines ha hb _ s t n)
  | pow => exact absurd rfl power
  | other id => exact evalGate_refines ha hb id
  | _ => exact .none

theorem eval_refines {type : CellType} (caseEq : type ≠ .eqx) (caseNe : type ≠ .nex)
    (power : type ≠ .pow) (s t : Bool) (n : Nat) :
    Option.Rel RefinesAll (eval type a b s t n) (eval type a' b' s t n) := by
  refine rel_ite (fun _ => ?_) fun _ => ?_ <;> apply evalTable_refines ha hb <;> split_ifs <;> simp_all

end Evaluator

end ManticoreFrontend.Kernel.InformationOrder
