/- source: kernel/rtlil.h, kernel/rtlil.cc (State, Const)
   digest: RTLIL bit states and constants, and the constants that list the bits of a bit vector. -/

import ManticoreFrontend.Foundation.BitWord
import Mathlib.Tactic.Linarith
import Mathlib.Tactic.Positivity

namespace ManticoreFrontend.Kernel.Constants

open Foundation.BitWord BitVec

/-- Logic states in the order of the source enumeration; `Sa` is don't care, `Sm` a marker. -/
inductive State
  | S0 | S1 | Sx | Sz | Sa | Sm
  deriving DecidableEq, Repr

namespace State

def ofBool (b : Bool) : State := if b then .S1 else .S0

def isDef : State → Bool
  | .S0 | .S1 => true
  | _ => false

@[simp] theorem ofBool_isDef (b : Bool) : (ofBool b).isDef = true := by
  cases b <;> rfl

theorem ofBool_injective : Function.Injective ofBool := by
  intro a b h
  cases a <;> cases b <;> simp [ofBool] at h ⊢

theorem ofBool_of_isDef {s : State} (h : s.isDef = true) : ofBool (s == .S1) = s := by
  cases s <;> simp_all [isDef, ofBool]

end State

/-- A constant lists its bits from the least significant one. -/
abbrev Const := List State

namespace Const

/-- The constructor `Const(State bit, int width)`. -/
def ofState (bit : State) (width : Nat) : Const := List.replicate width bit

/-- The constructor `Const(int val, int width)`, which shifts `val` right arithmetically. -/
def ofInt (val : Int) : Nat → Const
  | 0 => []
  | width + 1 => State.ofBool (val % 2 == 1) :: ofInt (val / 2) width

variable (c : Const)

def asBool : Bool := c.any (· == .S1)

/-- The low 32 bits read as a C `int`. -/
def asInt : Int :=
  ((BitVec.ofBoolListLE ((c.take 32).map (· == .S1))).setWidth 32).toInt

def isFullyZero : Bool := c.all (· == .S0)

def isFullyOnes : Bool := c.all (· == .S1)

def isFullyDef : Bool := c.all State.isDef

theorem asInt_lt : asInt c < 2 ^ 31 := by
  have := toInt_lt (x := (ofBoolListLE ((c.take 32).map (· == .S1))).setWidth 32)
  simpa [asInt] using this

theorem asBool_of_asInt {c : Const} (short : c.length ≤ 32) (zero : asInt c = 0) :
    asBool c = false := by
  have bits := toInt_inj.mp (zero.trans toInt_zero.symm)
  rw [asBool, List.any_eq_false]
  intro s mem
  obtain ⟨i, hi, rfl⟩ := List.mem_iff_getElem.mp mem
  have bit := congrArg (getLsbD · i) bits
  rw [getLsbD_setWidth, getLsbD_ofBoolListLE] at bit
  simpa [hi, show i < 32 by omega] using bit

end Const

def toConst {w : Nat} (x : BitVec w) : Const :=
  List.ofFn (fun i : Fin w => State.ofBool (x.getLsbD i))

def wordConst (a : Word) : Const := toConst a.bits

variable {w : Nat}

@[simp] theorem toConst_length (x : BitVec w) : (toConst x).length = w := by
  simp [toConst]

@[simp] theorem toConst_getElem (x : BitVec w) (i : Nat) (h : i < (toConst x).length) :
    (toConst x)[i] = State.ofBool (x.getLsbD i) := by
  simp only [toConst, List.getElem_ofFn]

theorem eq_toConst {k : Const} {x : BitVec w} (length : k.length = w)
    (bits : ∀ i (h : i < k.length), i < w → k[i] = State.ofBool (x.getLsbD i)) : k = toConst x := by
  apply List.ext_getElem
  · simp [length]
  · intro i hi _
    rw [toConst_getElem]
    exact bits i hi (length ▸ hi)

theorem toConst_injective : Function.Injective (toConst (w := w)) := by
  intro x y h
  apply eq_of_getLsbD_eq
  intro i hi
  apply State.ofBool_injective
  have hx : i < (toConst x).length := by simpa using hi
  have hy : i < (toConst y).length := by simpa using hi
  rw [← toConst_getElem x i hx, ← toConst_getElem y i hy]
  simp only [h]

theorem toConst_inj {x y : BitVec w} : toConst x = toConst y ↔ x = y :=
  toConst_injective.eq_iff

theorem toConst_isFullyDef (x : BitVec w) : (toConst x).isFullyDef = true := by
  simp [Const.isFullyDef, toConst]

theorem toConst_concat (x : BitVec w) (b : Bool) :
    toConst (x.concat b) = State.ofBool b :: toConst x := by
  symm
  apply eq_toConst
  · simp
  · intro i hi _
    cases i with
    | zero => simp
    | succ i => simp

@[simp] theorem toConst_nil (x : BitVec 0) : toConst x = [] := by
  simp [toConst]

/-- The bits of a constant, every state but `S1` read as zero. -/
def bitsOf (c : Const) : BitVec c.length :=
  (BitVec.ofBoolListLE (c.map (· == .S1))).cast (by simp)

theorem bitsOf_getLsbD (k : Const) (i : Nat) (h : i < k.length) :
    (bitsOf k).getLsbD i = (k[i] == .S1) := by
  simp only [bitsOf, getLsbD_cast, getLsbD_ofBoolListLE, List.getD]
  simp [h]

theorem toConst_bitsOf {k : Const} (defined : k.isFullyDef = true) : toConst (bitsOf k) = k := by
  symm
  apply eq_toConst rfl
  intro i hi _
  rw [bitsOf_getLsbD k i hi]
  have hdef : k[i].isDef = true := List.all_eq_true.mp defined _ (List.getElem_mem hi)
  exact (State.ofBool_of_isDef hdef).symm

theorem ofState_zero (w : Nat) : Const.ofState .S0 w = toConst (0#w) := by
  apply eq_toConst
  · simp [Const.ofState]
  · simp [Const.ofState, State.ofBool]

theorem ofState_one (w : Nat) : Const.ofState .S1 w = toConst (BitVec.allOnes w) := by
  apply eq_toConst
  · simp [Const.ofState]
  · intro i hi _
    have : i < w := by simpa [Const.ofState] using hi
    simp [Const.ofState, State.ofBool, this]

theorem ofInt_eq_toConst (val : Int) (width : Nat) :
    Const.ofInt val width = toConst (BitVec.ofInt width val) := by
  induction width generalizing val with
  | zero => simp [Const.ofInt]
  | succ width ih =>
    have split : BitVec.ofInt (width + 1) val =
        (BitVec.ofInt width (val / 2)).concat (val % 2 == 1) := by
      apply BitVec.eq_of_toNat_eq
      rw [BitVec.toNat_concat, BitVec.toNat_ofInt, BitVec.toNat_ofInt]
      have power : ((2 ^ (width + 1) : Nat) : Int) = 2 * ((2 ^ width : Nat) : Int) := by
        push_cast
        ring
      have halves : val % (2 * ((2 ^ width : Nat) : Int)) =
          2 * ((val / 2) % ((2 ^ width : Nat) : Int)) + val % 2 := by
        have h1 := Int.emod_add_mul_ediv val (2 * ((2 ^ width : Nat) : Int))
        have h2 := Int.emod_add_mul_ediv (val / 2) ((2 ^ width : Nat) : Int)
        have h3 := Int.emod_add_mul_ediv val 2
        have h4 : val / (2 * ((2 ^ width : Nat) : Int)) = val / 2 / ((2 ^ width : Nat) : Int) :=
          (Int.ediv_ediv_of_nonneg (by norm_num)).symm
        rw [h4] at h1
        linarith [mul_assoc (2 : Int) ((2 ^ width : Nat) : Int)
          (val / 2 / ((2 ^ width : Nat) : Int))]
      rw [power, halves]
      rcases Int.emod_two_eq_zero_or_one val with low | low <;> simp [low] <;> omega
    rw [split, toConst_concat, Const.ofInt, ih]

/-- The word of a constant, every state but `S1` read as zero. -/
def constWord (c : Const) : Word := Word.ofBools (c.map (· == .S1))

@[simp] theorem constWord_width (c : Const) : (constWord c).width = c.length := by
  simp [constWord]

@[simp] theorem constWord_toConst {w : Nat} (x : BitVec w) : constWord (toConst x) = ⟨w, x⟩ := by
  apply Word.eq_of_bit
  · simp
  · intro i hi
    have inside : i < w := by simpa using hi
    rw [constWord, Word.ofBools_bit]
    simp only [List.getD, List.getElem?_map, Word.bit]
    rw [List.getElem?_eq_getElem (by simpa using inside), toConst_getElem]
    cases x.getLsbD i <;> rfl

@[simp] theorem constWord_ofInt (val : Int) (w : Nat) :
    constWord (Const.ofInt val w) = ⟨w, BitVec.ofInt w val⟩ := by
  rw [ofInt_eq_toConst, constWord_toConst]

@[simp] theorem constWord_ofState_S0 (w : Nat) : constWord (Const.ofState .S0 w) = ⟨w, 0#w⟩ := by
  rw [ofState_zero, constWord_toConst]

@[simp] theorem constWord_ofState_S1 (w : Nat) :
    constWord (Const.ofState .S1 w) = ⟨w, BitVec.allOnes w⟩ := by
  rw [ofState_one, constWord_toConst]

end ManticoreFrontend.Kernel.Constants
