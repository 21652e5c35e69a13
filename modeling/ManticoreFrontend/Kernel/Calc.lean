/- source: kernel/calc.cc
   digest: The constant folding functions behind cell evaluation, over all six bit states. -/

import ManticoreFrontend.Kernel.Constants

namespace ManticoreFrontend.Kernel.Calc

open Constants

/-- Pad with zeros, or with the top bit when signed, then cut to `width` bits. -/
def extendU0 (arg : Const) (width : Nat) (isSigned : Bool) : Const :=
  let padding := if isSigned then arg.getLast?.getD .S0 else .S0
  (arg ++ List.replicate (width - arg.length) padding).take width

/-- The number whose binary digits are the positions that hold `one`. -/
def magnitude (one : State) : Const → Nat
  | [] => 0
  | b :: bs => (if b = one then 1 else 0) + 2 * magnitude one bs

/-- Position of the first undefined bit, kept at its earlier value once it is set. -/
def undefPos (bits : Const) (undefBitPos : Int) : Int :=
  if undefBitPos < 0 then
    match bits.findIdx? (fun b => !b.isDef) with
    | some i => i
    | none => undefBitPos
  else undefBitPos

/-- The integer value of a constant and the updated undefined position. A negative value is read
from the inverted bits below the sign, plus one. -/
def const2big (val : Const) (asSigned : Bool) (undefBitPos : Int) : Int × Int :=
  if asSigned && val.getLast? == some .S1 then
    (-((magnitude .S0 val.dropLast : Int) + 1), undefPos val.dropLast undefBitPos)
  else (magnitude .S1 val, undefPos val undefBitPos)

def big2const (val : Int) (resultLen : Nat) (undefBitPos : Int) : Const :=
  if undefBitPos ≥ 0 then Const.ofState .Sx resultLen
  else if val < 0 then
    List.ofFn (fun i : Fin resultLen => State.ofBool (!(val.natAbs - 1).testBit i))
  else List.ofFn (fun i : Fin resultLen => State.ofBool (val.natAbs.testBit i))

def resultLenOr (resultLen : Int) (default : Nat) : Nat :=
  if resultLen < 0 then default else resultLen.toNat

@[simp] theorem resultLenOr_natCast (n default : Nat) : resultLenOr n default = n := by
  simp [resultLenOr]

def padResult (result : Const) (resultLen : Int) : Const :=
  result ++ List.replicate (resultLen.toNat - result.length) .S0

def logicAnd (a b : State) : State :=
  if a = .S0 then .S0
  else if b = .S0 then .S0
  else if a ≠ .S1 then .Sx
  else if b ≠ .S1 then .Sx
  else .S1

def logicOr (a b : State) : State :=
  if a = .S1 then .S1
  else if b = .S1 then .S1
  else if a ≠ .S0 then .Sx
  else if b ≠ .S0 then .Sx
  else .S0

def logicXor (a b : State) : State :=
  if a ≠ .S0 ∧ a ≠ .S1 then .Sx
  else if b ≠ .S0 ∧ b ≠ .S1 then .Sx
  else if a ≠ b then .S1 else .S0

def logicXnor (a b : State) : State :=
  if a ≠ .S0 ∧ a ≠ .S1 then .Sx
  else if b ≠ .S0 ∧ b ≠ .S1 then .Sx
  else if a = b then .S1 else .S0

def invertBit : State → State
  | .S0 => .S1
  | .S1 => .S0
  | _ => .Sx

def constNot (arg1 : Const) (signed1 : Bool) (resultLen : Int) : Const :=
  (extendU0 arg1 (resultLenOr resultLen arg1.length) signed1).map invertBit

def logicWrapper (logicFunc : State → State → State) (arg1 arg2 : Const)
    (signed1 signed2 : Bool) (resultLen : Int) : Const :=
  let len := resultLenOr resultLen (max arg1.length arg2.length)
  List.zipWith logicFunc (extendU0 arg1 len signed1) (extendU0 arg2 len signed2)

def constAnd := logicWrapper logicAnd

def constOr := logicWrapper logicOr

def constXor := logicWrapper logicXor

def constXnor := logicWrapper logicXnor

def logicReduceWrapper (initial : State) (logicFunc : State → State → State)
    (arg1 : Const) (resultLen : Int) : Const :=
  padResult [arg1.foldl logicFunc initial] resultLen

def constReduceAnd := logicReduceWrapper .S1 logicAnd

def constReduceOr := logicReduceWrapper .S0 logicOr

def constReduceXor := logicReduceWrapper .S0 logicXor

def flipFront : Const → Const
  | .S0 :: bits => .S1 :: bits
  | .S1 :: bits => .S0 :: bits
  | bits => bits

variable (arg1 arg2 : Const) (signed1 signed2 : Bool) (resultLen : Int)

def constReduceXnor : Const :=
  flipFront (logicReduceWrapper .S0 logicXor arg1 resultLen)

def constReduceBool := logicReduceWrapper .S0 logicOr

/-- Truth of a constant as the logic operators read it: one when nonzero, zero when zero and
fully defined, undefined otherwise. -/
def truthBit (arg : Const) (isSigned : Bool) : State :=
  let (a, undefBitPos) := const2big arg isSigned (-1)
  if a = 0 then if undefBitPos ≥ 0 then .Sx else .S0 else .S1

def constLogicNot : Const :=
  let (a, undefBitPos) := const2big arg1 signed1 (-1)
  padResult [if a = 0 then if undefBitPos ≥ 0 then .Sx else .S1 else .S0] resultLen

def constLogicAnd : Const :=
  padResult [logicAnd (truthBit arg1 signed1) (truthBit arg2 signed2)] resultLen

def constLogicOr : Const :=
  padResult [logicOr (truthBit arg1 signed1) (truthBit arg2 signed2)] resultLen

/-- Shift right for `direction = 1`, left for `direction = -1`. Positions below the operand read
`vacantBits`, those above its top bit when `signExt`. -/
def constShiftWorker (arg1 arg2 : Const) (signExt signed2 : Bool) (direction : Int)
    (resultLen : Int) (vacantBits : State) : Const :=
  let (amount, undefBitPos) := const2big arg2 signed2 (-1)
  let offset := amount * direction
  let len := resultLenOr resultLen arg1.length
  if undefBitPos ≥ 0 then Const.ofState .Sx len
  else (List.range len).map (fun (i : Nat) =>
    let pos : Int := i + offset
    if pos < 0 then vacantBits
    else if pos ≥ arg1.length then
      if signExt then arg1.getLast?.getD .Sx else vacantBits
    else arg1.getD pos.toNat .Sx)

def constShl : Const :=
  constShiftWorker (extendU0 arg1 resultLen.toNat signed1) arg2 false false (-1) resultLen .S0

def constShr : Const :=
  constShiftWorker (extendU0 arg1 (max resultLen.toNat arg1.length) signed1) arg2
    false false 1 resultLen .S0

def constSshl : Const :=
  constShiftWorker arg1 arg2 signed1 false (-1) resultLen .S0

def constSshr : Const :=
  constShiftWorker arg1 arg2 signed1 false 1 resultLen .S0

def constShift : Const :=
  constShiftWorker (extendU0 arg1 (max resultLen.toNat arg1.length) signed1) arg2
    false signed2 1 resultLen .S0

def constShiftx : Const :=
  constShiftWorker arg1 arg2 false signed2 1 resultLen .Sx

/-- The four ordered comparisons differ only in the relation on the integer values. -/
def constCompare (rel : Int → Int → Bool) (arg1 arg2 : Const) (signed1 signed2 : Bool)
    (resultLen : Int) : Const :=
  let (a, undef1) := const2big arg1 signed1 (-1)
  let (b, undef2) := const2big arg2 signed2 undef1
  padResult [if undef2 ≥ 0 then .Sx else State.ofBool (rel a b)] resultLen

def constLt := constCompare (fun a b => a < b)

def constLe := constCompare (fun a b => a ≤ b)

def constGe := constCompare (fun a b => a ≥ b)

def constGt := constCompare (fun a b => a > b)

/-- The comparison loop: `none` as soon as two defined bits differ, else the final status. -/
def matchedStatus : State → List (State × State) → Option State
  | status, [] => some status
  | status, (a, b) :: rest =>
    if a = .S0 ∧ b = .S1 then none
    else if a = .S1 ∧ b = .S0 then none
    else if !a.isDef || !b.isDef then matchedStatus .Sx rest
    else matchedStatus status rest

def constEq : Const :=
  let width := max arg1.length arg2.length
  let arg1Ext := extendU0 arg1 width (signed1 && signed2)
  let arg2Ext := extendU0 arg2 width (signed1 && signed2)
  match matchedStatus .S1 (arg1Ext.zip arg2Ext) with
  | none => Const.ofState .S0 resultLen.toNat
  | some status => (Const.ofState .S0 resultLen.toNat).set 0 status

def constNe : Const :=
  flipFront (constEq arg1 arg2 signed1 signed2 resultLen)

def constEqx : Const :=
  let width := max arg1.length arg2.length
  let arg1Ext := extendU0 arg1 width (signed1 && signed2)
  let arg2Ext := extendU0 arg2 width (signed1 && signed2)
  if arg1Ext = arg2Ext then (Const.ofState .S0 resultLen.toNat).set 0 .S1
  else Const.ofState .S0 resultLen.toNat

def constNex : Const :=
  flipFront (constEqx arg1 arg2 signed1 signed2 resultLen)

/-- Addition, subtraction and multiplication of the integer values. Multiplication caps the
undefined position at zero, but `big2const` only tests its sign. -/
def constArith (op : Int → Int → Int) (arg1 arg2 : Const) (signed1 signed2 : Bool)
    (resultLen : Int) : Const :=
  let (a, undef1) := const2big arg1 signed1 (-1)
  let (b, undef2) := const2big arg2 signed2 undef1
  big2const (op a b) (resultLenOr resultLen (max arg1.length arg2.length)) undef2

def constAdd := constArith (· + ·)

def constSub := constArith (· - ·)

def constMul := constArith (· * ·)

/-- Division and modulo share the undefined result on a zero divisor. -/
def constDivLike (op : Int → Int → Int) (arg1 arg2 : Const) (signed1 signed2 : Bool)
    (resultLen : Int) : Const :=
  let (a, undef1) := const2big arg1 signed1 (-1)
  let (b, undef2) := const2big arg2 signed2 undef1
  if b = 0 then Const.ofState .Sx resultLen.toNat
  else big2const (op a b) (resultLenOr resultLen (max arg1.length arg2.length)) (min undef2 0)

def constDiv := constDivLike (fun a b =>
  let q : Int := a.natAbs / b.natAbs
  if (decide (a < 0)) != (decide (b < 0)) then -q else q)

def constMod := constDivLike (fun a b =>
  let r : Int := a.natAbs % b.natAbs
  if a < 0 then -r else r)

def constDivfloor := constDivLike (fun a b =>
  if (decide (a < 0)) == (decide (b < 0)) ∨ a = 0 then a.natAbs / b.natAbs
  else -((a.natAbs + b.natAbs - 1) / b.natAbs))

/-- The sign of a zero operand is `zero`, which differs from `positive`; the branch below compares
the three-valued signs. -/
def constModfloor := constDivLike (fun a b =>
  let r : Int := a.natAbs % b.natAbs
  let truncated : Int := if a < 0 then -r else r
  if truncated = 0 ∨ a.sign = b.sign then truncated
  else if b < 0 then truncated - b.natAbs else truncated + b.natAbs)

def powLoop (modulus y a b : Nat) : Nat :=
  if b = 0 then y
  else powLoop modulus (if b % 2 = 1 then (y * a) % modulus else y) ((a * a) % modulus) (b / 2)
termination_by b
decreasing_by omega

def constPow : Const :=
  let (a, undef1) := const2big arg1 signed1 (-1)
  let (b, undef2) := const2big arg2 signed2 undef1
  if a = 0 ∧ b < 0 then Const.ofState .Sx resultLen.toNat
  else if a = 0 ∧ b > 0 then Const.ofState .S0 resultLen.toNat
  else
    let y : Int :=
      if b < 0 then
        if a < -1 ∨ a > 1 then 0
        else if a = -1 then if (-b) % 2 = 0 then 1 else -1
        else 1
      else if b > 0 then
        let modulus := 2 ^ resultLenOr resultLen 1024
        let y : Int := powLoop modulus 1 a.natAbs b.toNat
        if a < 0 ∧ b % 2 = 1 then -y else y
      else 1
    big2const y (resultLenOr resultLen (max arg1.length arg2.length)) (min undef2 0)

def constPos : Const :=
  extendU0 arg1 resultLen.toNat signed1

def constNeg : Const :=
  constSub (Const.ofState .S0 1) arg1 true signed1 resultLen

/-- One selection bit of the binary multiplexer, which keeps a half of the table. An undefined
bit keeps the positions where both halves agree. -/
def bmuxHalf (sel : State) (t : Const) : Const :=
  let half := t.length / 2
  match sel with
  | .S0 => t.take half
  | .S1 => t.drop half
  | _ => List.zipWith (fun a b => if a = b then a else .Sx) (t.take half) (t.drop half)

def constBmux : Const := arg2.foldr bmuxHalf arg1

def demuxBlock (arg1 arg2 : Const) (i : Nat) : Const :=
  let ne := arg2.zipIdx.any (fun sel => sel.1 == if i.testBit sel.2 then .S0 else .S1)
  let x := arg2.any (fun sel => !sel.isDef)
  if ne then Const.ofState .S0 arg1.length
  else if x then arg1.map (fun bit => if bit = .S0 then .S0 else .Sx)
  else arg1

def constDemux : Const :=
  (List.range (2 ^ arg2.length)).flatMap (demuxBlock arg1 arg2)

end ManticoreFrontend.Kernel.Calc
