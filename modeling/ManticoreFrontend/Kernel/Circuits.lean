/- source: kernel/rtlil.cc (SigSpec::extend_u0), kernel/celltypes.h (CellTypes::eval)
   digest: Signals extended to a width, and small circuits of operator cells with their values. -/

import ManticoreFrontend.Kernel.Nets

namespace ManticoreFrontend.Kernel.Circuits

open Constants Calc CellTypes Nets Signals

/-- `SigSpec::extend_u0`. A signed signal without bits is padded with undefined bits. -/
def extendSig (sig : SigSpec) (width : Nat) (isSigned : Bool) : SigSpec :=
  let padding := if isSigned then sig.getLast?.getD (.const .Sx) else .const .S0
  (sig ++ List.replicate (width - sig.length) padding).take width

/-- The values `extend_u0` gives; `extendU0` of a constant differs on a signed one without bits. -/
def extendStates (c : Const) (width : Nat) (isSigned : Bool) : Const :=
  let padding := if isSigned then c.getLast?.getD .Sx else .S0
  (c ++ List.replicate (width - c.length) padding).take width

theorem sig_extendSig (r : Reading) (sig : SigSpec) (width : Nat) (isSigned : Bool) :
    r.sig (extendSig sig width isSigned) = extendStates (r.sig sig) width isSigned := by
  have padding : r.bit (if isSigned then sig.getLast?.getD (.const .Sx) else .const .S0) =
      if isSigned then (r.sig sig).getLast?.getD .Sx else .S0 := by
    cases isSigned with
    | false => rfl
    | true =>
      rw [Reading.sig, List.getLast?_map]
      cases sig.getLast? <;> rfl
  simp [extendSig, extendStates, Reading.sig, padding]

theorem extendStates_eq {c : Const} {width : Nat} {isSigned : Bool}
    (bits : c ≠ [] ∨ isSigned = false) : extendStates c width isSigned = extendU0 c width isSigned := by
  unfold extendStates extendU0
  obtain bits | rfl := bits
  · rw [List.getLast?_eq_some_getLast bits]
    rfl
  · rfl

/-- A signal computed by new operator cells. A cell stands in the place of the wire that was
added for its output, with the width of that wire. -/
inductive Circuit
  | sig (sig : SigSpec)
  | append (low high : Circuit)
  | cell (type : CellType) (signedA signedB : Bool) (a b : Circuit) (width : Nat)

namespace Circuit

/-- The value of a circuit; `none` stands for a cell type without an evaluator. -/
def value (r : Reading) : Circuit → Option Const
  | sig s => some (r.sig s)
  | append low high => do
    let l ← low.value r
    let h ← high.value r
    return l ++ h
  | cell type signedA signedB a b width => do
    let x ← a.value r
    let y ← b.value r
    eval type x y signedA signedB width

def unary (type : CellType) (signedA : Bool) (a : Circuit) (width : Nat) : Circuit :=
  cell type signedA false a (sig []) width

variable {r : Reading}

section

variable {a b : Circuit} {x y : Const} (valueA : a.value r = some x) (valueB : b.value r = some y)

include valueA valueB

theorem value_cell (type : CellType) (signedA signedB : Bool) (width : Nat) :
    (cell type signedA signedB a b width).value r = eval type x y signedA signedB width := by
  rw [value, valueA, valueB]
  rfl

theorem value_append : (append a b).value r = some (x ++ y) := by
  rw [value, valueA, valueB]
  rfl

end

theorem value_unary {a : Circuit} {x : Const} (valueA : a.value r = some x)
    (type : CellType) (signedA : Bool) (width : Nat) :
    (unary type signedA a width).value r = eval type x [] signedA false width :=
  value_cell valueA rfl type signedA false width

end Circuit

end ManticoreFrontend.Kernel.Circuits
