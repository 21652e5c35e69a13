/- source: kernel/celltypes.h, kernel/calc.cc ($not, $reduce_or, $ne, $mux), kernel/rtlil.cc
   digest: The values of wires at an instant, and signals that are built from new cells. -/

import ManticoreFrontend.Kernel.DefinedValues
import ManticoreFrontend.Kernel.Signals

namespace ManticoreFrontend.Kernel.Nets

open Constants Calc DefinedValues Signals

/-- The states of all wires at one instant. -/
abbrev Reading := (w : Wire) → Fin w.width → State

namespace Reading

def bit (r : Reading) : SigBit → State
  | .wire w offset => r w offset
  | .const data => data

def sig (r : Reading) (sig : SigSpec) : Const := sig.map r.bit

@[simp] theorem sig_length (r : Reading) (sig : SigSpec) : (r.sig sig).length = sig.length :=
  List.length_map ..

@[simp] theorem sig_ofConst (r : Reading) (c : Const) : r.sig (SigSpec.ofConst c) = c := by
  rw [sig, SigSpec.ofConst, List.map_map]
  exact List.map_id _

theorem sig_append (r : Reading) (a b : SigSpec) : r.sig (a ++ b) = r.sig a ++ r.sig b :=
  List.map_append ..

end Reading

/-- `CellTypes::eval` for `$mux`: the last selected part of `b`. -/
def muxValue (a b s : Const) : Const :=
  (List.range s.length).foldl (fun ret i =>
    if s[i]? = some .S1 then (b.drop (i * a.length)).take a.length else ret) a

/-- A signal that may read the outputs of new cells. A cell stands in the place of the wire that
was added for its output. -/
inductive Net
  | sig (sig : SigSpec)
  | append (a b : Net)
  | not (a : Net) (width : Nat)
  | reduceOr (a : Net)
  | ne (a b : Net)
  | mux (a b s : Net)
  deriving DecidableEq

namespace Net

def value (r : Reading) : Net → Const
  | sig s => r.sig s
  | append a b => a.value r ++ b.value r
  | not a width => constNot (a.value r) false width
  | reduceOr a => constReduceOr (a.value r) 1
  | ne a b => constNe (a.value r) (b.value r) false false 1
  | mux a b s => muxValue (a.value r) (b.value r) (s.value r)

end Net

theorem exists_bools {c : Const} (defined : ∀ s ∈ c, s.isDef = true) :
    ∃ l : List Bool, c = l.map State.ofBool := by
  induction c with
  | nil => exact ⟨[], rfl⟩
  | cons s c ih =>
    obtain ⟨l, rfl⟩ := ih (fun s hs => defined s (by simp [hs]))
    have here := defined s (by simp)
    cases s with
    | S0 => exact ⟨false :: l, rfl⟩
    | S1 => exact ⟨true :: l, rfl⟩
    | Sx | Sz | Sa | Sm => cases here

theorem muxValue_bit {a b : Const} (length : a.length = b.length) (s : Bool) :
    muxValue a b [State.ofBool s] = if s then b else a := by
  cases s with
  | false => rfl
  | true => simp [muxValue, State.ofBool, length]

theorem constReduceOr_bools (l : List Bool) :
    constReduceOr (l.map State.ofBool) 1 = [State.ofBool (l.any id)] := by
  rw [constReduceOr, logicReduceWrapper, show State.S0 = State.ofBool false from rfl,
    reduce_defined (f := or) (by decide), foldl_or, Bool.false_or]
  rfl

theorem constNot_bit (b : Bool) :
    constNot [State.ofBool b] false (1 : Nat) = [State.ofBool (!b)] := by
  cases b <;> rfl

theorem constNot_same (c : Const) : constNot c false c.length = c.map invertBit := by
  simp [constNot, extendU0]

theorem constEq_bools {l m : List Bool} (length : l.length = m.length) :
    constEq (l.map State.ofBool) (m.map State.ofBool) false false 1 =
      [State.ofBool (l == m)] := by
  have cut : ∀ n : List Bool, n.length = m.length →
      extendU0 (n.map State.ofBool) m.length false = n.map State.ofBool := by
    intro n same
    simp [extendU0, ← same]
  rw [constEq]
  simp only [List.length_map, length, max_self, Bool.and_self]
  rw [cut l length, cut m rfl, matchedStatus_defined l m length]
  by_cases same : l = m
  · simp [same, Const.ofState, State.ofBool]
  · simp [same, Const.ofState, State.ofBool]

theorem constNe_bools {l m : List Bool} (length : l.length = m.length) :
    constNe (l.map State.ofBool) (m.map State.ofBool) false false 1 =
      [State.ofBool (l != m)] := by
  rw [constNe, constEq_bools length]
  by_cases same : l = m
  · simp [same, flipFront, State.ofBool]
  · simp [same, flipFront, State.ofBool]

end ManticoreFrontend.Kernel.Nets
