/- source: kernel/rtlil.cc (InternalCellChecker), kernel/celltypes.h (CellTypes::eval of a cell)
   digest: The consistency check of internal cells, and the evaluation of a cell from its parameters. -/

import ManticoreFrontend.Kernel.DefinedValues
import ManticoreFrontend.Kernel.Signals

namespace ManticoreFrontend.Kernel.CellChecker

open Constants CellTypes DefinedValues Signals

variable (cell : Cell)

def param (name : ParamId) : Option Int := (cell.getParam name).map Const.asInt

/-- `param_bool`: at most 32 bits, and zero or one. -/
def paramBool (name : ParamId) : Bool :=
  match cell.getParam name with
  | some c => decide (c.length ≤ 32) && (c.asInt == 0 || c.asInt == 1)
  | none => false

def port (name : PortId) (width : Option Int) : Bool :=
  match cell.getPort name, width with
  | some sig, some w => (sig.length : Int) == w
  | _, _ => false

def paramBits (name : ParamId) (width : Option Int) : Bool :=
  match cell.getParam name, width with
  | some c, some w => (c.length : Int) == w
  | _, _ => false

/-- `check_expected`: no other parameters and no other ports. -/
def checkExpected (params : List ParamId) (ports : List PortId) : Bool :=
  cell.parameters.all (fun e => decide (e.1 ∈ params)) &&
    cell.connections.all (fun e => decide (e.1 ∈ ports))

/-- The sign agreement that `check_expected(true)` adds. -/
def matchedSign : Bool :=
  (cell.getParam .A_SIGNED).map Const.asBool == (cell.getParam .B_SIGNED).map Const.asBool

def checkUnary : Bool :=
  paramBool cell .A_SIGNED && port cell .A (param cell .A_WIDTH) &&
    port cell .Y (param cell .Y_WIDTH) && checkExpected cell [.A_SIGNED, .A_WIDTH, .Y_WIDTH] [.A, .Y]

def checkBinary : Bool :=
  paramBool cell .A_SIGNED && paramBool cell .B_SIGNED && port cell .A (param cell .A_WIDTH) &&
    port cell .B (param cell .B_WIDTH) && port cell .Y (param cell .Y_WIDTH) &&
    checkExpected cell [.A_SIGNED, .B_SIGNED, .A_WIDTH, .B_WIDTH, .Y_WIDTH] [.A, .B, .Y]

def checkMemrdV2 : Bool :=
  (param cell .MEMID).isSome && paramBool cell .CLK_ENABLE && paramBool cell .CLK_POLARITY &&
    (param cell .TRANSPARENCY_MASK).isSome && (param cell .COLLISION_X_MASK).isSome &&
    paramBool cell .CE_OVER_SRST && paramBits cell .ARST_VALUE (param cell .WIDTH) &&
    paramBits cell .SRST_VALUE (param cell .WIDTH) && paramBits cell .INIT_VALUE (param cell .WIDTH) &&
    port cell .CLK (some 1) && port cell .EN (some 1) && port cell .ARST (some 1) &&
    port cell .SRST (some 1) && port cell .ADDR (param cell .ABITS) &&
    port cell .DATA (param cell .WIDTH) &&
    checkExpected cell [.MEMID, .CLK_ENABLE, .CLK_POLARITY, .TRANSPARENCY_MASK, .COLLISION_X_MASK,
      .CE_OVER_SRST, .ARST_VALUE, .SRST_VALUE, .INIT_VALUE, .WIDTH, .ABITS]
      [.CLK, .EN, .ARST, .SRST, .ADDR, .DATA]

def checkMemwrV2 : Bool :=
  (param cell .MEMID).isSome && paramBool cell .CLK_ENABLE && paramBool cell .CLK_POLARITY &&
    (param cell .PORTID).isSome && (param cell .PRIORITY_MASK).isSome && port cell .CLK (some 1) &&
    port cell .EN (param cell .WIDTH) && port cell .ADDR (param cell .ABITS) &&
    port cell .DATA (param cell .WIDTH) &&
    checkExpected cell [.MEMID, .CLK_ENABLE, .CLK_POLARITY, .PORTID, .PRIORITY_MASK, .WIDTH, .ABITS]
      [.CLK, .EN, .ADDR, .DATA]

/-- `InternalCellChecker::check` for the operator, multiplexer and memory port cells; it runs after
every pass. Types without an entry here are not looked at. -/
def check : Bool :=
  match cell.type with
  | .not | .pos | .neg | .reduceAnd | .reduceOr | .reduceXor | .reduceXnor | .reduceBool
  | .logicNot => checkUnary cell
  | .and | .or | .xor | .xnor | .lt | .le | .eq | .ne | .eqx | .nex | .ge | .gt
  | .add | .sub | .mul | .div | .mod | .divfloor | .modfloor =>
    checkBinary cell && matchedSign cell
  | .pow | .shift | .logicAnd | .logicOr => checkBinary cell
  | .shiftx => checkBinary cell && param cell .A_SIGNED == some 0
  | .shl | .shr | .sshl | .sshr => checkBinary cell && param cell .B_SIGNED == some 0
  | .mux =>
    port cell .A (param cell .WIDTH) && port cell .B (param cell .WIDTH) &&
      port cell .S (some 1) && port cell .Y (param cell .WIDTH) &&
      checkExpected cell [.WIDTH] [.A, .B, .S, .Y]
  | .pmux =>
    port cell .A (param cell .WIDTH) &&
      port cell .B ((param cell .WIDTH).bind fun w => (param cell .S_WIDTH).map (w * ·)) &&
      port cell .S (param cell .S_WIDTH) && port cell .Y (param cell .WIDTH) &&
      checkExpected cell [.WIDTH, .S_WIDTH] [.A, .B, .S, .Y]
  | .memrdV2 => checkMemrdV2 cell
  | .memwrV2 => checkMemwrV2 cell
  | _ => true

/-- A parameter that is absent reads as false. -/
def signedParam (name : ParamId) : Bool := ((cell.getParam name).map Const.asBool).getD false

def evalCell (arg1 arg2 : Const) : Option Const :=
  eval cell.type arg1 arg2 (signedParam cell .A_SIGNED) (signedParam cell .B_SIGNED)
    ((param cell .Y_WIDTH).getD (-1))

structure PortWidth (name : PortId) (width : ParamId) (sig : SigSpec) : Prop where
  connected : cell.getPort name = some sig
  param : ∃ c, cell.getParam width = some c ∧ c.asInt = sig.length

variable {cell : Cell} {name : PortId}

theorem port_eq_true {width : ParamId} (h : port cell name (param cell width) = true) :
    ∃ sig, PortWidth cell name width sig := by
  unfold port param at h
  cases connected : cell.getPort name with
  | none => simp [connected] at h
  | some sig =>
    cases value : cell.getParam width with
    | none => simp [value] at h
    | some c =>
      simp only [connected, value, Option.map_some, beq_iff_eq] at h
      exact ⟨sig, connected, c, value, h.symm⟩

theorem PortWidth.lt_int {width : ParamId} {sig : SigSpec} (h : PortWidth cell name width sig) :
    sig.length < 2 ^ 31 := by
  obtain ⟨c, -, value⟩ := h.param
  have := Const.asInt_lt c
  omega

theorem paramBool_eq_true {name : ParamId} (h : paramBool cell name = true) :
    ∃ c, cell.getParam name = some c := by
  unfold paramBool at h
  cases value : cell.getParam name with
  | none => simp [value] at h
  | some c => exact ⟨c, rfl⟩

theorem port_one (h : port cell name (some 1) = true) : ∃ b, cell.getPort name = some [b] := by
  unfold port at h
  cases connected : cell.getPort name with
  | none => simp [connected] at h
  | some sig =>
    simp only [connected, beq_iff_eq, Nat.cast_eq_one, List.length_eq_one_iff] at h
    obtain ⟨b, rfl⟩ := h
    exact ⟨b, rfl⟩

theorem paramBits_eq_true {name : ParamId} {w : Int} (h : paramBits cell name (some w) = true) :
    ∃ c, cell.getParam name = some c ∧ c.length = w := by
  unfold paramBits at h
  cases value : cell.getParam name with
  | none => simp [value] at h
  | some c => exact ⟨c, rfl, by simpa [value] using h⟩

/-- What the check guarantees of a unary operator. -/
structure UnaryShape (cell : Cell) (a y : SigSpec) : Prop where
  portA : PortWidth cell .A .A_WIDTH a
  portY : PortWidth cell .Y .Y_WIDTH y
  signed : ∃ c, cell.getParam .A_SIGNED = some c

theorem checkUnary_shape (h : checkUnary cell = true) : ∃ a y, UnaryShape cell a y := by
  simp only [checkUnary, Bool.and_eq_true] at h
  obtain ⟨⟨⟨hs, ha⟩, hy⟩, -⟩ := h
  obtain ⟨a, portA⟩ := port_eq_true ha
  obtain ⟨y, portY⟩ := port_eq_true hy
  exact ⟨a, y, portA, portY, paramBool_eq_true hs⟩

/-- What the check guarantees of a binary operator. -/
structure BinaryShape (cell : Cell) (a b y : SigSpec) : Prop where
  portA : PortWidth cell .A .A_WIDTH a
  portB : PortWidth cell .B .B_WIDTH b
  portY : PortWidth cell .Y .Y_WIDTH y
  signedA : ∃ c, cell.getParam .A_SIGNED = some c
  signedB : ∃ c, cell.getParam .B_SIGNED = some c

theorem checkBinary_shape (h : checkBinary cell = true) : ∃ a b y, BinaryShape cell a b y := by
  simp only [checkBinary, Bool.and_eq_true] at h
  obtain ⟨⟨⟨⟨⟨hs, ht⟩, ha⟩, hb⟩, hy⟩, -⟩ := h
  obtain ⟨a, portA⟩ := port_eq_true ha
  obtain ⟨b, portB⟩ := port_eq_true hb
  obtain ⟨y, portY⟩ := port_eq_true hy
  exact ⟨a, b, y, portA, portB, portY, paramBool_eq_true hs, paramBool_eq_true ht⟩

theorem evalCell_defined {y : SigSpec} {wa wb : Nat} {a : BitVec wa} {b : BitVec wb}
    {r : BitVec y.length} (portY : PortWidth cell .Y .Y_WIDTH y) (operand : 0 < wa)
    (positive : 0 < y.length)
    (entry : opBits cell.type (signedParam cell .A_SIGNED) (signedParam cell .B_SIGNED) a b y.length =
      some r) :
    evalCell cell (toConst a) (toConst b) = some (toConst r) := by
  obtain ⟨c, value, width⟩ := portY.param
  have len : (param cell .Y_WIDTH).getD (-1) = (y.length : Int) := by
    simp [param, value, width]
  rw [evalCell, len]
  exact eval_defined operand positive entry

end ManticoreFrontend.Kernel.CellChecker
