/- source: passes/manticore/manticore_dff.cc (ManticoreDff)
   digest: The pass that replaces flip-flops with enables and resets by plain ones and multiplexers. -/

import ManticoreFrontend.Foundation.Emission
import ManticoreFrontend.Kernel.CellChecker
import ManticoreFrontend.Kernel.FreshNames

namespace ManticoreFrontend.Passes.FlipFlops

open Foundation.Emission Kernel Constants CellTypes Signals CellChecker Netlist

/-- The flip-flops the pass handles; `sdffe` resets over its enable, `sdffce` only when enabled. -/
inductive FfType
  | dff | dffe | sdff | sdffe | sdffce | adff | adffe
  deriving DecidableEq, Repr

def FfType.cellType : FfType → CellType
  | .dff => .dff
  | .dffe => .other "$dffe"
  | .sdff => .other "$sdff"
  | .sdffe => .other "$sdffe"
  | .sdffce => .other "$sdffce"
  | .adff => .other "$adff"
  | .adffe => .other "$adffe"

def ffType? (type : CellType) : Option FfType :=
  [FfType.dff, .dffe, .sdff, .sdffe, .sdffce, .adff, .adffe].find? (·.cellType = type)

variable (cell : Cell)

def isConvertible : Bool :=
  cell.type ∈ [FfType.dffe, .sdff, .sdffe, .sdffce, .adff, .adffe].map (·.cellType)

/-- Cells that make the pass stop, unless they are convertible. -/
def isUnsupported : Bool :=
  cell.type ∈ ["$dffsr", "$dffsre", "$dlatch", "$adlatch", "$dlatchsr", "$adffe", "$aldff",
    "$aldffe"].map CellType.other

def EN_POLARITY : ParamId := .other "EN_POLARITY"
def SRST_POLARITY : ParamId := .other "SRST_POLARITY"
def ARST_POLARITY : ParamId := .other "ARST_POLARITY"

def checkData (params : List ParamId) (ports : List PortId) : Bool :=
  paramBool cell .CLK_POLARITY && port cell .CLK (some 1) && port cell .D (param cell .WIDTH) &&
    port cell .Q (param cell .WIDTH) &&
    checkExpected cell ([.CLK_POLARITY, .WIDTH] ++ params) ([.CLK, .D, .Q] ++ ports)

def checkControl (polarity : ParamId) (control : PortId) : Bool :=
  paramBool cell polarity && port cell control (some 1)

def checkValue (value : ParamId) : Bool := paramBits cell value (param cell .WIDTH)

/-- `InternalCellChecker::check` of a flip-flop. -/
def checkFf : FfType → Bool
  | .dff => checkData cell [] []
  | .dffe => checkData cell [EN_POLARITY] [.EN] && checkControl cell EN_POLARITY .EN
  | .sdff =>
    checkData cell [SRST_POLARITY, .SRST_VALUE] [.SRST] &&
      checkControl cell SRST_POLARITY .SRST && checkValue cell .SRST_VALUE
  | .sdffe | .sdffce =>
    checkData cell [EN_POLARITY, SRST_POLARITY, .SRST_VALUE] [.EN, .SRST] &&
      checkControl cell EN_POLARITY .EN && checkControl cell SRST_POLARITY .SRST &&
      checkValue cell .SRST_VALUE
  | .adff =>
    checkData cell [ARST_POLARITY, .ARST_VALUE] [.ARST] &&
      checkControl cell ARST_POLARITY .ARST && checkValue cell .ARST_VALUE
  | .adffe =>
    checkData cell [EN_POLARITY, ARST_POLARITY, .ARST_VALUE] [.EN, .ARST] &&
      checkControl cell EN_POLARITY .EN && checkControl cell ARST_POLARITY .ARST &&
      checkValue cell .ARST_VALUE

structure Builder where
  index : Nat
  module : Module

abbrev Pass := Build Builder

variable (name : IdString)

def fresh : Pass IdString := do
  let builder ← get
  let (name, index) ← liftM (builder.module.uniquify ("$" ++ name ++ "$") builder.index)
  set { builder with index := index }
  pure name

def addWire (width : Nat) : Pass Wire := do
  let builder ← get
  guard (builder.module.countId name = 0)
  let wire : Wire := { name := name, width := width }
  set { builder with module := { builder.module with wires := builder.module.wires ++ [wire] } }
  pure wire

def addCell : Pass Unit := do
  let builder ← get
  guard (builder.module.countId cell.name = 0)
  set { builder with module := { builder.module with cells := builder.module.cells ++ [cell] } }

def muxCell (sigA sigB sigS sigY : SigSpec) : Cell :=
  { name := name
    type := .mux
    parameters := [(.WIDTH, Const.ofInt sigA.length 32)]
    connections := [(.A, sigA), (.B, sigB), (.S, sigS), (.Y, sigY)] }

def addMux (sigA sigB sigS sigY : SigSpec) : Pass Unit :=
  addCell (muxCell name sigA sigB sigS sigY)

/-- Set a port of the cell with the given name, which stands for its pointer. -/
def setPort (portname : PortId) (signal : SigSpec) : Pass Unit :=
  modify fun builder => { builder with
    module := { builder.module with
      cells := builder.module.cells.map fun cell =>
        if cell.name = name then cell.setPort portname signal else cell } }

def remove : Pass Unit :=
  modify fun builder => { builder with
    module := { builder.module with
      cells := builder.module.cells.filter (·.name ≠ cell.name) } }

def port? (name : PortId) : Pass SigSpec := liftM (cell.getPort name)

def param? (name : ParamId) : Pass Const := liftM (cell.getParam name)

def dffCell (attributes : List (AttrId × Const)) (polarity : Const) (clk d q : SigSpec) : Cell :=
  { name := name
    type := .dff
    parameters := [(.CLK_POLARITY, polarity), (.WIDTH, Const.ofInt q.length 32)]
    connections := [(.CLK, clk), (.D, d), (.Q, q)]
    attributes := attributes }

/-- Add a plain flip-flop with the clock, data, polarity and attributes of the cell. -/
def dffCast : Pass IdString := do
  let name ← fresh "dff_cast"
  let clk ← port? cell .CLK
  let d ← port? cell .D
  let q ← port? cell .Q
  let polarity ← param? cell .CLK_POLARITY
  addCell (dffCell name cell.attributes polarity clk d q)
  pure name

def sDffCast : Pass IdString := do
  let dff ← dffCast cell
  setPort dff .Q (← port? cell .Q)
  pure dff

/-- A multiplexer that shows `sigB` when `sigS` is active. -/
def muxed (sigA sigB sigS : SigSpec) (polarity : Bool) : Pass SigSpec := do
  guard (sigA.length = sigB.length)
  let yWire ← addWire (← fresh "mux_out") sigA.length
  addMux (← fresh "dff_mux") (if polarity then sigA else sigB) (if polarity then sigB else sigA) sigS
    (SigSpec.ofWire yWire)
  pure (SigSpec.ofWire yWire)

def addArstMux (qout arstValue arst q : SigSpec) (polarity : Bool) : Pass Unit := do
  addMux (← fresh "arst_mux") (if polarity then qout else arstValue)
    (if polarity then arstValue else qout) arst q

def convertDffe : Pass IdString := do
  let dff ← sDffCast cell
  let enPol ← param? cell EN_POLARITY
  let qSig ← port? cell .Q
  let dSig ← port? cell .D
  let din ← muxed qSig dSig (← port? cell .EN) enPol.asBool
  setPort dff .D din
  remove cell
  pure dff

def convertSdff : Pass IdString := do
  let dff ← sDffCast cell
  let srstPol ← param? cell SRST_POLARITY
  let srstValue ← param? cell .SRST_VALUE
  let dSig ← port? cell .D
  let din ← muxed dSig (SigSpec.ofConst srstValue) (← port? cell .SRST) srstPol.asBool
  setPort dff .D din
  remove cell
  pure dff

def convertSdffe : Pass IdString := do
  let dff ← sDffCast cell
  let srstPol ← param? cell SRST_POLARITY
  let enPol ← param? cell EN_POLARITY
  let qSig ← port? cell .Q
  let dSig ← port? cell .D
  let srstValue ← param? cell .SRST_VALUE
  let held ← muxed qSig dSig (← port? cell .EN) enPol.asBool
  let din ← muxed held (SigSpec.ofConst srstValue) (← port? cell .SRST) srstPol.asBool
  setPort dff .D din
  remove cell
  pure dff

def convertSdffce : Pass IdString := do
  let dff ← sDffCast cell
  let srstPol ← param? cell SRST_POLARITY
  let enPol ← param? cell EN_POLARITY
  let qSig ← port? cell .Q
  let dSig ← port? cell .D
  let srstValue ← param? cell .SRST_VALUE
  let loaded ← muxed dSig (SigSpec.ofConst srstValue) (← port? cell .SRST) srstPol.asBool
  let din ← muxed qSig loaded (← port? cell .EN) enPol.asBool
  setPort dff .D din
  remove cell
  pure dff

/-- The reset is put before the data input and behind the output. -/
def convertAdff : Pass IdString := do
  let dff ← dffCast cell
  let arstPol ← param? cell ARST_POLARITY
  let arstValue ← param? cell .ARST_VALUE
  let qSig ← port? cell .Q
  let dSig ← port? cell .D
  let arst ← port? cell .ARST
  let din ← muxed dSig (SigSpec.ofConst arstValue) arst arstPol.asBool
  setPort dff .D din
  let qout ← addWire (← fresh "qout") qSig.length
  setPort dff .Q (SigSpec.ofWire qout)
  addArstMux (SigSpec.ofWire qout) (SigSpec.ofConst arstValue) arst qSig arstPol.asBool
  remove cell
  pure dff

/-- The reset has priority over the enable; the data held is the output behind the reset. -/
def convertAdffe : Pass IdString := do
  let dff ← dffCast cell
  let arstPol ← param? cell ARST_POLARITY
  let enPol ← param? cell EN_POLARITY
  let arstValue ← param? cell .ARST_VALUE
  let qSig ← port? cell .Q
  let dSig ← port? cell .D
  let arst ← port? cell .ARST
  let held ← muxed qSig dSig (← port? cell .EN) enPol.asBool
  let din ← muxed held (SigSpec.ofConst arstValue) arst arstPol.asBool
  setPort dff .D din
  let qout ← addWire (← fresh "qout") qSig.length
  setPort dff .Q (SigSpec.ofWire qout)
  addArstMux (SigSpec.ofWire qout) (SigSpec.ofConst arstValue) arst qSig arstPol.asBool
  remove cell
  pure dff

/-- Replace one cell; returns the name of its plain flip-flop. -/
def convert : Pass IdString :=
  match ffType? cell.type with
  | some .dffe => convertDffe cell
  | some .sdff => convertSdff cell
  | some .sdffe => convertSdffe cell
  | some .sdffce => convertSdffce cell
  | some .adff => convertAdff cell
  | some .adffe => convertAdffe cell
  | _ => failure

def convertibles (mod : Module) : List Cell := mod.cells.filter isConvertible

/-- The pass on one module: its new contents and, in the order of the cells they replace, the names of
the plain flip-flops. -/
def transform (mod : Module) : Option (List IdString × Module) := do
  guard (∀ cell ∈ mod.cells, isConvertible cell = false → isUnsupported cell = false)
  let (dffs, builder) ← (convertibles mod).mapM convert { index := 0, module := mod }
  some (dffs, builder.module)

end ManticoreFrontend.Passes.FlipFlops
