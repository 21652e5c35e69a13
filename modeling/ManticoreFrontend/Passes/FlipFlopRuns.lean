/- source: passes/manticore/manticore_dff.cc (ManticoreDff::transform), techlibs/common/simlib.v
   digest: A module and its conversion to plain flip-flops have the same clocked runs. -/

import ManticoreFrontend.Foundation.Conservative
import ManticoreFrontend.Passes.FlipFlopBuild

namespace ManticoreFrontend.Passes.FlipFlopRuns

open Foundation.Conservative Kernel Constants CellTypes Signals CellChecker Netlist FlipFlops
open FlipFlopBuild List

/-- The values of all wires in every clock cycle. -/
abbrev Trace := (w : Wire) → Nat → BitVec w.width

def Trace.cycle (σ : Trace) (t : Nat) : Valuation := fun w => σ w t

def sigBits (v : Valuation) (sig : SigSpec) : List Bool := sig.map (bitVal v)

variable (cell : Cell) (v : Valuation)

def portBits (name : PortId) : List Bool :=
  sigBits v ((cell.getPort name).getD [])

def polarityOf (cell : Cell) (name : ParamId) : Bool := ((cell.getParam name).getD []).asBool

def isActive (polarity : ParamId) (control : PortId) : Bool :=
  portBits cell v control == [polarityOf cell polarity]

def resetBits (value : ParamId) : List Bool :=
  sigBits v (SigSpec.ofConst ((cell.getParam value).getD []))

/-- What a flip-flop stores at the clock edge that ends a cycle. -/
def nextState : FfType → List Bool
  | .dff => portBits cell v .D
  | .dffe => if isActive cell v EN_POLARITY .EN then portBits cell v .D else portBits cell v .Q
  | .sdff =>
    if isActive cell v SRST_POLARITY .SRST then resetBits cell v .SRST_VALUE
    else portBits cell v .D
  | .sdffe =>
    if isActive cell v SRST_POLARITY .SRST then resetBits cell v .SRST_VALUE
    else if isActive cell v EN_POLARITY .EN then portBits cell v .D
    else portBits cell v .Q
  | .sdffce =>
    if isActive cell v EN_POLARITY .EN then
      if isActive cell v SRST_POLARITY .SRST then resetBits cell v .SRST_VALUE
      else portBits cell v .D
    else portBits cell v .Q
  | .adff =>
    if isActive cell v ARST_POLARITY .ARST then resetBits cell v .ARST_VALUE
    else portBits cell v .D
  | .adffe =>
    if isActive cell v ARST_POLARITY .ARST then resetBits cell v .ARST_VALUE
    else if isActive cell v EN_POLARITY .EN then portBits cell v .D
    else portBits cell v .Q

/-- What a flip-flop shows during a cycle; an asynchronous reset is a level. -/
def outputBits (stored : List Bool) : FfType → List Bool
  | .adff | .adffe =>
    if isActive cell v ARST_POLARITY .ARST then resetBits cell v .ARST_VALUE else stored
  | _ => stored

def startBits (start : Nat → Bool) (width : Nat) : List Bool :=
  List.ofFn fun i : Fin width => start i

def FfRuns (cell : Cell) (type : FfType) (start : Nat → Bool) (σ : Trace) : Prop :=
  ∃ stored : Nat → List Bool,
    stored 0 = startBits start ((cell.getPort .Q).getD []).length ∧
      ∀ t, portBits cell (σ.cycle t) .Q = outputBits cell (σ.cycle t) (stored t) type ∧
        stored (t + 1) = nextState cell (σ.cycle t) type

def MuxRuns (cell : Cell) (σ : Trace) : Prop :=
  ∀ t, portBits cell (σ.cycle t) .Y =
    if portBits cell (σ.cycle t) .S = [true] then portBits cell (σ.cycle t) .B
    else portBits cell (σ.cycle t) .A

/-- The cells of other types relate the values of their ports over time in any fixed way. -/
abbrev OtherCells := Cell → (Nat → PortId → List Bool) → Prop

variable (other : OtherCells) (start : IdString → Nat → Bool)

/-- A cell behaves along a trace. Flip-flops start with the values stored under their names. -/
def CellRuns (cell : Cell) (σ : Trace) : Prop :=
  match ffType? cell.type with
  | some type => FfRuns cell type (start cell.name) σ
  | none =>
    if cell.type = .mux then MuxRuns cell σ
    else other cell fun t name => portBits cell (σ.cycle t) name

def Runs (mod : Module) (σ : Trace) : Prop :=
  (∀ t, mod.Connected (σ.cycle t)) ∧ ∀ cell ∈ mod.cells, CellRuns other start cell σ

variable {names : Wire → Prop} {σ τ : Trace}

def Inside (names : Wire → Prop) (sig : SigSpec) : Prop := ∀ w i, SigBit.wire w i ∈ sig → names w

theorem sigBits_congr {sig : SigSpec} (inside : Inside names sig) (agree : AgreeOn names σ τ)
    (t : Nat) : sigBits (σ.cycle t) sig = sigBits (τ.cycle t) sig := by
  apply map_congr_left
  intro b member
  cases b with
  | const s => rfl
  | wire w i => simp only [bitVal, Trace.cycle, agree w (inside w i member)]

def CellInside (names : Wire → Prop) (cell : Cell) : Prop :=
  ∀ name sig, cell.getPort name = some sig → Inside names sig

theorem portBits_congr {cell : Cell} (inside : CellInside names cell) (agree : AgreeOn names σ τ)
    (t : Nat) (name : PortId) :
    portBits cell (σ.cycle t) name = portBits cell (τ.cycle t) name := by
  rw [portBits, portBits]
  cases found : cell.getPort name with
  | none => rfl
  | some sig => exact sigBits_congr (inside name sig found) agree t

theorem resetBits_eq (cell : Cell) (v v' : Valuation) (value : ParamId) :
    resetBits cell v value = resetBits cell v' value := by
  simp [resetBits, sigBits, SigSpec.ofConst, bitVal]

section

variable {cell : Cell} (inside : CellInside names cell) (agree : AgreeOn names σ τ) (t : Nat)

include inside agree

theorem isActive_congr (polarity : ParamId) (control : PortId) :
    isActive cell (σ.cycle t) polarity control = isActive cell (τ.cycle t) polarity control := by
  rw [isActive, isActive, portBits_congr inside agree]

theorem nextState_congr (type : FfType) :
    nextState cell (σ.cycle t) type = nextState cell (τ.cycle t) type := by
  cases type <;>
    simp only [nextState, portBits_congr inside agree, isActive_congr inside agree,
      resetBits_eq cell (σ.cycle t) (τ.cycle t)]

theorem outputBits_congr (stored : List Bool) (type : FfType) :
    outputBits cell (σ.cycle t) stored type = outputBits cell (τ.cycle t) stored type := by
  cases type <;>
    simp only [outputBits, isActive_congr inside agree, resetBits_eq cell (σ.cycle t) (τ.cycle t)]

end

theorem cellRuns_local {cell : Cell} (inside : CellInside names cell) (other : OtherCells)
    (start : IdString → Nat → Bool) : Local names (CellRuns other start cell) := by
  intro σ τ agree
  have ports := portBits_congr inside agree
  rw [CellRuns, CellRuns]
  cases ffType? cell.type with
  | some type =>
    simp only [FfRuns, ports, nextState_congr inside agree, outputBits_congr inside agree]
  | none =>
    simp only [MuxRuns, ports]

structure Closed (mod : Module) : Prop where
  cells : ∀ cell ∈ mod.cells, CellInside (· ∈ mod.wires) cell
  connections : ∀ c ∈ mod.connections, ∀ p ∈ c.pairs, Inside (· ∈ mod.wires) [p.1, p.2]

theorem connected_local {mod : Module} (closed : Closed mod) :
    Local (· ∈ mod.wires) (fun σ : Trace => ∀ t, mod.Connected (σ.cycle t)) := by
  intro σ τ agree
  refine forall_congr' fun t => forall₂_congr fun c member => forall₂_congr fun p pair => ?_
  have bits := sigBits_congr (closed.connections c member p pair) agree t
  simp only [sigBits, map_cons, map_nil, cons.injEq, and_true] at bits
  rw [bits.1, bits.2]

variable {old : Wire → Prop} {P : Trace → Prop}

theorem sigBits_length (v : Valuation) (sig : SigSpec) : (sigBits v sig).length = sig.length := by
  simp [sigBits]

theorem sigBits_ofWire_iff (v : Valuation) (y : Wire) {bits : List Bool}
    (width : bits.length = y.width) :
    sigBits v (SigSpec.ofWire y) = bits ↔ v y = (BitVec.ofBoolListLE bits).setWidth y.width := by
  have entry : ∀ i, (inside : i < y.width) →
      (sigBits v (SigSpec.ofWire y))[i]? = some ((v y).getLsbD i) := by
    intro i inside
    simp [sigBits, SigSpec.ofWire, bitVal, inside]
  constructor
  · rintro rfl
    apply BitVec.eq_of_getLsbD_eq
    intro i inside
    have := entry i inside
    simp [inside, this]
  · intro same
    apply ext_getElem?
    intro i
    by_cases inside : i < y.width
    · have bound : i < bits.length := by omega
      have bit : (BitVec.ofBoolListLE bits).getLsbD i = bits[i] := by
        simp [getElem?_eq_getElem bound]
      rw [entry i inside, same, getElem?_eq_getElem bound, BitVec.getLsbD_setWidth, bit]
      simp [inside]
    · rw [getElem?_eq_none (by simp [sigBits_length]; omega), getElem?_eq_none (by omega)]

theorem define_wire (y : Wire) (bits : Trace → Nat → List Bool)
    (width : ∀ σ t, (bits σ t).length = y.width) (fresh : ¬ old y) (local_ : Local old P)
    (reads : ∀ σ τ, AgreeOn old σ τ → bits σ = bits τ) :
    Extension old (fun w => old w ∨ w = y) P
      (fun τ : Trace => P τ ∧ ∀ t, sigBits (τ.cycle t) (SigSpec.ofWire y) = bits τ t) := by
  refine (Extension.define y (fun σ t => (BitVec.ofBoolListLE (bits σ t)).setWidth y.width) fresh
    local_ ?_).congr (fun _ => Iff.rfl) ?_
  · intro σ τ agree
    rw [reads σ τ agree]
  · intro τ
    refine and_congr_right fun _ => ?_
    rw [funext_iff]
    exact forall_congr' fun t => sigBits_ofWire_iff (Trace.cycle τ t) y (width τ t)

/-- The bits a multiplexer of `muxed` shows. -/
def choice (a b : SigSpec) (s : SigBit) (polarity : Bool) (σ : Trace) (t : Nat) : List Bool :=
  if sigBits (σ.cycle t) [s] = [polarity] then sigBits (σ.cycle t) b else sigBits (σ.cycle t) a

theorem polarityMux_runs (name : IdString)
    (a b : SigSpec) (s : SigBit) (y : SigSpec) (polarity : Bool) (σ : Trace) :
    CellRuns other start (polarityMux name a b [s] y polarity) σ ↔
      ∀ t, sigBits (σ.cycle t) y = choice a b s polarity σ t := by
  refine forall_congr' fun t => ?_
  change sigBits (σ.cycle t) y = (if sigBits (σ.cycle t) [s] = [true] then
      sigBits (σ.cycle t) (if polarity then b else a)
    else sigBits (σ.cycle t) (if polarity then a else b)) ↔ _
  cases polarity <;> cases bit : bitVal (σ.cycle t) s <;> simp [choice, sigBits, bit]

variable {s : SigBit}

theorem define_mux {a b : SigSpec} (y : Wire) (polarity : Bool)
    (widthA : a.length = y.width) (widthB : b.length = y.width) (fresh : ¬ old y)
    (local_ : Local old P) (insideA : Inside old a) (insideB : Inside old b) (insideS : Inside old [s]) :
    Extension old (fun w => old w ∨ w = y) P
      (fun τ : Trace => P τ ∧ ∀ t, sigBits (τ.cycle t) (SigSpec.ofWire y) = choice a b s polarity τ t) := by
  apply define_wire y _ _ fresh local_
  · intro σ τ agree
    funext t
    simp only [choice, sigBits_congr insideA agree, sigBits_congr insideB agree,
      sigBits_congr insideS agree]
  · intro σ t
    rw [choice]
    split
    · rw [sigBits_length, widthB]
    · rw [sigBits_length, widthA]

variable {cell : Cell} {clk d q : SigSpec} {polarity : Const} {σ : Trace} {start : Nat → Bool}

def DffRuns (d q : SigSpec) (start : Nat → Bool) (σ : Trace) : Prop :=
  sigBits (σ.cycle 0) q = startBits start q.length ∧
    ∀ t, sigBits (σ.cycle (t + 1)) q = sigBits (σ.cycle t) d

theorem dffCell_runs (other : OtherCells) (start : IdString → Nat → Bool) (name : IdString)
    (attributes : List (AttrId × Const)) (polarity : Const) (clk d q : SigSpec) (σ : Trace) :
    CellRuns other start (dffCell name attributes polarity clk d q) σ ↔
      DffRuns d q (start name) σ := by
  change (∃ stored : Nat → List Bool, stored 0 = startBits (start name) q.length ∧
    ∀ t, sigBits (σ.cycle t) q = stored t ∧ stored (t + 1) = sigBits (σ.cycle t) d) ↔ _
  constructor
  · rintro ⟨stored, first, steps⟩
    refine ⟨by rw [(steps 0).1, first], fun t => ?_⟩
    rw [(steps (t + 1)).1, (steps t).2]
  · intro ⟨first, steps⟩
    exact ⟨fun t => sigBits (σ.cycle t) q, first, fun t => ⟨rfl, steps t⟩⟩

theorem portBits_eq {name : PortId} {sig : SigSpec} (found : cell.getPort name = some sig)
    (v : Valuation) : portBits cell v name = sigBits v sig := by
  rw [portBits, found, Option.getD_some]

section

variable {type : FfType} {din : SigSpec} (data : DataShape cell clk d q polarity)
  (next : ∀ t, sigBits (σ.cycle t) din = nextState cell (σ.cycle t) type)

include data next

theorem sync_iff (sync : ∀ v stored, outputBits cell v stored type = stored) :
    FfRuns cell type start σ ↔ DffRuns din q start σ := by
  constructor
  · rintro ⟨stored, first, steps⟩
    rw [data.portQ, Option.getD_some] at first
    have shown : ∀ t, sigBits (σ.cycle t) q = stored t := by
      intro t
      rw [← portBits_eq data.portQ, (steps t).1, sync]
    refine ⟨by rw [shown, first], fun t => ?_⟩
    rw [shown, (steps t).2, next]
  · intro ⟨first, steps⟩
    refine ⟨fun t => sigBits (σ.cycle t) q, ?_, fun t => ?_⟩
    · rw [data.portQ, Option.getD_some, ← first]
    · dsimp only
      rw [portBits_eq data.portQ, sync, steps, next]
      exact ⟨rfl, rfl⟩

def storedBits (cell : Cell) (type : FfType) (start : Nat → Bool) (width : Nat) (σ : Trace) :
    Nat → List Bool
  | 0 => startBits start width
  | t + 1 => nextState cell (σ.cycle t) type

theorem async_iff {qout : SigSpec} (width : qout.length = q.length) :
    (FfRuns cell type start σ ∧
        ∀ t, sigBits (σ.cycle t) qout = storedBits cell type start q.length σ t) ↔
      DffRuns din qout start σ ∧
        ∀ t, sigBits (σ.cycle t) q =
          outputBits cell (σ.cycle t) (sigBits (σ.cycle t) qout) type := by
  constructor
  · intro ⟨⟨stored, first, steps⟩, held⟩
    rw [data.portQ, Option.getD_some] at first
    have same : ∀ t, stored t = sigBits (σ.cycle t) qout := by
      intro t
      cases t with
      | zero => rw [first, held 0, storedBits]
      | succ t => rw [(steps t).2, held (t + 1), storedBits]
    refine ⟨⟨by rw [← same, first, width], fun t => ?_⟩, fun t => ?_⟩
    · rw [← same, (steps t).2, next]
    · rw [← portBits_eq data.portQ, (steps t).1, same]
  · intro ⟨⟨first, steps⟩, shown⟩
    refine ⟨⟨fun t => sigBits (σ.cycle t) qout, ?_, fun t => ?_⟩, fun t => ?_⟩
    · rw [data.portQ, Option.getD_some, ← width, ← first]
    · dsimp only
      rw [portBits_eq data.portQ, shown, steps, next]
      exact ⟨rfl, rfl⟩
    · cases t with
      | zero => rw [first, width, storedBits]
      | succ t => rw [steps, next, storedBits]

end

theorem control_active {name : ParamId} {control : PortId} {bit : SigBit} {active : Const}
    (c : Control cell name control bit active) (v : Valuation) :
    isActive cell v name control = true ↔ sigBits v [bit] = [active.asBool] := by
  rw [isActive, portBits_eq c.connected, polarityOf, c.paramPolarity,
    Option.getD_some, beq_iff_eq]

theorem resetValue_bits {name : ParamId} {value : Const} (r : ResetValue cell name q value)
    (v : Valuation) : resetBits cell v name = sigBits v (SigSpec.ofConst value) := by
  rw [resetBits, r.paramValue, Option.getD_some]

variable {mod mod' : Module} {cells : List Cell} {other : OtherCells}
  {start : IdString → Nat → Bool} {wires : List Wire}

def Rest (other : OtherCells) (start : IdString → Nat → Bool) (mod : Module) (cell : Cell)
    (σ : Trace) : Prop :=
  (∀ t, mod.Connected (σ.cycle t)) ∧
    ∀ c ∈ mod.cells.filter (·.name ≠ cell.name), CellRuns other start c σ

theorem runs_split (distinct : mod.names.Nodup) (member : cell ∈ mod.cells) (σ : Trace) :
    Runs other start mod σ ↔ Rest other start mod cell σ ∧ CellRuns other start cell σ := by
  have unique : ∀ c ∈ mod.cells, c.name = cell.name → c = cell := by
    have cellNames : (mod.cells.map (·.name)).Nodup := (nodup_append.mp distinct).2.1
    intro c here same
    exact inj_on_of_nodup_map cellNames here member same
  constructor
  · intro ⟨connected, all⟩
    exact ⟨⟨connected, fun c here => all c (mem_of_mem_filter here)⟩, all cell member⟩
  · intro ⟨⟨connected, rest⟩, own⟩
    refine ⟨connected, fun c here => ?_⟩
    by_cases same : c.name = cell.name
    · rw [unique c here same]
      exact own
    · exact rest c (mem_filter.mpr ⟨here, by simpa using same⟩)

theorem replaced_runs (replaced : Replaced mod cell cells wires mod') (σ : Trace) :
    Runs other start mod' σ ↔
      Rest other start mod cell σ ∧ ∀ c ∈ cells, CellRuns other start c σ := by
  rw [replaced.module, Runs, Rest, and_assoc]
  refine and_congr Iff.rfl ?_
  rw [forall_mem_append]

theorem rest_local (closed : Closed mod) : Local (· ∈ mod.wires) (Rest other start mod cell) := by
  refine (connected_local closed).and ?_
  intro σ τ agree
  refine forall₂_congr fun c here => ?_
  exact cellRuns_local (closed.cells c (mem_of_mem_filter here)) other start σ τ agree

theorem ff_local (closed : Closed mod) (member : cell ∈ mod.cells) {type : FfType}
    (isFf : ffType? cell.type = some type) :
    Local (· ∈ mod.wires)
      (fun σ => Rest other start mod cell σ ∧ FfRuns cell type (start cell.name) σ) := by
  have own : Local (· ∈ mod.wires) (FfRuns cell type (start cell.name)) := by
    have local_ := cellRuns_local (closed.cells cell member) other start
    intro σ τ agree
    have both := local_ σ τ agree
    rwa [CellRuns, CellRuns, isFf] at both
  exact (rest_local closed).and own

variable {y : Wire}

theorem fresh_wire (fresh : y.name ∉ mod.names) : y ∉ mod.wires := by
  intro member
  exact fresh (mem_append_left _ (mem_append_left _ (mem_map_of_mem member)))

theorem new_wire (distinct : ((wires ++ [y]).map (·.name) ++ cells.map (·.name)).Nodup)
    (fresh : ∀ id ∈ (wires ++ [y]).map (·.name) ++ cells.map (·.name), id ∉ mod.names) :
    ¬ (y ∈ mod.wires ∨ y ∈ wires) := by
  rintro (here | here)
  · exact fresh_wire (fresh y.name (by simp)) here
  · have apart := (nodup_append.mp distinct).1
    rw [map_append, nodup_append] at apart
    exact apart.2.2 _ (mem_map_of_mem here) _ (by simp) rfl

theorem inside_const (names : Wire → Prop) (value : Const) : Inside names (SigSpec.ofConst value) := by
  intro w i member
  simp [SigSpec.ofConst] at member

theorem inside_wire {names : Wire → Prop} (member : names y) : Inside names (SigSpec.ofWire y) := by
  intro w i here
  obtain ⟨j, same⟩ := mem_ofFn.mp here
  cases same
  exact member

theorem Inside.mono {names names' : Wire → Prop} {sig : SigSpec} (inside : Inside names sig)
    (sub : ∀ w, names w → names' w) : Inside names' sig :=
  fun w i member => sub w (inside w i member)

variable {muxes : List Cell}

theorem polarityMux_inside {names : Wire → Prop} {name : IdString} {a b y : SigSpec}
    {polarity : Bool} (insideA : Inside names a) (insideB : Inside names b)
    (insideS : Inside names [s]) (insideY : Inside names y) :
    CellInside names (polarityMux name a b [s] y polarity) := by
  intro port sig found
  have member := lookup_mem found
  cases polarity <;>
    simp only [polarityMux, muxCell, mem_cons, Prod.mk.injEq, not_mem_nil, or_false] at member
  · rcases member with ⟨-, rfl⟩ | ⟨-, rfl⟩ | ⟨-, rfl⟩ | ⟨-, rfl⟩
    exacts [insideB, insideA, insideS, insideY]
  · rcases member with ⟨-, rfl⟩ | ⟨-, rfl⟩ | ⟨-, rfl⟩ | ⟨-, rfl⟩
    exacts [insideA, insideB, insideS, insideY]

variable (old P other start wires muxes)

/-- Multiplexers that define new wires one after the other. -/
structure Staged : Prop where
  extension : Extension old (fun w => old w ∨ w ∈ wires) P
    (fun τ => P τ ∧ ∀ c ∈ muxes, CellRuns other start c τ)
  localOld : Local old P
  inside : ∀ c ∈ muxes, CellInside (fun w => old w ∨ w ∈ wires) c

variable {old P wires muxes}

theorem Staged.first (localOld : Local old P) :
    Staged old P other start [] [] where
  extension := ((Extension.refl old P).congr (fun _ => Iff.rfl) (by simp)).names_congr (by simp)
  localOld := localOld
  inside := by simp

variable {other start}

theorem Staged.localAll (staged : Staged old P other start wires muxes) :
    Local (fun w => old w ∨ w ∈ wires) (fun τ => P τ ∧ ∀ c ∈ muxes, CellRuns other start c τ) := by
  refine (staged.localOld.mono fun _ here => .inl here).and ?_
  intro σ τ agree
  exact forall₂_congr fun c here => cellRuns_local (staged.inside c here) other start σ τ agree

theorem Staged.mux (staged : Staged old P other start wires muxes) {a b : SigSpec} (name : IdString)
    (polarity : Bool) (widthA : a.length = y.width)
    (widthB : b.length = y.width) (fresh : ¬ (old y ∨ y ∈ wires))
    (insideA : Inside (fun w => old w ∨ w ∈ wires) a)
    (insideB : Inside (fun w => old w ∨ w ∈ wires) b)
    (insideS : Inside (fun w => old w ∨ w ∈ wires) [s]) :
    Staged old P other start (wires ++ [y])
      (muxes ++ [polarityMux name a b [s] (SigSpec.ofWire y) polarity]) where
  extension := by
    have next := define_mux y polarity widthA widthB fresh staged.localAll insideA insideB insideS
    refine ((staged.extension.trans next).congr (fun _ => Iff.rfl) (fun τ => ?_)).names_congr ?_
    · rw [forall_mem_append, forall_mem_singleton, polarityMux_runs, and_assoc]
    · simp [or_assoc]
  localOld := staged.localOld
  inside := by
    have sub : ∀ w, (old w ∨ w ∈ wires) → (old w ∨ w ∈ wires ++ [y]) := by
      rintro w (here | here)
      · exact .inl here
      · exact .inr (mem_append_left _ here)
    rw [forall_mem_append, forall_mem_singleton]
    refine ⟨fun c here port sig found => (staged.inside c here port sig found).mono sub, ?_⟩
    exact polarityMux_inside (insideA.mono sub) (insideB.mono sub) (insideS.mono sub)
      (inside_wire (.inr (by simp)))

variable {name : IdString} {type : FfType}

/-- The module around a flip-flop, and the flip-flop. -/
def Around (other : OtherCells) (start : IdString → Nat → Bool) (mod : Module) (cell : Cell)
    (type : FfType) (σ : Trace) : Prop :=
  Rest other start mod cell σ ∧ FfRuns cell type (start cell.name) σ

theorem runs_around (distinct : mod.names.Nodup) (member : cell ∈ mod.cells)
    (isFf : ffType? cell.type = some type) (σ : Trace) :
    Runs other start mod σ ↔ Around other start mod cell type σ := by
  rw [runs_split distinct member, Around, CellRuns, isFf]

variable (distinct : mod.names.Nodup) (member : cell ∈ mod.cells)
  (isFf : ffType? cell.type = some type) (data : DataShape cell clk d q polarity) {din : SigSpec}
  (same : start name = start cell.name)
  (staged : Staged (· ∈ mod.wires) (Around other start mod cell type) other start wires muxes)
  (next : ∀ τ, (∀ c ∈ muxes, CellRuns other start c τ) →
    ∀ t, sigBits (τ.cycle t) din = nextState cell (τ.cycle t) type)

include distinct member isFf data same staged next

theorem sync_extension (sync : ∀ v stored, outputBits cell v stored type = stored)
    (replaced : Replaced mod cell
      (dffCell name cell.attributes polarity clk din q :: muxes) wires mod') :
    Extension (· ∈ mod.wires) (· ∈ mod'.wires) (Runs other start mod) (Runs other start mod') := by
  refine (staged.extension.congr (runs_around distinct member isFf) (fun τ => ?_)).names_congr ?_
  · have key : (∀ c ∈ muxes, CellRuns other start c τ) →
        (FfRuns cell type (start cell.name) τ ↔ DffRuns din q (start cell.name) τ) :=
      fun chosen => sync_iff data (next τ chosen) sync
    rw [replaced_runs replaced, forall_mem_cons, dffCell_runs, same]
    constructor
    · intro ⟨rest, dff, chosen⟩
      exact ⟨⟨rest, (key chosen).mpr dff⟩, chosen⟩
    · intro ⟨⟨rest, ff⟩, chosen⟩
      exact ⟨rest, (key chosen).mp ff, chosen⟩
  · rw [replaced.module]
    simp

theorem async_extension (closed : Closed mod) {value : SigSpec} {arst : SigBit} {arstPol : Bool}
    {mux : IdString} {qout : Wire} (wide : qout.width = q.length)
    (replaced : Replaced mod cell
      (dffCell name cell.attributes polarity clk din (SigSpec.ofWire qout) ::
        (muxes ++ [polarityMux mux (SigSpec.ofWire qout) value [arst] q arstPol]))
      (wires ++ [qout]) mod')
    (nextWidth : ∀ v, (nextState cell v type).length = q.length)
    (shown : ∀ τ t, outputBits cell (τ.cycle t) (sigBits (τ.cycle t) (SigSpec.ofWire qout)) type =
      choice (SigSpec.ofWire qout) value arst arstPol τ t) :
    Extension (· ∈ mod.wires) (· ∈ mod'.wires) (Runs other start mod) (Runs other start mod') := by
  have new : ¬ (qout ∈ mod.wires ∨ qout ∈ wires) :=
    new_wire replaced.distinct replaced.fresh
  have held := define_wire qout (storedBits cell type (start cell.name) q.length) (by
      intro σ t
      cases t with
      | zero => simp [storedBits, startBits, wide]
      | succ t => rw [storedBits, nextWidth, wide])
    new staged.localAll
    (by
      intro σ τ agree
      funext t
      cases t with
      | zero => rfl
      | succ t =>
        exact nextState_congr (closed.cells cell member) (agree.mono fun _ here => .inl here) t type)
  refine ((staged.extension.trans held).congr (runs_around distinct member isFf)
    (fun τ => ?_)).names_congr ?_
  · have width : (SigSpec.ofWire qout).length = q.length := by simpa using wide
    have key := fun chosen => @async_iff cell clk d q polarity τ (start cell.name) type din data
      (next τ chosen) (SigSpec.ofWire qout) width
    rw [replaced_runs replaced, forall_mem_cons, forall_mem_append,
      forall_mem_singleton, dffCell_runs, polarityMux_runs, same]
    simp only [← shown]
    constructor
    · intro ⟨rest, dff, chosen, out⟩
      obtain ⟨ff, stored⟩ := (key chosen).mpr ⟨dff, out⟩
      exact ⟨⟨⟨rest, ff⟩, chosen⟩, stored⟩
    · intro ⟨⟨⟨rest, ff⟩, chosen⟩, stored⟩
      obtain ⟨dff, out⟩ := (key chosen).mp ⟨ff, stored⟩
      exact ⟨rest, dff, chosen, out⟩
  · rw [replaced.module]
    simp [or_assoc]

end ManticoreFrontend.Passes.FlipFlopRuns
