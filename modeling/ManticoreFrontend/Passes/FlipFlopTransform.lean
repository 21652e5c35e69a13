/- source: passes/manticore/manticore_dff.cc
   digest: The conversion of every flip-flop type keeps the clocked runs of a module, and so does the
     whole pass. -/

import ManticoreFrontend.Passes.FlipFlopRuns

namespace ManticoreFrontend.Passes.FlipFlopTransform

open List

open Foundation Conservative Kernel Constants CellTypes Signals CellChecker Netlist
open FlipFlops FlipFlopBuild FlipFlopRuns

section Stages

variable {mod mod' : Module} {cell : Cell} {type : FfType} {clk d q : SigSpec} {polarity : Const}
  {name : IdString} {B : Builder} {muxes : List Cell} {wires : List Wire} {din : SigSpec}
  {next next' : Valuation → List Bool}

/-- A flip-flop is replaced by new cells that are not converted again, with the same runs. -/
def Converted (mod : Module) (cell : Cell) (name : IdString) (mod' : Module) : Prop :=
  ∃ cells wires, Replaced mod cell cells wires mod' ∧
    (∃ polarity clk d q, dffCell name cell.attributes polarity clk d q ∈ cells) ∧
    (∀ c ∈ cells, isConvertible c = false ∧ CellInside (· ∈ mod'.wires) c) ∧
    ∀ other start, start name = start cell.name →
      Extension (· ∈ mod.wires) (· ∈ mod'.wires) (Runs other start mod) (Runs other start mod')

abbrev Converts (pass : Pass IdString) (cell : Cell) (B : Builder) : Prop :=
  ∃ name B', pass B = some (name, B') ∧ Converted B.module cell name B'.module

theorem dffCell_inside {names : Wire → Prop} {attributes : List (AttrId × Const)}
    (insideClk : Inside names clk) (insideD : Inside names d) (insideQ : Inside names q) :
    CellInside names (dffCell name attributes polarity clk d q) := by
  intro port sig found
  have member := lookup_mem found
  simp only [dffCell, mem_cons, Prod.mk.injEq, not_mem_nil, or_false] at member
  rcases member with ⟨-, rfl⟩ | ⟨-, rfl⟩ | ⟨-, rfl⟩
  exacts [insideClk, insideD, insideQ]

variable (mod cell type clk d q polarity name B muxes wires din next)

/-- A conversion under way: the module has grown by a plain flip-flop and by multiplexers that
define new wires one after the other. -/
structure Stage : Prop where
  grown : Grown mod B (dffCell name cell.attributes polarity clk d q :: muxes) wires
  plain : ∀ c ∈ muxes, c.type = .mux
  staged : ∀ other start,
    Staged (· ∈ mod.wires) (Around other start mod cell type) other start wires muxes

/-- A conversion under way whose signal `din` shows the value to be stored next. -/
structure Storing : Prop extends Stage mod cell type clk d q polarity name B muxes wires where
  width : din.length = q.length
  inside : Inside (fun w => w ∈ mod.wires ∨ w ∈ wires) din
  value : ∀ other start τ, (∀ c ∈ muxes, CellRuns other start c τ) →
    ∀ t, sigBits (τ.cycle t) din = next (τ.cycle t)

variable {mod cell type clk d q polarity name B muxes wires din next}

theorem Storing.mux (stage : Storing mod cell type clk d q polarity name B muxes wires din next)
    {a b : SigSpec} {s : SigBit} (active : Bool) (widthA : a.length = q.length)
    (widthB : b.length = q.length) (insideA : Inside (fun w => w ∈ mod.wires ∨ w ∈ wires) a)
    (insideB : Inside (fun w => w ∈ mod.wires ∨ w ∈ wires) b)
    (insideS : Inside (fun w => w ∈ mod.wires ∨ w ∈ wires) [s])
    (shows : ∀ τ t, sigBits (τ.cycle t) din = next (τ.cycle t) →
      choice a b s active τ t = next' (τ.cycle t)) :
    ∃ y B', muxed a b [s] active B = some (SigSpec.ofWire y, B') ∧ ∃ muxes wires,
      Storing mod cell type clk d q polarity name B' muxes wires (SigSpec.ofWire y) next' := by
  obtain ⟨y, mux, B', made, wide, grown⟩ :=
    muxed_spec stage.grown a b [s] active (widthA.trans widthB.symm)
  refine ⟨y, B', made, muxes ++ [polarityMux mux a b [s] (SigSpec.ofWire y) active], _,
    ⟨grown, ?_, fun other start => ?_⟩, ?_, ?_, ?_⟩
  · rw [forall_mem_append, forall_mem_singleton]
    exact ⟨stage.plain, rfl⟩
  · exact (stage.staged other start).mux mux active wide.symm
      (widthB.trans (wide.trans widthA).symm) (new_wire grown.distinct grown.fresh)
      insideA insideB insideS
  · exact (SigSpec.ofWire_length y).trans (wide.trans widthA)
  · exact inside_wire (.inr (by simp))
  · intro other start τ runs t
    rw [forall_mem_append, forall_mem_singleton, polarityMux_runs] at runs
    exact (runs.2 t).trans (shows τ t (stage.value other start τ runs.1 t))

theorem Stage.new_cells (stage : Stage mod cell type clk d q polarity name B muxes wires)
    (kept : ∀ w, w ∈ mod.wires ∨ w ∈ wires → w ∈ mod'.wires) :
    ∀ c ∈ muxes, isConvertible c = false ∧ CellInside (· ∈ mod'.wires) c := by
  intro c here
  constructor
  · rw [isConvertible, stage.plain c here]
    decide
  · intro port sig found
    exact ((stage.staged (fun _ _ => True) (fun _ _ => true)).inside c here port sig found).mono kept

variable (closed : Closed mod) (member : cell ∈ mod.cells)

include closed member

theorem port_inside {port : PortId} {sig : SigSpec} (found : cell.getPort port = some sig)
    (wires : List Wire) : Inside (fun w => w ∈ mod.wires ∨ w ∈ wires) sig :=
  (closed.cells cell member _ _ found).mono fun _ here => .inl here

theorem Storing.resetMux (stage : Storing mod cell type clk d q polarity name B muxes wires din next)
    {active : ParamId} {control : PortId} {param : ParamId} {rst : SigBit} {rstPol value : Const}
    (reset : Control cell active control rst rstPol) (resetValue : ResetValue cell param q value) :
    ∃ y B', muxed din (SigSpec.ofConst value) [rst] rstPol.asBool B = some (SigSpec.ofWire y, B') ∧
      ∃ muxes wires, Storing mod cell type clk d q polarity name B' muxes wires (SigSpec.ofWire y)
        (fun v => if isActive cell v active control then resetBits cell v param else next v) := by
  refine stage.mux rstPol.asBool stage.width (by simp [SigSpec.ofConst, resetValue.width])
    stage.inside (inside_const _ value) (port_inside closed member reset.connected _) fun τ t now => ?_
  simp only [choice, now, control_active reset, resetValue_bits resetValue]

variable (data : DataShape cell clk d q polarity)

include data

theorem Storing.first (isFf : ffType? cell.type = some type)
    (grown : Grown mod B [dffCell name cell.attributes polarity clk d q] []) :
    Storing mod cell type clk d q polarity name B [] [] d (fun v => portBits cell v .D) where
  grown := grown
  plain := by simp
  staged := fun other start => Staged.first other start (ff_local closed member isFf)
  width := data.width
  inside := port_inside closed member data.portD _
  value _ _ τ _ t := (portBits_eq data.portD (τ.cycle t)).symm

theorem Storing.enableMux (stage : Storing mod cell type clk d q polarity name B muxes wires din next)
    {en : SigBit} {enPol : Const} (enable : Control cell EN_POLARITY .EN en enPol) :
    ∃ y B', muxed q din [en] enPol.asBool B = some (SigSpec.ofWire y, B') ∧
      ∃ muxes wires, Storing mod cell type clk d q polarity name B' muxes wires (SigSpec.ofWire y)
        (fun v => if isActive cell v EN_POLARITY .EN then next v else portBits cell v .Q) := by
  refine stage.mux enPol.asBool rfl stage.width (port_inside closed member data.portQ _)
    stage.inside (port_inside closed member enable.connected _) fun τ t now => ?_
  simp only [choice, now, control_active enable, portBits_eq data.portQ]

variable (distinct : mod.names.Nodup) (isFf : ffType? cell.type = some type)

include distinct isFf

section

variable
  (stage : Storing mod cell type clk d q polarity name B muxes wires din (nextState cell · type))

include stage

theorem Storing.sync (sync : ∀ v stored, outputBits cell v stored type = stored) :
    ∃ B', (do setPort name .D din; remove cell; pure name : Pass IdString) B = some (name, B') ∧
      Converted mod cell name B'.module := by
  obtain ⟨B', finished, replaced⟩ := finish_spec stage.grown member din
  have inside := closed.cells cell member
  have kept : ∀ w, w ∈ mod.wires ∨ w ∈ wires → w ∈ B'.module.wires := by
    intro w here
    rw [replaced.module]
    exact mem_append.mpr here
  refine ⟨B', finished, _, _, replaced, ⟨_, _, _, _, mem_cons_self⟩, ?_, fun other start same => ?_⟩
  · rw [forall_mem_cons]
    refine ⟨⟨rfl, ?_⟩, stage.new_cells kept⟩
    exact dffCell_inside ((inside _ _ data.portClk).mono fun w here => kept w (.inl here))
      (stage.inside.mono kept) ((inside _ _ data.portQ).mono fun w here => kept w (.inl here))
  · exact sync_extension distinct member isFf data same (stage.staged other start)
      (stage.value other start) sync replaced

theorem Storing.async (async : type = .adff ∨ type = .adffe) {arst : SigBit}
    {arstPol value : Const} (reset : Control cell ARST_POLARITY .ARST arst arstPol)
    (resetValue : ResetValue cell .ARST_VALUE q value) :
    ∃ B', (do
        setPort name .D din
        let qout ← addWire (← fresh "qout") q.length
        setPort name .Q (SigSpec.ofWire qout)
        addArstMux (SigSpec.ofWire qout) (SigSpec.ofConst value) [arst] q arstPol.asBool
        remove cell
        pure name : Pass IdString) B = some (name, B') ∧ Converted mod cell name B'.module := by
  obtain ⟨mux, qout, B', finished, wide, replaced⟩ :=
    finishAsync_spec stage.grown member din (SigSpec.ofConst value) [arst] arstPol.asBool
  have inside := closed.cells cell member
  have wiresEq : B'.module.wires = mod.wires ++ (wires ++ [qout]) := by rw [replaced.module]
  have kept : ∀ w, w ∈ mod.wires ∨ w ∈ wires → w ∈ B'.module.wires := by
    intro w here
    rw [wiresEq, mem_append, mem_append]
    exact here.imp_right .inl
  have old : ∀ w, w ∈ mod.wires → w ∈ B'.module.wires := fun w here => kept w (.inl here)
  have insideQout : Inside (· ∈ B'.module.wires) (SigSpec.ofWire qout) :=
    inside_wire (by simp [wiresEq])
  refine ⟨B', finished, _, _, replaced, ⟨_, _, _, _, mem_cons_self⟩, ?_, fun other start same => ?_⟩
  · rw [forall_mem_cons, forall_mem_append, forall_mem_singleton]
    refine ⟨⟨rfl, ?_⟩, stage.new_cells kept, rfl, ?_⟩
    · exact dffCell_inside ((inside _ _ data.portClk).mono old) (stage.inside.mono kept) insideQout
    · exact polarityMux_inside insideQout (inside_const _ value)
        ((inside _ _ reset.connected).mono old) ((inside _ _ data.portQ).mono old)
  · refine async_extension distinct member isFf data same (stage.staged other start)
      (stage.value other start) closed wide replaced (fun v => ?_) fun τ t => ?_
    · rcases async with rfl | rfl <;>
        simp only [nextState, portBits_eq data.portD, portBits_eq data.portQ,
          resetValue_bits resetValue] <;> split_ifs <;>
        simp [sigBits_length, SigSpec.ofConst, resetValue.width, data.width]
    · rcases async with rfl | rfl <;>
        simp only [outputBits, choice, control_active reset, resetValue_bits resetValue]

end

end Stages

section Types

variable {mod : Module} {cell : Cell} {clk d q : SigSpec} {polarity : Const} (index : Nat)
  (closed : Closed mod) (distinct : mod.names.Nodup) (member : cell ∈ mod.cells)
  (data : DataShape cell clk d q polarity) {en srst arst : SigBit}
  {enPol srstPol arstPol value : Const}

include closed distinct member data

section Reset

variable (reset : Control cell SRST_POLARITY .SRST srst srstPol)
  (resetValue : ResetValue cell .SRST_VALUE q value)

include reset resetValue

theorem convertSdff_converted (isFf : ffType? cell.type = some .sdff) :
    Converts (convertSdff cell) cell ⟨index, mod⟩ := by
  obtain ⟨name, B₁, cast, grown⟩ := sDffCast_spec index mod data
  obtain ⟨y, B₂, made, _, _, stage⟩ :=
    (Storing.first closed member data isFf grown).resetMux closed member reset resetValue
  obtain ⟨B₃, finished, converted⟩ := stage.sync closed member data distinct isFf (fun _ _ => rfl)
  refine ⟨name, B₃, ?_, converted⟩
  exact run_bind cast (run_param reset.paramPolarity (run_param resetValue.paramValue
    (run_port data.portD (run_port reset.connected (run_bind made finished)))))

variable (enable : Control cell EN_POLARITY .EN en enPol)

include enable

theorem convertSdffe_converted (isFf : ffType? cell.type = some .sdffe) :
    Converts (convertSdffe cell) cell ⟨index, mod⟩ := by
  obtain ⟨name, B₁, cast, grown⟩ := sDffCast_spec index mod data
  obtain ⟨y, B₂, made, _, _, stage⟩ :=
    (Storing.first closed member data isFf grown).enableMux closed member data enable
  obtain ⟨y', B₃, made', _, _, stage⟩ := stage.resetMux closed member reset resetValue
  obtain ⟨B₄, finished, converted⟩ := stage.sync closed member data distinct isFf (fun _ _ => rfl)
  refine ⟨name, B₄, ?_, converted⟩
  exact run_bind cast (run_param reset.paramPolarity (run_param enable.paramPolarity
    (run_port data.portQ (run_port data.portD (run_param resetValue.paramValue (run_port enable.connected
    (run_bind made (run_port reset.connected (run_bind made' finished)))))))))

theorem convertSdffce_converted (isFf : ffType? cell.type = some .sdffce) :
    Converts (convertSdffce cell) cell ⟨index, mod⟩ := by
  obtain ⟨name, B₁, cast, grown⟩ := sDffCast_spec index mod data
  obtain ⟨y, B₂, made, _, _, stage⟩ :=
    (Storing.first closed member data isFf grown).resetMux closed member reset resetValue
  obtain ⟨y', B₃, made', _, _, stage⟩ := stage.enableMux closed member data enable
  obtain ⟨B₄, finished, converted⟩ := stage.sync closed member data distinct isFf (fun _ _ => rfl)
  refine ⟨name, B₄, ?_, converted⟩
  exact run_bind cast (run_param reset.paramPolarity (run_param enable.paramPolarity
    (run_port data.portQ (run_port data.portD (run_param resetValue.paramValue (run_port reset.connected
    (run_bind made (run_port enable.connected (run_bind made' finished)))))))))

end Reset

variable (reset : Control cell ARST_POLARITY .ARST arst arstPol)
  (resetValue : ResetValue cell .ARST_VALUE q value)

include reset resetValue in
theorem convertAdff_converted (isFf : ffType? cell.type = some .adff) :
    Converts (convertAdff cell) cell ⟨index, mod⟩ := by
  obtain ⟨name, B₁, cast, grown⟩ := dffCast_spec index mod data
  obtain ⟨y, B₂, made, _, _, stage⟩ :=
    (Storing.first closed member data isFf grown).resetMux closed member reset resetValue
  obtain ⟨B₃, finished, converted⟩ :=
    stage.async closed member data distinct isFf (.inl rfl) reset resetValue
  refine ⟨name, B₃, ?_, converted⟩
  exact run_bind cast (run_param reset.paramPolarity (run_param resetValue.paramValue
    (run_port data.portQ (run_port data.portD (run_port reset.connected (run_bind made finished))))))

variable (enable : Control cell EN_POLARITY .EN en enPol)

include enable

theorem convertDffe_converted (isFf : ffType? cell.type = some .dffe) :
    Converts (convertDffe cell) cell ⟨index, mod⟩ := by
  obtain ⟨name, B₁, cast, grown⟩ := sDffCast_spec index mod data
  obtain ⟨y, B₂, made, _, _, stage⟩ :=
    (Storing.first closed member data isFf grown).enableMux closed member data enable
  obtain ⟨B₃, finished, converted⟩ := stage.sync closed member data distinct isFf (fun _ _ => rfl)
  refine ⟨name, B₃, ?_, converted⟩
  exact run_bind cast (run_param enable.paramPolarity (run_port data.portQ (run_port data.portD
    (run_port enable.connected (run_bind made finished)))))

include reset resetValue in
theorem convertAdffe_converted (isFf : ffType? cell.type = some .adffe) :
    Converts (convertAdffe cell) cell ⟨index, mod⟩ := by
  obtain ⟨name, B₁, cast, grown⟩ := dffCast_spec index mod data
  obtain ⟨y, B₂, made, _, _, stage⟩ :=
    (Storing.first closed member data isFf grown).enableMux closed member data enable
  obtain ⟨y', B₃, made', _, _, stage⟩ := stage.resetMux closed member reset resetValue
  obtain ⟨B₄, finished, converted⟩ :=
    stage.async closed member data distinct isFf (.inr rfl) reset resetValue
  refine ⟨name, B₄, ?_, converted⟩
  exact run_bind cast (run_param reset.paramPolarity (run_param enable.paramPolarity
    (run_param resetValue.paramValue (run_port data.portQ (run_port data.portD (run_port reset.connected
    (run_port enable.connected (run_bind made (run_bind made' finished)))))))))

end Types

variable {mod mod' : Module} {cell : Cell}

/-- The modules the pass runs on: names are unique, cells and connections use wires of the module, and
the flip-flops passed the check of internal cells. -/
structure WellFormed (mod : Module) : Prop where
  distinct : mod.names.Nodup
  closed : Closed mod
  checked : ∀ cell ∈ mod.cells, isConvertible cell = true → ∀ type, ffType? cell.type = some type →
    checkFf cell type = true

theorem isConvertible_iff :
    isConvertible cell = true ↔ ∃ type, ffType? cell.type = some type ∧ type ≠ .dff := by
  constructor
  · intro convertible
    simp only [isConvertible, map_cons, map_nil, mem_cons, not_mem_nil, or_false,
      decide_eq_true_eq] at convertible
    rcases convertible with h | h | h | h | h | h <;> rw [h] <;> decide
  · rintro ⟨type, found, other⟩
    have same := find?_some found
    simp only [decide_eq_true_eq] at same
    rw [isConvertible, ← same]
    cases type <;> first | exact absurd rfl other | rfl

theorem convert_converted (index : Nat) (wf : WellFormed mod) (member : cell ∈ mod.cells)
    (convertible : isConvertible cell = true) : Converts (convert cell) cell ⟨index, mod⟩ := by
  obtain ⟨type, isFf, other⟩ := isConvertible_iff.mp convertible
  have checked := wf.checked cell member convertible type isFf
  rw [convert, isFf]
  cases type <;> simp only [checkFf, Bool.and_eq_true] at checked
  case dff => exact absurd rfl other
  case dffe =>
    obtain ⟨clk, d, q, polarity, data, -⟩ := checkData_shape checked.1
    obtain ⟨en, enPol, enable⟩ := checkControl_shape checked.2
    exact convertDffe_converted index wf.closed wf.distinct member data enable isFf
  case sdff =>
    obtain ⟨clk, d, q, polarity, data, width⟩ := checkData_shape checked.1.1
    obtain ⟨srst, srstPol, reset⟩ := checkControl_shape checked.1.2
    obtain ⟨value, resetValue⟩ := checkValue_shape width checked.2
    exact convertSdff_converted index wf.closed wf.distinct member data reset resetValue isFf
  case sdffe =>
    obtain ⟨clk, d, q, polarity, data, width⟩ := checkData_shape checked.1.1.1
    obtain ⟨en, enPol, enable⟩ := checkControl_shape checked.1.1.2
    obtain ⟨srst, srstPol, reset⟩ := checkControl_shape checked.1.2
    obtain ⟨value, resetValue⟩ := checkValue_shape width checked.2
    exact convertSdffe_converted index wf.closed wf.distinct member data reset resetValue enable isFf
  case sdffce =>
    obtain ⟨clk, d, q, polarity, data, width⟩ := checkData_shape checked.1.1.1
    obtain ⟨en, enPol, enable⟩ := checkControl_shape checked.1.1.2
    obtain ⟨srst, srstPol, reset⟩ := checkControl_shape checked.1.2
    obtain ⟨value, resetValue⟩ := checkValue_shape width checked.2
    exact convertSdffce_converted index wf.closed wf.distinct member data reset resetValue enable isFf
  case adff =>
    obtain ⟨clk, d, q, polarity, data, width⟩ := checkData_shape checked.1.1
    obtain ⟨arst, arstPol, reset⟩ := checkControl_shape checked.1.2
    obtain ⟨value, resetValue⟩ := checkValue_shape width checked.2
    exact convertAdff_converted index wf.closed wf.distinct member data reset resetValue isFf
  case adffe =>
    obtain ⟨clk, d, q, polarity, data, width⟩ := checkData_shape checked.1.1.1
    obtain ⟨en, enPol, enable⟩ := checkControl_shape checked.1.1.2
    obtain ⟨arst, arstPol, reset⟩ := checkControl_shape checked.1.2
    obtain ⟨value, resetValue⟩ := checkValue_shape width checked.2
    exact convertAdffe_converted index wf.closed wf.distinct member data reset resetValue enable isFf

theorem names_of_replaced {cells : List Cell} {wires : List Wire}
    (replaced : Replaced mod cell cells wires mod') (distinct : mod.names.Nodup) :
    mod'.names.Nodup := by
  have sub : (mod.wires.map (·.name) ++ mod.memories.map (·.name) ++
      (mod.cells.filter (·.name ≠ cell.name)).map (·.name)).Sublist mod.names :=
    List.Sublist.append_left (filter_sublist.map _) _
  have perm : mod'.names.Perm ((mod.wires.map (·.name) ++ mod.memories.map (·.name) ++
      (mod.cells.filter (·.name ≠ cell.name)).map (·.name)) ++
        (wires.map (·.name) ++ cells.map (·.name))) := by
    rw [replaced.module]
    simp only [Module.names, map_append, append_assoc]
    refine List.Perm.append_left _ ?_
    exact (perm_append_comm_assoc _ _ _).trans
      (List.Perm.append_left _ (perm_append_comm_assoc _ _ _))
  rw [perm.nodup_iff, nodup_append]
  refine ⟨distinct.sublist sub, replaced.distinct, ?_⟩
  rintro a here b there rfl
  exact replaced.fresh a there (sub.subset here)

theorem wellFormed_of_converted {name : IdString} (wf : WellFormed mod)
    (converted : Converted mod cell name mod') :
    WellFormed mod' ∧ (∀ c ∈ mod.cells, c.name ≠ cell.name → c ∈ mod'.cells) ∧
      ∀ c ∈ mod'.cells, isConvertible c = true → c ∈ mod.cells ∧ c.name ≠ cell.name := by
  obtain ⟨cells, wires, replaced, -, new, -⟩ := converted
  have cellsEq : mod'.cells = mod.cells.filter (·.name ≠ cell.name) ++ cells := by
    rw [replaced.module]
  have kept : ∀ w, w ∈ mod.wires → w ∈ mod'.wires := by
    intro w here
    rw [replaced.module]
    exact mem_append_left _ here
  have old : ∀ c ∈ mod'.cells, isConvertible c = true → c ∈ mod.cells ∧ c.name ≠ cell.name := by
    intro c here convertible
    rw [cellsEq] at here
    rcases mem_append.mp here with here | here
    · have := mem_filter.mp here
      exact ⟨this.1, by simpa using this.2⟩
    · rw [(new c here).1] at convertible
      cases convertible
  refine ⟨⟨names_of_replaced replaced wf.distinct, ⟨?_, ?_⟩, ?_⟩, ?_, old⟩
  · intro c here port sig found
    rw [cellsEq] at here
    rcases mem_append.mp here with here | here
    · exact (wf.closed.cells c (mem_of_mem_filter here) port sig found).mono kept
    · exact (new c here).2 port sig found
  · intro c here p pair
    rw [replaced.module] at here
    exact (wf.closed.connections c here p pair).mono kept
  · intro c here convertible
    exact wf.checked c (old c here convertible).1 convertible
  · intro c here different
    rw [cellsEq]
    exact mem_append_left _ (mem_filter.mpr ⟨here, by simpa using different⟩)

theorem convertAll_extension (todo : List Cell) (B : Builder) (wf : WellFormed B.module)
    (members : ∀ c ∈ todo, c ∈ B.module.cells ∧ isConvertible c = true)
    (distinct : (todo.map (·.name)).Nodup) :
    ∃ dffs B', todo.mapM convert B = some (dffs, B') ∧ WellFormed B'.module ∧
      (∀ c ∈ B.module.cells, isConvertible c = false → c ∈ B'.module.cells) ∧
      Forall₂ (fun c name => ∃ polarity clk d q,
        dffCell name c.attributes polarity clk d q ∈ B'.module.cells) todo dffs ∧
      (∀ c ∈ B'.module.cells, isConvertible c = true →
        c ∈ B.module.cells ∧ c.name ∉ todo.map (·.name)) ∧
      ∀ other start, todo.map (fun c => start c.name) = dffs.map start →
        Extension (· ∈ B.module.wires) (· ∈ B'.module.wires) (Runs other start B.module)
          (Runs other start B'.module) := by
  induction todo generalizing B with
  | nil =>
    exact ⟨[], B, rfl, wf, fun _ here _ => here, .nil, fun c here _ => ⟨here, by simp⟩,
      fun _ _ _ => Extension.refl _ _⟩
  | cons cell todo ih =>
    rw [map_cons, nodup_cons] at distinct
    obtain ⟨member, convertible⟩ := members cell (by simp)
    obtain ⟨name, B₁, made, converted⟩ := convert_converted B.index wf member convertible
    obtain ⟨wf₁, remain, old⟩ := wellFormed_of_converted wf converted
    have members₁ : ∀ c ∈ todo, c ∈ B₁.module.cells ∧ isConvertible c = true := by
      intro c here
      obtain ⟨inB, conv⟩ := members c (mem_cons_of_mem _ here)
      refine ⟨remain c inB ?_, conv⟩
      intro same
      exact distinct.1 (same ▸ mem_map_of_mem here)
    obtain ⟨dffs, B₂, rest, wf₂, kept, casts, old', extended⟩ := ih B₁ wf₁ members₁ distinct.2
    refine ⟨name :: dffs, B₂, ?_, wf₂, fun c here other => ?_, .cons ?_ casts, ?_, ?_⟩
    · rw [mapM_cons]
      exact run_bind made (run_bind rest rfl)
    · refine kept c (remain c here fun same => ?_) other
      rw [inj_on_of_nodup_map (nodup_append.mp wf.distinct).2.1 here member same] at other
      simp [other] at convertible
    · obtain ⟨cells, wires, replaced, ⟨polarity, clk, d, q, new⟩, -⟩ := converted
      refine ⟨polarity, clk, d, q, kept _ ?_ rfl⟩
      rw [replaced.module]
      exact mem_append_right _ new
    · intro c here conv
      obtain ⟨inB₁, apart⟩ := old' c here conv
      obtain ⟨inB, different⟩ := old c inB₁ conv
      refine ⟨inB, ?_⟩
      rw [map_cons, mem_cons, not_or]
      exact ⟨different, apart⟩
    · intro other start same
      simp only [map_cons, cons.injEq] at same
      obtain ⟨-, -, -, -, -, extension⟩ := converted
      exact (extension other start same.1.symm).trans (extended other start same.2)

/-- The pass succeeds on every well-formed module without unsupported cells and leaves no
convertible cell. When each new flip-flop starts with the value stored in the cell it replaces,
every run of the result is one of the module, and every run of the module extends to exactly one of
the result. -/
theorem transform_preserves_runs (mod : Module) (wf : WellFormed mod)
    (supported : ∀ cell ∈ mod.cells, isConvertible cell = false → isUnsupported cell = false) :
    ∃ dffs mod', transform mod = some (dffs, mod') ∧
      (∀ cell ∈ mod'.cells, isConvertible cell = false) ∧
      ∀ other start, (convertibles mod).map (fun cell => start cell.name) = dffs.map start →
        Extension (· ∈ mod.wires) (· ∈ mod'.wires) (Runs other start mod) (Runs other start mod') := by
  have cellNames : (mod.cells.map (·.name)).Nodup := (nodup_append.mp wf.distinct).2.1
  obtain ⟨dffs, B, made, -, -, -, old, extended⟩ := convertAll_extension (convertibles mod) ⟨0, mod⟩ wf
    (fun c here => mem_filter.mp here)
    (cellNames.sublist (filter_sublist.map _))
  refine ⟨dffs, B.module, ?_, ?_, extended⟩
  · rw [transform, show guard _ = some () from if_pos supported]
    change ((convertibles mod).mapM convert { index := 0, module := mod }).bind
      (fun r => some (r.1, r.2.module)) = _
    rw [made, Option.bind_some]
  · intro c here
    by_contra convertible
    rw [Bool.not_eq_false] at convertible
    obtain ⟨inMod, apart⟩ := old c here convertible
    exact apart (mem_map_of_mem (mem_filter.mpr ⟨inMod, convertible⟩))

private def oneBit (name : IdString) : Wire := { name := name, width := 1 }

/-- A one-bit flip-flop with an active-low reset over an enable. -/
def resettable : Module :=
  { name := "\\top"
    wires := ["\\clk", "\\en", "\\rst", "\\d", "\\q"].map oneBit
    cells := [{
      name := "$1"
      type := .other "$adffe"
      parameters := [(.CLK_POLARITY, [.S1]), (EN_POLARITY, [.S1]), (ARST_POLARITY, [.S0]),
        (.ARST_VALUE, [.S1]), (.WIDTH, [.S1])]
      connections := [(.CLK, SigSpec.ofWire (oneBit "\\clk")),
        (.EN, SigSpec.ofWire (oneBit "\\en")), (.ARST, SigSpec.ofWire (oneBit "\\rst")),
        (.D, SigSpec.ofWire (oneBit "\\d")), (.Q, SigSpec.ofWire (oneBit "\\q"))] }] }

theorem resettable_wellFormed : WellFormed resettable where
  distinct := by decide
  closed := by
    refine ⟨?_, by simp [resettable]⟩
    intro cell here port sig found
    obtain rfl := mem_singleton.mp here
    have member := lookup_mem found
    simp only [mem_cons, Prod.mk.injEq, not_mem_nil, or_false] at member
    rcases member with ⟨-, rfl⟩ | ⟨-, rfl⟩ | ⟨-, rfl⟩ | ⟨-, rfl⟩ | ⟨-, rfl⟩ <;>
      exact inside_wire (by simp [resettable])
  checked := by
    intro cell here _ type found
    obtain rfl := mem_singleton.mp here
    obtain rfl : FfType.adffe = type := Option.some.inj found
    decide

theorem resettable_preserves_runs :
    ∃ dffs mod', transform resettable = some (dffs, mod') ∧
      (∀ cell ∈ mod'.cells, isConvertible cell = false) ∧
      ∀ other start, (convertibles resettable).map (fun cell => start cell.name) = dffs.map start →
        Extension (· ∈ resettable.wires) (· ∈ mod'.wires) (Runs other start resettable)
          (Runs other start mod') :=
  transform_preserves_runs resettable resettable_wellFormed (by decide)

end ManticoreFrontend.Passes.FlipFlopTransform
