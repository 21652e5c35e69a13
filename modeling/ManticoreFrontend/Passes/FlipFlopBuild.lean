/- source: passes/manticore/manticore_dff.cc
   digest: The cells and wires that each conversion of a flip-flop leaves in the module. -/

import ManticoreFrontend.Passes.FlipFlops

namespace ManticoreFrontend.Passes.FlipFlopBuild

open Foundation.Emission Kernel Constants CellTypes Signals CellChecker Netlist FlipFlops List

structure DataShape (cell : Cell) (clk d q : SigSpec) (polarity : Const) : Prop where
  portClk : cell.getPort .CLK = some clk
  portD : cell.getPort .D = some d
  portQ : cell.getPort .Q = some q
  paramPolarity : cell.getParam .CLK_POLARITY = some polarity
  width : d.length = q.length

structure Control (cell : Cell) (polarity : ParamId) (control : PortId) (bit : SigBit)
    (active : Const) : Prop where
  connected : cell.getPort control = some [bit]
  paramPolarity : cell.getParam polarity = some active

structure ResetValue (cell : Cell) (name : ParamId) (q : SigSpec) (value : Const) : Prop where
  paramValue : cell.getParam name = some value
  width : value.length = q.length

variable {cell : Cell}

theorem checkData_shape {params : List ParamId} {ports : List PortId}
    (checked : checkData cell params ports = true) :
    ∃ clk d q polarity, DataShape cell clk d q polarity ∧ param cell .WIDTH = some (q.length : Int) := by
  simp only [checkData, Bool.and_eq_true] at checked
  obtain ⟨⟨⟨⟨hp, hc⟩, hd⟩, hq⟩, -⟩ := checked
  obtain ⟨polarity, found⟩ := paramBool_eq_true hp
  obtain ⟨clk, clock⟩ := port_one hc
  obtain ⟨d, data, c, width, dlen⟩ := port_eq_true hd
  obtain ⟨q, out, c', width', qlen⟩ := port_eq_true hq
  obtain rfl : c = c' := Option.some.inj (width.symm.trans width')
  refine ⟨[clk], d, q, polarity, ⟨clock, data, out, found, by omega⟩, ?_⟩
  simp [param, width, qlen]

theorem checkControl_shape {polarity : ParamId} {control : PortId}
    (checked : checkControl cell polarity control = true) :
    ∃ bit active, Control cell polarity control bit active := by
  simp only [checkControl, Bool.and_eq_true] at checked
  obtain ⟨active, found⟩ := paramBool_eq_true checked.1
  obtain ⟨bit, connected⟩ := port_one checked.2
  exact ⟨bit, active, connected, found⟩

theorem checkValue_shape {name : ParamId} {q : SigSpec}
    (width : param cell .WIDTH = some (q.length : Int)) (checked : checkValue cell name = true) :
    ∃ value, ResetValue cell name q value := by
  rw [checkValue, width] at checked
  obtain ⟨value, found, len⟩ := paramBits_eq_true checked
  exact ⟨value, found, by omega⟩

variable {α β : Type} {B B₁ B₂ : Builder} {mod : Module} {cells : List Cell} {wires : List Wire}

theorem run_bind {m : Pass α} {f : α → Pass β} {a : α} {b : β} (first : m B = some (a, B₁))
    (rest : f a B₁ = some (b, B₂)) : (m >>= f) B = some (b, B₂) :=
  bind_eq_some.mpr ⟨a, B₁, first, rest⟩

theorem run_guard {c : Prop} [Decidable c] (h : c) : (guard c : Pass Unit) B = some ((), B) :=
  congrFun (guard_eq_pure h) B

theorem run_port {name : PortId} {sig : SigSpec} {f : SigSpec → Pass α} {a : α}
    (h : cell.getPort name = some sig) (rest : f sig B = some (a, B₁)) :
    (port? cell name >>= f) B = some (a, B₁) :=
  run_bind (lift_eq_some.mpr ⟨h, rfl⟩) rest

theorem run_param {name : ParamId} {value : Const} {f : Const → Pass α} {a : α}
    (h : cell.getParam name = some value) (rest : f value B = some (a, B₁)) :
    (param? cell name >>= f) B = some (a, B₁) :=
  run_bind (lift_eq_some.mpr ⟨h, rfl⟩) rest

structure Grown (mod : Module) (B : Builder) (cells : List Cell) (wires : List Wire) : Prop where
  module : B.module = { mod with cells := mod.cells ++ cells, wires := mod.wires ++ wires }
  distinct : (wires.map (·.name) ++ cells.map (·.name)).Nodup
  fresh : ∀ id ∈ wires.map (·.name) ++ cells.map (·.name), id ∉ mod.names

theorem Grown.start (index : Nat) (mod : Module) : Grown mod ⟨index, mod⟩ [] [] where
  module := by simp
  distinct := by simp
  fresh := by simp

theorem Grown.mem_names (grown : Grown mod B cells wires) (id : IdString) :
    id ∈ B.module.names ↔ id ∈ mod.names ∨ id ∈ wires.map (·.name) ++ cells.map (·.name) := by
  rw [grown.module]
  simp only [Module.names, map_append, mem_append]
  grind

theorem Grown.add_name (grown : Grown mod B cells wires) {id : IdString} (new : id ∉ B.module.names)
    {l : List IdString} (perm : l.Perm (id :: (wires.map (·.name) ++ cells.map (·.name)))) :
    l.Nodup ∧ ∀ other ∈ l, other ∉ mod.names := by
  have apart := mt (grown.mem_names id).mpr new
  rw [not_or] at apart
  refine ⟨perm.nodup_iff.mpr (nodup_cons.mpr ⟨apart.2, grown.distinct⟩), fun other here => ?_⟩
  rcases mem_cons.mp (perm.mem_iff.mp here) with rfl | old
  · exact apart.1
  · exact grown.fresh other old

theorem fresh_spec (name : IdString) (B : Builder) :
    ∃ found index, fresh name B = some (found, { B with index := index }) ∧
      found ∉ B.module.names := by
  obtain ⟨found, index, search, new⟩ := B.module.uniquify_spec ("$" ++ name ++ "$") B.index
  refine ⟨found, index, ?_, new⟩
  refine run_bind (get_eq_some.mpr ⟨rfl, rfl⟩) (run_bind (lift_eq_some.mpr ⟨search, rfl⟩) ?_)
  rfl

section

variable (grown : Grown mod B cells wires)

include grown

theorem newWire_spec (name : IdString) (width : Nat) :
    ∃ found B₁ wire B₂, fresh name B = some (found, B₁) ∧ addWire found width B₁ = some (wire, B₂) ∧
      wire.width = width ∧ Grown mod B₂ cells (wires ++ [wire]) := by
  obtain ⟨found, index, search, new⟩ := fresh_spec name B
  have free : B.module.countId found = 0 := count_eq_zero.mpr new
  refine ⟨found, { B with index := index }, ⟨found, width, false, false⟩, { B with
      index := index
      module := { B.module with wires := B.module.wires ++ [⟨found, width, false, false⟩] } },
    search, ?_, rfl, ?_⟩
  · refine run_bind (get_eq_some.mpr ⟨rfl, rfl⟩) ?_
    exact run_bind (run_guard free) rfl
  · have names := grown.add_name new
      (l := (wires ++ [({ name := found, width := width } : Wire)]).map (·.name) ++
        cells.map (·.name)) (by simp)
    exact ⟨by simp [grown.module], names.1, names.2⟩

theorem addCell_spec (new : cell.name ∉ B.module.names) :
    ∃ B₁, addCell cell B = some ((), B₁) ∧ Grown mod B₁ (cells ++ [cell]) wires := by
  have free : B.module.countId cell.name = 0 := count_eq_zero.mpr new
  refine ⟨{ B with module := { B.module with cells := B.module.cells ++ [cell] } }, ?_, ?_⟩
  · refine run_bind (get_eq_some.mpr ⟨rfl, rfl⟩) ?_
    exact run_bind (run_guard free) rfl
  · have perm : (wires.map (·.name) ++ (cells ++ [cell]).map (·.name)).Perm
        (cell.name :: (wires.map (·.name) ++ cells.map (·.name))) := by
      rw [map_append, ← append_assoc]
      exact perm_append_singleton cell.name _
    have names := grown.add_name new perm
    exact ⟨by simp [grown.module], names.1, names.2⟩

theorem newCell_spec (name : IdString) (make : IdString → Cell)
    (named : ∀ id, (make id).name = id) :
    ∃ found B₁ B₂, fresh name B = some (found, B₁) ∧ addCell (make found) B₁ = some ((), B₂) ∧
      Grown mod B₂ (cells ++ [make found]) wires := by
  obtain ⟨found, index, search, new⟩ := fresh_spec name B
  have grown' : Grown mod { B with index := index } cells wires :=
    ⟨grown.module, grown.distinct, grown.fresh⟩
  have unused : (make found).name ∉ B.module.names := by
    rw [named]
    exact new
  obtain ⟨B₂, added, grown₂⟩ := addCell_spec grown' unused
  exact ⟨found, _, B₂, search, added, grown₂⟩

/-- The multiplexer of `muxed` with its operands in the order of the polarity. -/
def polarityMux (name : IdString) (sigA sigB sigS sigY : SigSpec) (polarity : Bool) : Cell :=
  muxCell name (if polarity then sigA else sigB) (if polarity then sigB else sigA) sigS sigY

theorem muxed_spec (sigA sigB sigS : SigSpec) (polarity : Bool)
    (width : sigA.length = sigB.length) :
    ∃ y name B', muxed sigA sigB sigS polarity B = some (SigSpec.ofWire y, B') ∧
      y.width = sigA.length ∧
      Grown mod B' (cells ++ [polarityMux name sigA sigB sigS (SigSpec.ofWire y) polarity])
        (wires ++ [y]) := by
  obtain ⟨yName, B₁, y, B₂, named, added, wide, grown₂⟩ := newWire_spec grown "mux_out" sigA.length
  obtain ⟨name, B₃, B₄, named', added', grown₄⟩ := newCell_spec grown₂ "dff_mux"
    (fun id => polarityMux id sigA sigB sigS (SigSpec.ofWire y) polarity) (fun _ => rfl)
  refine ⟨y, name, B₄, ?_, wide, grown₄⟩
  refine run_bind (run_guard width) ?_
  exact run_bind named (run_bind added (run_bind named' (run_bind added' rfl)))

end

theorem map_setPort_other {l : List Cell} {id : IdString} (other : ∀ cell ∈ l, cell.name ≠ id)
    (name : PortId) (sig : SigSpec) :
    l.map (fun cell => if cell.name = id then cell.setPort name sig else cell) = l := by
  have same : ∀ cell ∈ l, (if cell.name = id then cell.setPort name sig else cell) = cell :=
    fun cell member => if_neg (other cell member)
  rw [map_congr_left same, map_id']

theorem setPort_name (cell : Cell) (name : PortId) (sig : SigSpec) :
    (cell.setPort name sig).name = cell.name := by
  rw [Cell.setPort]
  split <;> rfl

theorem setPort_spec {dff : Cell} (grown : Grown mod B (dff :: cells) wires) (name : PortId)
    (sig : SigSpec) :
    ∃ B', setPort dff.name name sig B = some ((), B') ∧
      Grown mod B' (dff.setPort name sig :: cells) wires := by
  have before : ∀ cell ∈ mod.cells, cell.name ≠ dff.name := by
    intro cell member same
    apply grown.fresh dff.name (by simp)
    rw [← same]
    exact mem_append_right _ (mem_map_of_mem member)
  have after : ∀ cell ∈ cells, cell.name ≠ dff.name := by
    intro cell member same
    have distinct := (nodup_append.mp grown.distinct).2.1
    rw [map_cons, nodup_cons] at distinct
    exact distinct.1 (same ▸ mem_map_of_mem member)
  refine ⟨_, modify_eq_some.mpr rfl, ?_⟩
  constructor
  case module =>
    rw [grown.module]
    simp [map_setPort_other before, map_setPort_other after]
  case distinct => simpa [setPort_name] using grown.distinct
  case fresh => simpa [setPort_name] using grown.fresh

/-- The new cells take the place of an old one. -/
structure Replaced (mod : Module) (cell : Cell) (cells : List Cell) (wires : List Wire)
    (mod' : Module) : Prop where
  module : mod' = { mod with
    cells := mod.cells.filter (·.name ≠ cell.name) ++ cells
    wires := mod.wires ++ wires }
  distinct : (wires.map (·.name) ++ cells.map (·.name)).Nodup
  fresh : ∀ id ∈ wires.map (·.name) ++ cells.map (·.name), id ∉ mod.names

theorem remove_spec (grown : Grown mod B cells wires) (member : cell ∈ mod.cells) :
    ∃ B', remove cell B = some ((), B') ∧ Replaced mod cell cells wires B'.module := by
  have kept : cells.filter (·.name ≠ cell.name) = cells := by
    rw [filter_eq_self]
    intro new here
    have := grown.fresh new.name (mem_append_right _ (mem_map_of_mem here))
    refine decide_eq_true fun same => this ?_
    rw [same]
    exact mem_append_right _ (mem_map_of_mem member)
  refine ⟨_, modify_eq_some.mpr rfl, ?_, grown.distinct, grown.fresh⟩
  rw [grown.module, filter_append, kept]

theorem dffCast_spec (index : Nat) (mod : Module) {clk d q : SigSpec} {polarity : Const}
    (data : DataShape cell clk d q polarity) :
    ∃ name B, dffCast cell ⟨index, mod⟩ = some (name, B) ∧
      Grown mod B [dffCell name cell.attributes polarity clk d q] [] := by
  obtain ⟨name, B₁, B₂, named, added, grown⟩ := newCell_spec (Grown.start index mod) "dff_cast"
    (fun id => dffCell id cell.attributes polarity clk d q) (fun _ => rfl)
  refine ⟨name, B₂, ?_, grown⟩
  exact run_bind named (run_port data.portClk (run_port data.portD
    (run_port data.portQ (run_param data.paramPolarity (run_bind added rfl)))))

variable (name : IdString) (attributes : List (AttrId × Const)) (polarity : Const)

@[simp] theorem dffCell_setD (clk d q sig : SigSpec) :
    (dffCell name attributes polarity clk d q).setPort .D sig =
      dffCell name attributes polarity clk sig q := by
  simp [dffCell, Cell.setPort]

theorem dffCell_setQ (clk d q : SigSpec) {sig : SigSpec} (width : sig.length = q.length) :
    (dffCell name attributes polarity clk d q).setPort .Q sig =
      dffCell name attributes polarity clk d sig := by
  simp [dffCell, Cell.setPort, width]

theorem sDffCast_spec (index : Nat) (mod : Module) {clk d q : SigSpec} {polarity : Const}
    (data : DataShape cell clk d q polarity) :
    ∃ name B, sDffCast cell ⟨index, mod⟩ = some (name, B) ∧
      Grown mod B [dffCell name cell.attributes polarity clk d q] [] := by
  obtain ⟨name, B, cast, grown⟩ := dffCast_spec index mod data
  obtain ⟨B', set, grown'⟩ := setPort_spec grown .Q q
  exact ⟨name, B', run_bind cast (run_port data.portQ (run_bind set rfl)), grown'⟩

variable {clk d q : SigSpec} {polarity : Const}

section

variable {B : Builder} {name : IdString}
  (grown : Grown mod B (dffCell name cell.attributes polarity clk d q :: cells) wires)
  (member : cell ∈ mod.cells) (din : SigSpec)

include grown member

theorem finish_spec :
    ∃ B', (do setPort name .D din; remove cell; pure name : Pass IdString) B = some (name, B') ∧
      Replaced mod cell (dffCell name cell.attributes polarity clk din q :: cells) wires B'.module := by
  obtain ⟨B₁, set, grown₁⟩ := setPort_spec grown .D din
  obtain ⟨B₂, removed, replaced⟩ := remove_spec grown₁ member
  exact ⟨B₂, run_bind set (run_bind removed rfl), replaced⟩

theorem finishAsync_spec (value arst : SigSpec) (arstPol : Bool) :
    ∃ mux qout B', (do
        setPort name .D din
        let qout ← addWire (← fresh "qout") q.length
        setPort name .Q (SigSpec.ofWire qout)
        addArstMux (SigSpec.ofWire qout) value arst q arstPol
        remove cell
        pure name : Pass IdString) B = some (name, B') ∧ qout.width = q.length ∧
      Replaced mod cell
        (dffCell name cell.attributes polarity clk din (SigSpec.ofWire qout) ::
          (cells ++ [polarityMux mux (SigSpec.ofWire qout) value arst q arstPol]))
        (wires ++ [qout]) B'.module := by
  obtain ⟨B₁, set, grown₁⟩ := setPort_spec grown .D din
  rw [dffCell_setD] at grown₁
  obtain ⟨qName, B₂, qout, B₃, named, added, wide, grown₃⟩ := newWire_spec grown₁ "qout" q.length
  obtain ⟨B₄, set', grown₄⟩ := setPort_spec grown₃ .Q (SigSpec.ofWire qout)
  rw [dffCell_setQ _ _ _ _ _ _ (by simpa using wide)] at grown₄
  obtain ⟨mux, B₅, B₆, named', added', grown₆⟩ := newCell_spec grown₄ "arst_mux"
    (fun id => polarityMux id (SigSpec.ofWire qout) value arst q arstPol) (fun _ => rfl)
  obtain ⟨B₇, removed, replaced⟩ := remove_spec grown₆ member
  refine ⟨mux, qout, B₇, ?_, wide, replaced⟩
  have muxRun : addArstMux (SigSpec.ofWire qout) value arst q arstPol B₄ = some ((), B₆) :=
    run_bind named' added'
  exact run_bind set (run_bind named (run_bind added (run_bind set' (run_bind muxRun
    (run_bind removed rfl)))))

end

end ManticoreFrontend.Passes.FlipFlopBuild
