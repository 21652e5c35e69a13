/- source: passes/manticore/manticore_dff.cc (transform, dffCast), kernel/ffinit.h,
     passes/manticore/manticore_writer.cc (tryCreateState)
   digest: The initial values of flip-flops on their way from the wires to the registers. -/

import ManticoreFrontend.Passes.FlipFlopTransform
import ManticoreFrontend.Passes.OptCleanInits

namespace ManticoreFrontend.Passes.FlipFlopInits

open Kernel Constants CellTypes Signals Netlist FlipFlops FlipFlopRuns FlipFlopTransform
open OptCleanKeep OptCleanCells OptCleanInits Writer Generator Cells List

def isState (cell : Cell) : Bool := decide (cell.type = .dff) || isConvertible cell

def qSig (cell : Cell) : SigSpec := (cell.getPort .Q).getD []

variable (mod : AttrModule)

def initVals (bits : InitBits) (sig : SigSpec) : Const :=
  sig.map fun b => ((bits.lookup (sigmap mod b)).map Prod.fst).getD .Sx

def setConstAttribute (cell : Cell) (id : AttrId) (value : Const) : Cell :=
  { cell with attributes := (id, value) :: cell.attributes.filter (·.1 ≠ id) }

/-- An initial value is set on the cell when all of its bits are defined. -/
def setInit (bits : InitBits) (cell : Cell) : Cell :=
  let init := initVals mod bits (qSig cell)
  if isState cell && init.isFullyDef then setConstAttribute cell .INIT init else cell

/-- The pass with its first loop; `none` as well for conflicting init attributes. -/
def transformInits : Option (List IdString × Module) :=
  (ffInitVals mod).bind fun bits =>
    transform { mod.toModule with cells := mod.cells.map (setInit mod bits) }

def initBits (cell : Cell) : Const :=
  (qSig cell).map fun b => initValue mod (sigmap mod b)

/-- The flip-flop that stands for a cell after the pass. -/
def StandsFor (dffs : List IdString) (cell dff : Cell) : Prop :=
  if cell.type = .dff then dff.name = cell.name
  else (cell, dff.name) ∈ (convertibles mod.toModule).zip dffs

/-- A printed initial value has all defined bits of `init`. -/
def Gives (init : Const) (printed : Option Const) : Prop :=
  ∀ (i : Nat) b, init[i]? = some b → b.isDef = true → ∃ x, printed = some x ∧ x[i]? = some b

/-- What would be printed for the attributes that the cell has before the pass. -/
def ownInit (cell : Cell) : Option Const :=
  if cell.type = .dff then registerInit cell else (cell.attributes.lookup .INIT).map definedBits

section Pass

variable {mod : AttrModule} {bits : InitBits} {dffs : List IdString} {mod' : Module} {cell dff : Cell}

private theorem setInit_cases (entered : ffInitVals mod = some bits) (state : isState cell = true) :
    setInit mod bits cell = if (initBits mod cell).isFullyDef then
      setConstAttribute cell .INIT (initBits mod cell) else cell := by
  have same : initVals mod bits (qSig cell) = initBits mod cell :=
    map_congr_left fun b _ => ffInitVals_value entered _
  simp [setInit, same, state]

theorem setInit_keeps : ∃ attributes, setInit mod bits cell = { cell with attributes := attributes } := by
  unfold setInit
  dsimp only
  split
  · exact ⟨_, rfl⟩
  · exact ⟨cell.attributes, rfl⟩

theorem setInit_convertible : isConvertible (setInit mod bits cell) = isConvertible cell := by
  obtain ⟨attributes, same⟩ := @setInit_keeps mod bits cell
  rw [same]
  rfl

private theorem setInit_name : (setInit mod bits cell).name = cell.name := by
  obtain ⟨attributes, same⟩ := @setInit_keeps mod bits cell
  rw [same]

private theorem wellFormed_setInit (wf : WellFormed mod.toModule) :
    WellFormed { mod.toModule with cells := mod.cells.map (setInit mod bits) } := by
  refine ⟨?_, ⟨fun c here => ?_, wf.closed.connections⟩, fun c here => ?_⟩
  · have distinct := wf.distinct
    simpa [Module.names, Function.comp_def, setInit_name] using distinct
  all_goals
    obtain ⟨cell, member, rfl⟩ := mem_map.mp here
    obtain ⟨attributes, same⟩ := @setInit_keeps mod bits cell
    rw [same]
  · exact wf.closed.cells cell member
  · intro convertible type found
    have checked := wf.checked cell member convertible type found
    cases type <;> exact checked

theorem transform_cells {mod : Module} (wf : WellFormed mod) (run : transform mod = some (dffs, mod')) :
    (mod'.cells.map (·.name)).Nodup ∧
      (∀ c ∈ mod.cells, isConvertible c = false → c ∈ mod'.cells) ∧
      Forall₂ (fun c name => ∃ polarity clk d q,
        dffCell name c.attributes polarity clk d q ∈ mod'.cells) (convertibles mod) dffs := by
  have cellNames : (mod.cells.map (·.name)).Nodup := (nodup_append.mp wf.distinct).2.1
  obtain ⟨dffs', B, made, wf', kept, casts, -⟩ := convertAll_extension (convertibles mod) ⟨0, mod⟩ wf
    (fun c here => mem_filter.mp here) (cellNames.sublist (filter_sublist.map _))
  obtain ⟨-, -, run⟩ := Option.bind_eq_some_iff.mp run
  obtain ⟨result, ran, finished⟩ := Option.bind_eq_some_iff.mp run
  obtain rfl := Option.some.inj (made.symm.trans ran)
  obtain ⟨rfl, rfl⟩ := Prod.mk.inj (Option.some.inj finished)
  exact ⟨(nodup_append.mp wf'.distinct).2.1, kept, casts⟩

variable (wf : WellFormed mod.toModule) (run : transformInits mod = some (dffs, mod'))

include wf run

private theorem registerInit_eq (member : cell ∈ mod.cells) (state : isState cell = true) :
    (∃ dff ∈ mod'.cells, StandsFor mod dffs cell dff) ∧
      ∀ dff ∈ mod'.cells, StandsFor mod dffs cell dff → registerInit dff =
        if (initBits mod cell).isFullyDef then some (definedBits (initBits mod cell))
        else ownInit cell := by
  obtain ⟨bits, entered, run⟩ := Option.bind_eq_some_iff.mp run
  obtain ⟨distinct, kept, casts⟩ := transform_cells (wellFormed_setInit wf) run
  have value := setInit_cases entered state
  by_cases plain : cell.type = .dff
  · have convertible : isConvertible cell = false := by
      rw [isConvertible, plain]
      decide
    have new := kept _ (mem_map_of_mem member) (setInit_convertible.trans convertible)
    simp only [StandsFor, plain, if_true, ownInit]
    refine ⟨⟨_, new, setInit_name⟩, fun dff here name => ?_⟩
    obtain rfl := inj_on_of_nodup_map distinct here new (name.trans setInit_name.symm)
    rw [value]
    split <;> simp [registerInit, setConstAttribute]
  · have convertible : isConvertible cell = true := by simpa [isState, plain] using state
    have same : convertibles { mod.toModule with cells := mod.cells.map (setInit mod bits) } =
        (convertibles mod.toModule).map (setInit mod bits) := by
      simp [convertibles, filter_map, Function.comp_def, setInit_convertible]
    rw [same, forall₂_map_left_iff, forall₂_iff_zip] at casts
    simp only [StandsFor, plain, if_false, ownInit]
    constructor
    · have listed : cell ∈ ((convertibles mod.toModule).zip dffs).map Prod.fst := by
        rw [map_fst_zip casts.1.le]
        exact mem_filter.mpr ⟨member, convertible⟩
      obtain ⟨⟨_, name⟩, paired, rfl⟩ := mem_map.mp listed
      obtain ⟨polarity, clk, d, q, new⟩ := casts.2 paired
      exact ⟨_, new, paired⟩
    · intro dff here paired
      obtain ⟨polarity, clk, d, q, new⟩ := casts.2 paired
      rw [inj_on_of_nodup_map distinct here new rfl, value]
      split
      · simp [registerInit, setConstAttribute, dffCell]
      · cases found : cell.attributes.lookup .INIT <;> simp [registerInit, dffCell, Cell.getParam, found]

/-- The registers keep the init bits of their outputs exactly when each output is initialised as a
whole or the cell already has the bits. -/
theorem registerInit_gives_iff :
    (∀ cell ∈ mod.cells, isState cell = true → ∀ dff ∈ mod'.cells, StandsFor mod dffs cell dff →
      Gives (initBits mod cell) (registerInit dff)) ↔
    ∀ cell ∈ mod.cells, isState cell = true →
      (initBits mod cell).isFullyDef = true ∨ Gives (initBits mod cell) (ownInit cell) := by
  refine forall₃_congr fun cell member state => ?_
  obtain ⟨⟨dff, here, stands⟩, value⟩ := registerInit_eq wf run member state
  by_cases full : (initBits mod cell).isFullyDef = true
  · simp only [full, if_true, true_or, iff_true] at value ⊢
    intro dff here stands i b bit defined
    rw [value dff here stands]
    exact ⟨_, rfl, by simp [definedBits, bit, defined]⟩
  · simp only [if_neg full] at value
    rw [or_iff_right full]
    constructor
    · intro gives
      rw [← value dff here stands]
      exact gives dff here stands
    · intro gives dff here stands
      rw [value dff here stands]
      exact gives

end Pass

/-- Flip-flops of two bits, the first a plain one; their outputs have this init attribute. -/
def initialised (init : Const) (others : List Cell) : AttrModule where
  name := "top"
  wires := [⟨"q", 2, false, true⟩, ⟨"r", 2, false, true⟩]
  cells := { name := "$1"
             type := .dff
             parameters := [(.CLK_POLARITY, [.S1]), (.WIDTH, Const.ofInt 2 32)]
             connections := [(.CLK, [.const .Sx]), (.D, [.const .S0, .const .S0]),
               (.Q, SigSpec.ofWire ⟨"q", 2, false, true⟩)] } :: others
  wireAttributes := fun _ => [(.init, init)]

def enabled : Cell where
  name := "$2"
  type := .other "$dffe"
  parameters := [(.CLK_POLARITY, [.S1]), (EN_POLARITY, [.S1]), (.WIDTH, [.S0, .S1])]
  connections := [(.CLK, [.const .Sx]), (.EN, [.const .Sx]), (.D, [.const .S0, .const .S0]),
    (.Q, SigSpec.ofWire ⟨"r", 2, false, true⟩)]

theorem registerInit_lost : ∃ cell dff dffs mod',
    transformInits (initialised [.S1, .Sx] []) = some (dffs, mod') ∧
    cell ∈ (initialised [.S1, .Sx] []).cells ∧ isState cell = true ∧ dff ∈ mod'.cells ∧
    StandsFor (initialised [.S1, .Sx] []) dffs cell dff ∧
    initBits (initialised [.S1, .Sx] []) cell = [.S1, .Sx] ∧ registerInit dff = none :=
  ⟨_, _, _, _, rfl, mem_singleton.mpr rfl, by decide, mem_singleton.mpr rfl, by
    simp only [StandsFor]
    decide, by decide, by decide⟩

theorem registerInit_gives_whole : ∃ dffs mod',
    transformInits (initialised [.S1, .S0] [enabled]) = some (dffs, mod') ∧ dffs ≠ [] ∧
    ∀ cell ∈ (initialised [.S1, .S0] [enabled]).cells, isState cell = true → ∀ dff ∈ mod'.cells,
      StandsFor (initialised [.S1, .S0] [enabled]) dffs cell dff →
      Gives (initBits (initialised [.S1, .S0] [enabled]) cell) (registerInit dff) := by
  have wf : WellFormed (initialised [.S1, .S0] [enabled]).toModule := by
    refine ⟨by decide, ⟨?_, by simp [initialised]⟩, fun cell here convertible type found => ?_⟩
    · intro cell here port sig found w i member
      have connected := lookup_mem found
      rcases mem_cons.mp here with rfl | here
      · simp only [mem_cons, Prod.mk.injEq, not_mem_nil, or_false] at connected
        rcases connected with ⟨-, rfl⟩ | ⟨-, rfl⟩ | ⟨-, rfl⟩
        · simp at member
        · simp at member
        · exact inside_wire (by simp [initialised]) w i member
      · obtain rfl := mem_singleton.mp here
        simp only [enabled, mem_cons, Prod.mk.injEq, not_mem_nil, or_false] at connected
        rcases connected with ⟨-, rfl⟩ | ⟨-, rfl⟩ | ⟨-, rfl⟩ | ⟨-, rfl⟩
        · simp at member
        · simp at member
        · simp at member
        · exact inside_wire (by simp [initialised]) w i member
    · rcases mem_cons.mp here with rfl | here
      · exact absurd convertible (by decide)
      · obtain rfl := mem_singleton.mp here
        obtain rfl : FfType.dffe = type := Option.some.inj found
        decide
  refine ⟨_, _, rfl, by decide, (registerInit_gives_iff wf rfl).mpr fun cell here _ => .inl ?_⟩
  rcases mem_cons.mp here with rfl | here
  · decide
  · obtain rfl := mem_singleton.mp here
    decide

end ManticoreFrontend.Passes.FlipFlopInits
