/- source: passes/manticore/manticore_clock.cc (checkClock)
   digest: The clock search against the clocks of the flattened design. -/

import ManticoreFrontend.Passes.ClockSearch

namespace ManticoreFrontend.Passes.ClockHierarchy

open Kernel Constants CellTypes Signals SigTools Netlist ClockCheck ClockSearch

/-- The bits that flattening joins: those of a connection inside an instance, and the bits of a port
with the signal that the parent connects to it. -/
inductive Alias (design : Design) (top : Module) :
    List IdString × SigBit → List IdString × SigBit → Prop
  | connection {path : List IdString} {mod : Module} {c : Connection} {p : SigBit × SigBit}
      (inst : Instance design top path mod) (member : c ∈ mod.connections) (pair : p ∈ c.pairs) :
      Alias design top (path, p.1) (path, p.2)
  | port {path : List IdString} {mod other : Module} {cell : Cell} {w : Wire} {sig : SigSpec}
      {p : SigBit × SigBit} (inst : Instance design top path mod) (member : cell ∈ mod.cells)
      (unclocked : isClockedCell cell = false) (found : design.module cell.type = some other)
      (wire : w ∈ other.wires) (port : cell.getPort (portId w.name) = some sig)
      (pair : p ∈ (SigSpec.ofWire w).zip sig) :
      Alias design top (path ++ [cell.name], p.1) (path, p.2)

variable (design : Design) (top : Module)

/-- The nets of the flattened design that the bits of a signal belong to. -/
def nets (path : List IdString) (sig : SigSpec) : List (Quot (Alias design top)) :=
  sig.map fun b => Quot.mk _ (path, b)

def isClockedRead (cell : Cell) : Bool :=
  cell.type = .memrdV2 && ((cell.getParam .CLK_ENABLE).map Const.asBool).getD false

structure Use (path : List IdString) (mod : Module) (cell : Cell) :
    Prop where
  inst : Instance design top path mod
  member : cell ∈ mod.cells
  clocked : isClockedCell cell = true ∨ isClockedRead cell = true

/-- The cell at the end of the path has its clock on the nets `clock`, with this polarity. -/
def OnClock (path : List IdString) (cell : Cell)
    (clock : List (Quot (Alias design top))) (polarity : Bool) : Prop :=
  ∃ sig p, cell.getPort .CLK = some sig ∧ cell.getParam .CLK_POLARITY = some p ∧
    nets design top path sig = clock ∧ p.asBool = polarity

def IsClock (clock : List (Quot (Alias design top))) (polarity : Bool) : Prop :=
  ∀ path mod cell, Use design top path mod cell → OnClock design top path cell clock polarity

def OneClock : Prop :=
  (∃ path mod cell, Use design top path mod cell) ∧ ∃ clock polarity, IsClock design top clock polarity

/-- The search finds a clock exactly when the flattened design has one, and it finds that one. -/
def AgreesWithFlattening (design : Design) (fuel : Nat) (top : Module) : Prop :=
  ((∃ clock, checkClock design fuel top none = .ok (some clock)) ↔ OneClock design top) ∧
  ∀ clock, checkClock design fuel top none = .ok (some clock) →
    ∃ path mod, Instance design top path mod ∧ mod.name = clock.owner ∧
      IsClock design top (nets design top path (SigSpec.ofWire clock.clk)) clock.polarity

variable {design : Design} {top mod : Module} {clock : Clock} {cells : List Cell}
  {path : List IdString}

theorem nets_sigmap {target : Module} (inst : Instance design top path target) (sig : SigSpec) :
    nets design top path (sigmap target sig) = nets design top path sig := by
  have joined : ∀ c ∈ target.connections, ∀ p ∈ c.pairs,
      Quot.mk (Alias design top) (path, p.1) = Quot.mk (Alias design top) (path, p.2) :=
    fun c member p pair => Quot.sound (.connection inst member pair)
  rw [nets, nets, sigmap, List.map_map]
  refine List.map_congr_left fun b _ => ?_
  exact @apply_sound _ (fun b => Quot.mk (Alias design top) (path, b)) _ joined b

variable {cell : Cell}

private theorem onClock_of_cellClock {target : Module} (inst : Instance design top path target)
    (used : cellClock target cell = .ok clock) :
    OnClock design top path cell (nets design top path (SigSpec.ofWire clock.clk)) clock.polarity := by
  obtain ⟨s, p, w, port, param, wire, rfl⟩ := cellClock_eq_ok.mp used
  refine ⟨s, p, port, param, ?_, rfl⟩
  rw [← nets_sigmap inst, asWire?_eq_some wire]

private theorem OnClock.unique {nets₁ nets₂ : List (Quot (Alias design top))} {p₁ p₂ : Bool}
    (first : OnClock design top path cell nets₁ p₁) (second : OnClock design top path cell nets₂ p₂) :
    nets₁ = nets₂ ∧ p₁ = p₂ := by
  obtain ⟨s, p, port, param, rfl, rfl⟩ := first
  obtain ⟨s', p', port', param', rfl, rfl⟩ := second
  obtain rfl := Option.some.inj (port.symm.trans port')
  obtain rfl := Option.some.inj (param.symm.trans param')
  exact ⟨rfl, rfl⟩

def ReadsAgree (design : Design) (top : Module) (path : List IdString) (clock : Clock) : Prop :=
  ∀ path' mod cell, Instance design top path' mod → cell ∈ mod.cells → isClockedRead cell = true →
    OnClock design top path' cell (nets design top path (SigSpec.ofWire clock.clk)) clock.polarity

private theorem located_isClock_iff (located : Located design top top.cells path clock) :
    IsClock design top (nets design top path (SigSpec.ofWire clock.clk)) clock.polarity ↔
      ReadsAgree design top path clock := by
  constructor
  · intro all path' mod cell inst member read
    exact all path' mod cell ⟨inst, member, .inr read⟩
  · intro reads path' mod cell use
    rcases use.clocked with clocked | read
    · obtain ⟨rfl, -, used⟩ := located.uses (fun c here => .inl here) use.inst use.member clocked
      exact onClock_of_cellClock use.inst used
    · exact reads path' mod cell use.inst use.member read

private theorem located_oneClock_iff (located : Located design top top.cells path clock) :
    OneClock design top ↔
      IsClock design top (nets design top path (SigSpec.ofWire clock.clk)) clock.polarity := by
  obtain ⟨target, used, inst, -, member, clocked⟩ := located.exists_use fun _ here => here
  have use : Use design top path target used := ⟨inst, member, .inl clocked⟩
  obtain ⟨-, -, value⟩ := located.uses (fun c here => .inl here) inst member clocked
  constructor
  · rintro ⟨-, nets', polarity, all⟩
    obtain ⟨rfl, rfl⟩ := (all path target used use).unique (onClock_of_cellClock inst value)
    exact all
  · intro all
    exact ⟨⟨path, target, used, use⟩, _, _, all⟩

/-- The search agrees with flattening only when it locates a clock that all read ports use too, or
locates none and the flattened design has no single clock either. -/
theorem clock_check_agrees_iff {design : Design} {rank : IdString → Nat} {top : Module} {fuel : Nat}
    (ranked : Ranked design rank top) (enough : rank top.name < fuel) :
    AgreesWithFlattening design fuel top ↔
      (∃ path clock, Located design top top.cells path clock ∧ ReadsAgree design top path clock) ∨
        (∀ path clock, ¬ Located design top top.cells path clock) ∧ ¬ OneClock design top := by
  have returns := checkClock_returns ranked enough
  constructor
  · rintro ⟨agrees, -⟩
    by_cases found : ∃ path clock, Located design top top.cells path clock
    · obtain ⟨path, clock, located⟩ := found
      have one := agrees.mp ⟨clock, (returns.clock clock).mpr ⟨path, located⟩⟩
      have here := (located_oneClock_iff located).mp one
      exact .inl ⟨path, clock, located, (located_isClock_iff located).mp here⟩
    · refine .inr ⟨fun path clock located => found ⟨path, clock, located⟩, fun one => ?_⟩
      obtain ⟨clock, value⟩ := agrees.mpr one
      obtain ⟨path, located⟩ := (returns.clock clock).mp value
      exact found ⟨path, clock, located⟩
  · rintro (⟨path, clock, located, reads⟩ | ⟨unlocated, several⟩)
    · have value := (returns.clock clock).mpr ⟨path, located⟩
      have all := (located_isClock_iff located).mpr reads
      refine ⟨⟨fun _ => (located_oneClock_iff located).mpr all, fun _ => ⟨clock, value⟩⟩, ?_⟩
      intro clock' value'
      rw [value] at value'
      obtain rfl := Option.some.inj (Except.ok.inj value')
      obtain ⟨target, -, inst, owner, -⟩ := located.exists_use fun _ here => here
      exact ⟨path, target, inst, owner, all⟩
    · have fails : ∀ clock, checkClock design fuel top none ≠ .ok (some clock) := by
        intro clock value
        obtain ⟨path, located⟩ := (returns.clock clock).mp value
        exact unlocated path clock located
      refine ⟨⟨?_, fun one => absurd one several⟩, fun clock value => absurd value (fails clock)⟩
      rintro ⟨clock, value⟩
      exact absurd value (fails clock)

/-- The input `clk` and a flip-flop clocked by it. -/
def clkWire : Wire := { name := "\\clk", width := 1, portInput := true }

def clkBit : SigBit := .wire clkWire ⟨0, by decide⟩

def register (name : IdString) : Cell :=
  { name := name, type := .dff, parameters := [(.CLK_POLARITY, [.S1])],
    connections := [(.CLK, SigSpec.ofWire clkWire)] }

def readPort (clk : Wire) : Cell :=
  { name := "\\m", type := .memrdV2, parameters := [(.CLK_ENABLE, [.S1]), (.CLK_POLARITY, [.S1])],
    connections := [(.CLK, SigSpec.ofWire clk)] }

def child (inner : List Cell) : Module := { name := "\\child", wires := [clkWire], cells := inner }

def childInstance : Cell :=
  { name := "\\u", type := .other "\\child", parameters := [],
    connections := [(.other "\\clk", SigSpec.ofWire clkWire)] }

def parent (outer : List Cell) : Module :=
  { name := "\\top", wires := [clkWire], cells := outer ++ [childInstance] }

def hierarchy (inner outer : List Cell) : Design := { modules := [child inner, parent outer] }

def twoLevels : Design := hierarchy [register "\\r"] [register "\\r"]

variable {target : Module}

section TwoLevels

variable {inner outer : List Cell}
  (inside : ∀ cell ∈ inner, ∀ design, Design.module design cell.type = none)
  (outside : ∀ cell ∈ outer, ∀ design, Design.module design cell.type = none)

include inside outside

theorem parent_instances (inst : Instance (hierarchy inner outer) (parent outer) path target) :
    path = [] ∧ target = parent outer ∨ path = ["\\u"] ∧ target = child inner := by
  cases inst with
  | here => exact .inl ⟨rfl, rfl⟩
  | @child _ other _ cell _ member _ found rest =>
    rcases List.mem_append.mp member with own | last
    · rw [outside cell own] at found
      cases found
    · obtain rfl := List.mem_singleton.mp last
      obtain rfl : child inner = other := Option.some.inj found
      cases rest with
      | here => exact .inr ⟨rfl, rfl⟩
      | child below _ deeper _ =>
        rw [inside _ below] at deeper
        cases deeper

theorem parent_ranked : Ranked (hierarchy inner outer) (fun name => if name = "\\top" then 1 else 0)
    (parent outer) := by
  intro path target inst cell member _ other found
  rcases parent_instances inside outside inst with ⟨-, rfl⟩ | ⟨-, rfl⟩
  · rcases List.mem_append.mp member with own | last
    · rw [outside cell own] at found
      cases found
    · obtain rfl := List.mem_singleton.mp last
      obtain rfl : child inner = other := Option.some.inj found
      simp [child, parent]
  · rw [inside cell member] at found
    cases found

omit inside outside

theorem parent_joined : nets (hierarchy inner outer) (parent outer) ["\\u"] (SigSpec.ofWire clkWire) =
    nets (hierarchy inner outer) (parent outer) [] (SigSpec.ofWire clkWire) := by
  have port : Alias (hierarchy inner outer) (parent outer)
      ([] ++ [childInstance.name], clkBit) ([], clkBit) :=
    .port (p := (clkBit, clkBit)) (.here _) (List.mem_append_right _ (List.mem_singleton_self _)) rfl
      (show (hierarchy inner outer).module childInstance.type = some (child inner) from rfl)
      (show clkWire ∈ (child inner).wires from List.mem_singleton_self _) rfl (by decide)
  exact congrArg (· :: []) (Quot.sound port)

include inside outside

/-- Cells of both levels that are clocked by the input are on one net. -/
private theorem parent_onClock (sharing : ∀ cell ∈ inner ++ outer,
      isClockedCell cell = true ∨ isClockedRead cell = true →
        cell.getPort .CLK = some (SigSpec.ofWire clkWire) ∧ cell.getParam .CLK_POLARITY = some [.S1]) :
    IsClock (hierarchy inner outer) (parent outer)
      (nets (hierarchy inner outer) (parent outer) [] (SigSpec.ofWire clkWire)) true := by
  rintro path mod cell ⟨inst, member, clocked⟩
  rcases parent_instances inside outside inst with ⟨rfl, rfl⟩ | ⟨rfl, rfl⟩
  · rcases List.mem_append.mp member with own | last
    · obtain ⟨port, param⟩ := sharing cell (List.mem_append_right _ own) clocked
      exact ⟨_, _, port, param, rfl, rfl⟩
    · obtain rfl := List.mem_singleton.mp last
      rcases clocked with clocked | clocked <;> cases clocked
  · obtain ⟨port, param⟩ := sharing cell (List.mem_append_left _ member) clocked
    exact ⟨_, _, port, param, parent_joined, rfl⟩

end TwoLevels

theorem register_internal : ∀ cell ∈ [register "\\r"], ∀ design, Design.module design cell.type = none := by
  rintro cell member design
  obtain rfl := List.mem_singleton.mp member
  rfl

private theorem twoLevels_oneClock : OneClock twoLevels (parent [register "\\r"]) := by
  refine ⟨⟨[], _, register "\\r", .here _, by simp [parent], .inl rfl⟩, _, true,
    parent_onClock register_internal register_internal ?_⟩
  rintro cell member -
  obtain rfl : cell = register "\\r" := by simpa using member
  exact ⟨rfl, rfl⟩

/-- The clock of a read port beside a register. -/
def readWire : Wire := { name := "\\clk2", width := 1 }

def withRead : Module :=
  { name := "\\top", wires := [clkWire, readWire], cells := [register "\\r", readPort readWire] }

def readBit : SigBit := .wire readWire ⟨0, by decide⟩

def oneLevel : Design := { modules := [withRead] }

private theorem withRead_cells (member : cell ∈ withRead.cells)
    (unclocked : isClockedCell cell = false) : oneLevel.module cell.type = none := by
  have cells : cell = register "\\r" ∨ cell = readPort readWire := by simpa [withRead] using member
  rcases cells with rfl | rfl
  · cases unclocked
  · rfl

theorem withRead_instances (inst : Instance oneLevel withRead path target) : target = withRead := by
  cases inst with
  | here => rfl
  | child member unclocked found _ =>
    rw [withRead_cells member unclocked] at found
    cases found

private theorem withRead_alias (x y : List IdString × SigBit) : ¬ Alias oneLevel withRead x y := by
  intro joined
  cases joined with
  | connection inst member _ =>
    rw [withRead_instances inst] at member
    cases member
  | port inst member unclocked found _ _ _ =>
    rw [withRead_instances inst] at member
    rw [withRead_cells member unclocked] at found
    cases found

private theorem withRead_separate : ¬ OneClock oneLevel withRead := by
  rintro ⟨-, clock, polarity, all⟩
  have first : Use oneLevel withRead [] withRead (register "\\r") :=
    ⟨.here withRead, by simp [withRead], .inl rfl⟩
  have second : Use oneLevel withRead [] withRead (readPort readWire) :=
    ⟨.here withRead, by simp [withRead], .inr rfl⟩
  obtain ⟨sig, p, port, -, on, -⟩ := all _ _ _ first
  obtain ⟨sig', p', port', -, on', -⟩ := all _ _ _ second
  obtain rfl : SigSpec.ofWire clkWire = sig := Option.some.inj port
  obtain rfl : SigSpec.ofWire readWire = sig' := Option.some.inj port'
  have same : Quot.mk (Alias oneLevel withRead) (([] : List IdString), clkBit) =
      Quot.mk (Alias oneLevel withRead) ([], readBit) :=
    (List.cons.inj (on.trans on'.symm)).1
  have apart := congrArg (Quot.lift (fun x => decide (x.2 = clkBit))
    fun x y joined => absurd joined (withRead_alias x y)) same
  simp [clkBit, readBit, clkWire, readWire] at apart

/-- A parent that clocks a register and an instance from one input is refused, and a read port with a
clock of its own is overlooked. -/
theorem clock_check_disagrees :
    checkClock twoLevels 2 (parent [register "\\r"]) none =
      .error (.foundClockDiffers "\\clk" "\\clk" "\\r" "\\child") ∧
    OneClock twoLevels (parent [register "\\r"]) ∧
    ¬ AgreesWithFlattening twoLevels 2 (parent [register "\\r"]) ∧
    checkClock oneLevel 1 withRead none = .ok (some ⟨"\\top", clkWire, true⟩) ∧
    ¬ OneClock oneLevel withRead := by
  refine ⟨rfl, twoLevels_oneClock, ?_, rfl, withRead_separate⟩
  rintro ⟨agrees, -⟩
  obtain ⟨clock, value⟩ := agrees.mpr twoLevels_oneClock
  cases value

/-- The read port of the parent uses the clock that the search finds in the child. -/
theorem clock_check_agrees_child :
    AgreesWithFlattening (hierarchy [register "\\r"] [readPort clkWire]) 2 (parent [readPort clkWire]) ∧
    checkClock (hierarchy [register "\\r"] [readPort clkWire]) 2 (parent [readPort clkWire]) none =
      .ok (some ⟨"\\child", clkWire, true⟩) := by
  have port_internal : ∀ cell ∈ [readPort clkWire], ∀ design, Design.module design cell.type = none := by
    rintro cell member design
    obtain rfl := List.mem_singleton.mp member
    rfl
  have located : Located (hierarchy [register "\\r"] [readPort clkWire]) (parent [readPort clkWire])
      [readPort clkWire, childInstance] ["\\u"] ⟨"\\child", clkWire, true⟩ :=
    .skip ⟨rfl, fun _ found => by cases found⟩
      (.child rfl (show _ = some (child [register "\\r"]) from rfl) (.own rfl rfl (by simp) (by simp))
        (by simp))
  refine ⟨(clock_check_agrees_iff (parent_ranked register_internal port_internal) (by decide)).mpr
    (.inl ⟨_, _, located, ?_⟩), rfl⟩
  have clock := parent_onClock register_internal port_internal (by
    intro cell member _
    obtain rfl | rfl : cell = register "\\r" ∨ cell = readPort clkWire := by simpa using member
    · exact ⟨rfl, rfl⟩
    · exact ⟨rfl, rfl⟩)
  intro path mod cell inst member read
  rw [parent_joined]
  exact clock path mod cell ⟨inst, member, .inr read⟩

private theorem checkWires_ok {wires : List Wire} {seen : Bool}
    (done : wires.foldlM (checkWire top clock) seen = .ok true) :
    (∀ w ∈ wires, w.portOutput = false) ∧
      if seen then wires.filter (·.portInput) = [] else
        ∃ w, wires.filter (·.portInput) = [w] ∧ w.width = 1 ∧ clock.owner = top.name ∧
          sigmap top (SigSpec.ofWire clock.clk) = sigmap top (SigSpec.ofWire w) := by
  induction wires generalizing seen with
  | nil =>
    obtain rfl := Except.ok.inj done
    simp
  | cons w wires ih =>
    rw [List.foldlM_cons] at done
    obtain ⟨next, first, rest⟩ := bind_eq_ok.mp done
    obtain ⟨outputs, inputs⟩ := ih rest
    unfold checkWire at first
    split_ifs at first with output input again width other
    · rw [← Except.ok.inj first, if_pos rfl] at inputs
      simp only [not_or, not_not] at other
      simp_all
    · obtain rfl := Except.ok.inj first
      simp_all

theorem execute_one_clock {rank : IdString → Nat} {fuel : Nat} (ranked : Ranked design rank top)
    (enough : rank top.name < fuel) (accepted : execute design fuel top = .ok clock) :
    (∀ w ∈ top.wires, w.portOutput = false) ∧
    ∃ w, top.wires.filter (·.portInput) = [w] ∧ w.width = 1 ∧
      ∀ path mod cell, Instance design top path mod → cell ∈ mod.cells → isClockedCell cell = true →
        path = [] ∧
          OnClock design top [] cell (nets design top [] (SigSpec.ofWire w)) clock.polarity := by
  obtain ⟨_ | found, search, rest⟩ := bind_eq_ok.mp accepted
  · cases rest
  · obtain ⟨seen, wires, last⟩ := bind_eq_ok.mp rest
    split_ifs at last with input
    obtain rfl := Except.ok.inj last
    obtain ⟨outputs, w, only, width, owner, same⟩ := checkWires_ok (input ▸ wires)
    obtain ⟨path, located⟩ := ((checkClock_returns ranked enough).clock found).mp search
    have own : path = [] := by
      obtain ⟨target, -, inst, name, -⟩ := located.exists_use fun _ here => here
      cases inst with
      | here => rfl
      | child member unclocked inside below =>
        obtain ⟨ranked', lower⟩ := ranked.child member unclocked inside
        have := ranked'.le below
        rw [name, owner] at this
        omega
    subst own
    refine ⟨outputs, w, only, width, fun path mod cell inst member clocked => ?_⟩
    obtain ⟨rfl, -, used⟩ := located.uses (fun c here => .inl here) inst member clocked
    cases inst
    rw [← nets_sigmap (.here top), ← same, nets_sigmap (.here top)]
    exact ⟨rfl, onClock_of_cellClock (.here top) used⟩

/-- A register of the top module, which passes its clock on to a module without cells. -/
theorem execute_one_clock_child :
    (∀ w ∈ (parent [register "\\r"]).wires, w.portOutput = false) ∧
    ∃ w, (parent [register "\\r"]).wires.filter (·.portInput) = [w] ∧ w.width = 1 ∧
      ∀ path mod cell, Instance (hierarchy [] [register "\\r"]) (parent [register "\\r"]) path mod →
        cell ∈ mod.cells → isClockedCell cell = true → path = [] ∧
          OnClock (hierarchy [] [register "\\r"]) (parent [register "\\r"]) [] cell
            (nets (hierarchy [] [register "\\r"]) (parent [register "\\r"]) [] (SigSpec.ofWire w)) true :=
  execute_one_clock (parent_ranked (by simp) register_internal) (by decide : _ < 2)
    (rfl : execute (hierarchy [] [register "\\r"]) 2 (parent [register "\\r"]) =
      .ok ⟨"\\top", clkWire, true⟩)

end ManticoreFrontend.Passes.ClockHierarchy
