/- source: passes/manticore/manticore_memory.cc (getDriver, walkWriteEnableConditions,
     walkWriteDataAlongWriteEnableConditions), kernel/modtools.h (ModWalker)
   digest: The walks along the multiplexers of a write enable and of the data written under it. -/

import ManticoreFrontend.Kernel.Signals

namespace ManticoreFrontend.Passes.MemoryWalk

open Kernel Constants CellTypes Signals

/-- A bit of a cell port, as `ModWalker::PortBit`. -/
structure Driver where
  cell : Cell
  port : PortId
  offset : Nat
  deriving DecidableEq

/-- The parts of `ModWalker` the walks use. Ports of unknown cells count as outputs; a `$mux` has
the output `Y` only. -/
structure Walker where
  sigmap : SigBit → SigBit
  cells : List Cell
  output : CellType → PortId → Bool
  output_mux : ∀ port, output .mux port = true → port = .Y

/-- `signal_drivers`, whose keys are mapped bits of wires. -/
def Walker.signalDrivers (w : Walker) (bit : SigBit) : List Driver :=
  w.cells.flatMap fun cell => cell.connections.flatMap fun conn =>
    if w.output cell.type conn.1 then
      ((conn.2.map w.sigmap).zipIdx.filter fun e => e.1.isWire && decide (e.1 = bit)).map
        fun e => ⟨cell, conn.1, e.2⟩
    else []

/-- Failure stands for more than one driver. -/
def Walker.getDriver (w : Walker) (bit : SigBit) : Option (Option Driver) :=
  match w.signalDrivers bit with
  | [] => some none
  | [driver] => some (some driver)
  | _ => none

def asBit : SigSpec → Option SigBit
  | [b] => some b
  | _ => none

def isInput : SigBit → Bool
  | .wire w _ => w.portInput
  | .const _ => false

/-- The loop of `walkWriteEnableConditions` from the cell of the current driver. -/
def walkMuxes (w : Walker) : Nat → Cell → Option (List SigBit)
  | 0, _ => none
  | fuel + 1, cell => do
    guard (cell.type = .mux)
    let condition ← cell.getPort .S >>= asBit
    let portA ← cell.getPort .A
    guard (portA.length = 1)
    guard (¬ SigSpec.isFullyOnes portA)
    let portB ← cell.getPort .B
    let bit ← asBit portB
    if bit.isWire then
      match ← w.getDriver bit with
      | some driver => (condition :: ·) <$> walkMuxes w fuel driver.cell
      | none => pure [condition]
    else do
      guard (SigSpec.isFullyOnes portB)
      pure [condition]

/-- The conditions of a write enable. Without enough `fuel` a chain of multiplexers is not
followed to its end. -/
def walkWriteEnableConditions (w : Walker) (fuel : Nat) (enable : SigBit) : Option (List SigBit) := do
  match ← w.getDriver (w.sigmap enable) with
  | some driver => walkMuxes w fuel driver.cell
  | none => do
    guard (isInput (w.sigmap enable))
    pure [w.sigmap enable]

/-- The loop of `walkWriteDataAlongWriteEnableConditions` with the conditions that are left. -/
def walkData (w : Walker) (dataBit : SigBit) : List SigBit → Driver → Option SigBit
  | [], _ => none
  | condition :: conditions, driver =>
    if driver.cell.type = .mux then do
      let select ← driver.cell.getPort .S >>= asBit
      if w.sigmap select = w.sigmap condition then do
        let bit ← driver.cell.getPort .B >>= (·[driver.offset]?)
        if conditions.isEmpty then pure bit
        else
          match ← w.getDriver bit with
          | some next => walkData w dataBit conditions next
          | none => pure bit
      else pure dataBit
    else pure dataBit

def walkWriteDataAlongWriteEnableConditions (w : Walker) (conditions : List SigBit)
    (dataBit : SigBit) : Option SigBit := do
  guard dataBit.isWire
  let driver ← w.getDriver dataBit
  if conditions.isEmpty then do
    guard driver.isNone
    pure (w.sigmap dataBit)
  else
    match driver with
    | some driver => walkData w dataBit conditions driver
    | none => pure dataBit

/-- A two-valued valuation of all bits; undefined constants may have either value. -/
structure BitValues where
  bit : SigBit → Bool
  zero : bit (.const .S0) = false
  one : bit (.const .S1) = true

/-- A map of bits, such as the alias map of a module, under which no value changes. -/
def BitValues.Respects (v : BitValues) (map : SigBit → SigBit) : Prop :=
  ∀ b, v.bit (map b) = v.bit b

/-- The values respect the aliases, and every bit of a multiplexer comes from its inputs. -/
structure Consistent (w : Walker) (v : BitValues) : Prop where
  aliases : v.Respects w.sigmap
  muxes : ∀ cell ∈ w.cells, cell.type = .mux → ∀ b s y, cell.getPort .B = some b →
    cell.getPort .S = some [s] → (.Y, y) ∈ cell.connections → ∀ (i : Nat) yBit, y[i]? = some yBit →
    ∃ a aBit bBit, cell.getPort .A = some a ∧ a[i]? = some aBit ∧ b[i]? = some bBit ∧
      v.bit yBit = if v.bit s then v.bit bBit else v.bit aBit

variable {w : Walker} {v : BitValues} {bit : SigBit} {driver : Driver}

private theorem asBit_eq {sig : SigSpec} (h : asBit sig = some bit) : sig = [bit] := by
  unfold asBit at h
  split at h
  · rw [Option.some.inj h]
  · cases h

private theorem getDriver_some (h : w.getDriver bit = some (some driver)) :
    driver.cell ∈ w.cells ∧ w.output driver.cell.type driver.port = true ∧
      ∃ sig, (driver.port, sig) ∈ driver.cell.connections ∧
        ∃ b, sig[driver.offset]? = some b ∧ w.sigmap b = bit := by
  have member : driver ∈ w.signalDrivers bit := by
    unfold Walker.getDriver at h
    split at h
    · cases h
    · rename_i single
      simp [single, Option.some.inj (Option.some.inj h)]
    · cases h
  obtain ⟨cell, inCells, member⟩ := List.mem_flatMap.mp member
  obtain ⟨conn, inPorts, member⟩ := List.mem_flatMap.mp member
  split at member
  · rename_i output
    obtain ⟨e, inSig, rfl⟩ := List.mem_map.mp member
    obtain ⟨position, same⟩ := List.mem_filter.mp inSig
    have found := List.mem_zipIdx_iff_getElem?.mp position
    rw [List.getElem?_map] at found
    obtain ⟨b, atOffset, mapped⟩ := Option.map_eq_some_iff.mp found
    simp only [Bool.and_eq_true, decide_eq_true_eq] at same
    exact ⟨inCells, output, conn.2, inPorts, b, atOffset, mapped.trans same.2⟩
  · cases member

theorem Consistent.driven (consistent : Consistent w v) (h : w.getDriver bit = some (some driver))
    (type : driver.cell.type = .mux) {b : SigSpec} {s : SigBit}
    (portB : driver.cell.getPort .B = some b) (portS : driver.cell.getPort .S = some [s]) :
    ∃ a aBit bBit, driver.cell.getPort .A = some a ∧ a[driver.offset]? = some aBit ∧
      b[driver.offset]? = some bBit ∧ v.bit bit = if v.bit s then v.bit bBit else v.bit aBit := by
  obtain ⟨member, output, y, connected, yBit, atOffset, mapped⟩ := getDriver_some h
  rw [type] at output
  rw [w.output_mux _ output] at connected
  rw [← mapped, consistent.aliases yBit]
  exact consistent.muxes _ member type b s y portB portS connected _ _ atOffset

/-- A one-bit multiplexer with the given inputs. -/
structure Stage (cell : Cell) (s a b : SigBit) : Prop where
  type : cell.type = .mux
  portS : cell.getPort .S = some [s]
  portA : cell.getPort .A = some [a]
  portB : cell.getPort .B = some [b]

/-- The selects and `A` inputs of the multiplexers that follow one another through `B`, and the bit
where they end, a constant or without a driver. -/
inductive Chain (w : Walker) : Cell → List (SigBit × SigBit) → SigBit → Prop
  | last {cell : Cell} {s a b : SigBit} (stage : Stage cell s a b)
      (ends : b.isWire = true → w.getDriver b = some none) : Chain w cell [(s, a)] b
  | next {cell : Cell} {s a b last : SigBit} {driver : Driver} {rest : List (SigBit × SigBit)}
      (stage : Stage cell s a b) (driven : w.getDriver b = some (some driver))
      (chain : Chain w driver.cell rest last) : Chain w cell ((s, a) :: rest) last

/-- The first multiplexer that is not selected passes a zero; when all are selected, the last bit
is one. -/
def Masks (v : BitValues) : List (SigBit × SigBit) → SigBit → Prop
  | [], last => v.bit last = true
  | (s, a) :: rest, last => if v.bit s then Masks v rest last else v.bit a = false

def chainValue (v : BitValues) : List (SigBit × SigBit) → SigBit → Bool
  | [], last => v.bit last
  | (s, a) :: rest, last => if v.bit s then chainValue v rest last else v.bit a

private theorem Stage.value {driver : Driver} {s a b bit : SigBit} (stage : Stage driver.cell s a b)
    (consistent : Consistent w v) (driven : w.getDriver bit = some (some driver)) :
    v.bit bit = if v.bit s then v.bit b else v.bit a := by
  obtain ⟨a', aBit, bBit, portA, atA, atB, value⟩ :=
    consistent.driven driven stage.type stage.portB stage.portS
  obtain rfl := Option.some.inj (stage.portA.symm.trans portA)
  rw [List.getElem?_singleton] at atA atB
  simp_all

private theorem Chain.value {cell : Cell} {stages : List (SigBit × SigBit)} {last : SigBit}
    (consistent : Consistent w v) (chain : Chain w cell stages last) :
    ∀ driver : Driver, driver.cell = cell → ∀ bit, w.getDriver bit = some (some driver) →
      v.bit bit = chainValue v stages last := by
  induction chain with
  | last stage ends =>
    rintro driver rfl bit driven
    exact stage.value consistent driven
  | next stage below chain ih =>
    rintro driver rfl bit driven
    rw [stage.value consistent driven, ih _ rfl _ below, chainValue]

private theorem of_guard {p : Prop} [Decidable p] {u : Unit}
    (h : (if p then pure () else failure : Option Unit) = some u) : p := by
  split at h
  · assumption
  · cases h

variable {conditions : List SigBit}

theorem walkMuxes_chain {fuel : Nat} {cell : Cell} (h : walkMuxes w fuel cell = some conditions) :
    ∃ stages last, Chain w cell stages last ∧ conditions = stages.map Prod.fst := by
  induction fuel generalizing cell conditions with
  | zero => cases h
  | succ fuel ih =>
    simp only [walkMuxes, guard, Option.bind_eq_bind, Option.bind_eq_some_iff] at h
    obtain ⟨_, type, s, ⟨portS, connS, single⟩, portA, connA, _, one, _, -, portB, connB, b, bitB,
      run⟩ := h
    obtain ⟨a, rfl⟩ := List.length_eq_one_iff.mp (of_guard one)
    rw [asBit_eq single] at connS
    rw [asBit_eq bitB] at connB
    have stage : Stage cell s a b := ⟨of_guard type, connS, connA, connB⟩
    split at run
    · obtain ⟨found, driven, run⟩ := Option.bind_eq_some_iff.mp run
      cases found with
      | none =>
        obtain rfl := Option.some.inj run
        exact ⟨_, _, .last stage fun _ => driven, rfl⟩
      | some driver =>
        obtain ⟨rest, below, rfl⟩ := Option.map_eq_some_iff.mp run
        obtain ⟨stages, last, chain, rfl⟩ := ih below
        exact ⟨_, _, .next stage driven chain, rfl⟩
    · rename_i constant
      obtain ⟨-, -, run⟩ := Option.bind_eq_some_iff.mp run
      obtain rfl := Option.some.inj run
      exact ⟨_, _, .last stage fun wire => absurd wire constant, rfl⟩

private theorem chain_conditions (stages : List (SigBit × SigBit)) (last : SigBit) :
    (chainValue v stages last = true ↔ ∀ c ∈ stages.map Prod.fst, v.bit c = true) ↔
      Masks v stages last := by
  induction stages with
  | nil => simp [chainValue, Masks]
  | cons stage stages ih =>
    obtain ⟨s, a⟩ := stage
    cases select : v.bit s <;> simp_all [chainValue, Masks]

/-- An enable bit without a driver is its own condition. Those of a driven one mean the enable
exactly when the chain of multiplexers masks it. -/
theorem walkWriteEnableConditions_iff {fuel : Nat} {enable : SigBit} {conditions : List SigBit}
    (returns : walkWriteEnableConditions w fuel enable = some conditions) :
    (w.getDriver (w.sigmap enable) = some none ∧ ∀ v, Consistent w v →
      (v.bit enable = true ↔ ∀ c ∈ conditions, v.bit c = true)) ∨
    ∃ driver stages last, w.getDriver (w.sigmap enable) = some (some driver) ∧
      Chain w driver.cell stages last ∧ ∀ v, Consistent w v →
        ((v.bit enable = true ↔ ∀ c ∈ conditions, v.bit c = true) ↔ Masks v stages last) := by
  obtain ⟨found, driven, run⟩ := Option.bind_eq_some_iff.mp returns
  cases found with
  | none =>
    obtain ⟨-, -, run⟩ := Option.bind_eq_some_iff.mp run
    obtain rfl := Option.some.inj run
    refine .inl ⟨driven, fun v consistent => ?_⟩
    simp [consistent.aliases enable]
  | some driver =>
    obtain ⟨stages, last, chain, rfl⟩ := walkMuxes_chain run
    refine .inr ⟨driver, stages, last, driven, chain, fun v consistent => ?_⟩
    rw [← consistent.aliases enable, chain.value consistent driver rfl _ driven]
    exact chain_conditions stages last

/-- A one-bit multiplexer. -/
structure Mux where
  s : SigBit
  a : SigBit
  b : SigBit
  y : SigBit

def Mux.cell (m : Mux) : Cell :=
  ⟨"$mux", .mux, [], [(.A, [m.a]), (.B, [m.b]), (.S, [m.s]), (.Y, [m.y])], []⟩

def muxWalker (muxes : List Mux) : Walker where
  sigmap := id
  cells := muxes.map Mux.cell
  output := fun _ port => decide (port = .Y)
  output_mux := fun _ => of_decide_eq_true

private theorem muxWalker_consistent {muxes : List Mux}
    (values : ∀ m ∈ muxes, v.bit m.y = if v.bit m.s then v.bit m.b else v.bit m.a) :
    Consistent (muxWalker muxes) v := by
  refine ⟨fun _ => rfl, fun cell member type b s y portB portS portY i yBit atY => ?_⟩
  obtain ⟨m, listed, rfl⟩ := List.mem_map.mp member
  have connY : y = [m.y] := by simpa [Mux.cell] using portY
  obtain rfl := Option.some.inj portB
  obtain rfl := List.singleton_inj.mp (Option.some.inj portS)
  rw [connY, List.getElem?_singleton] at atY
  split at atY
  · rename_i first
    subst first
    obtain rfl := Option.some.inj atY
    exact ⟨_, _, _, rfl, rfl, rfl, values m listed⟩
  · cases atY

def trueAt (ones : List SigBit) (constants : .const .S0 ∉ ones ∧ .const .S1 ∈ ones) : BitValues where
  bit b := decide (b ∈ ones)
  zero := by simp [constants.1]
  one := by simp [constants.2]

def bitOf (name : IdString) : SigBit := .wire { name := name, width := 1 } 0

def orWalker : Walker := muxWalker [⟨bitOf "s", bitOf "a", .const .S1, bitOf "e"⟩]

def orValues : BitValues := trueAt [.const .S1, bitOf "a", bitOf "e"] (by decide)

theorem orWalker_unmasked : Consistent orWalker orValues ∧
    walkWriteEnableConditions orWalker 1 (bitOf "e") = some [bitOf "s"] ∧
    orValues.bit (bitOf "e") = true ∧ orValues.bit (bitOf "s") = false :=
  ⟨muxWalker_consistent (by decide), by decide, by decide, by decide⟩

/-- Multiplexers with the selects `s` and `t` before the enable `e` and before the data `d`. -/
def chainWalker : Walker := muxWalker [
  ⟨bitOf "s", .const .S0, bitOf "f", bitOf "e"⟩, ⟨bitOf "t", .const .S0, .const .S1, bitOf "f"⟩,
  ⟨bitOf "s", bitOf "q", bitOf "c", bitOf "d"⟩, ⟨bitOf "t", bitOf "q", bitOf "i", bitOf "c"⟩]

/-- Only the first select is set. -/
def halfSelected : BitValues :=
  trueAt [.const .S1, bitOf "s", bitOf "q", bitOf "c", bitOf "d"] (by decide)

theorem chainWalker_conditions :
    walkWriteEnableConditions chainWalker 2 (bitOf "e") = some [bitOf "s", bitOf "t"] ∧
    Consistent chainWalker halfSelected ∧
    (halfSelected.bit (bitOf "e") = true ↔ ∀ c ∈ [bitOf "s", bitOf "t"], halfSelected.bit c = true) ∧
    ∃ driver stages last, chainWalker.getDriver (bitOf "e") = some (some driver) ∧
      Chain chainWalker driver.cell stages last ∧ Masks halfSelected stages last := by
  have walk : walkWriteEnableConditions chainWalker 2 (bitOf "e") = some [bitOf "s", bitOf "t"] := by
    decide
  have consistent : Consistent chainWalker halfSelected := muxWalker_consistent (by decide)
  have same : halfSelected.bit (bitOf "e") = true ↔
      ∀ c ∈ [bitOf "s", bitOf "t"], halfSelected.bit c = true := by decide
  obtain ⟨undriven, -⟩ | ⟨driver, stages, last, driven, chain, means⟩ :=
    walkWriteEnableConditions_iff walk
  · exact absurd undriven (by decide)
  · exact ⟨walk, consistent, same, driver, stages, last, driven, chain,
      (means halfSelected consistent).mp same⟩

private theorem walkData_value (consistent : Consistent w v) {dataBit r : SigBit}
    (enabled : ∀ c ∈ conditions, v.bit c = true) {bit : SigBit} {driver : Driver}
    (driven : w.getDriver bit = some (some driver)) (same : v.bit bit = v.bit dataBit)
    (run : walkData w dataBit conditions driver = some r) : v.bit r = v.bit dataBit := by
  induction conditions generalizing bit driver with
  | nil => cases run
  | cons condition conditions ih =>
    obtain ⟨here, rest⟩ := List.forall_mem_cons.mp enabled
    rw [walkData] at run
    split at run
    · rename_i type
      obtain ⟨s, select, run⟩ := Option.bind_eq_some_iff.mp run
      obtain ⟨portS, connS, single⟩ := Option.bind_eq_some_iff.mp select
      rw [asBit_eq single] at connS
      split at run
      · rename_i matches'
        obtain ⟨next, read, run⟩ := Option.bind_eq_some_iff.mp run
        obtain ⟨portB, connB, atB⟩ := Option.bind_eq_some_iff.mp read
        obtain ⟨a, aBit, bBit, -, -, atB', value⟩ := consistent.driven driven type connB connS
        have set : v.bit s = true := by
          rw [← consistent.aliases s, matches', consistent.aliases, here]
        obtain rfl := Option.some.inj (atB.symm.trans atB')
        rw [set, if_pos rfl, same] at value
        split at run
        · rw [← Option.some.inj run, value]
        · obtain ⟨found, driven', run⟩ := Option.bind_eq_some_iff.mp run
          cases found with
          | none => rw [← Option.some.inj run, value]
          | some driver' => exact ih rest driven' value.symm run
      · rw [Option.some.inj run]
    · rw [Option.some.inj run]

/-- Under the conditions of a write the walked bit has the value of the data bit. -/
theorem walkWriteData_preserves {conditions : List SigBit} {dataBit r : SigBit}
    (returns : walkWriteDataAlongWriteEnableConditions w conditions dataBit = some r)
    (consistent : Consistent w v) (enabled : ∀ c ∈ conditions, v.bit c = true) :
    v.bit r = v.bit dataBit := by
  obtain ⟨-, -, run⟩ := Option.bind_eq_some_iff.mp returns
  obtain ⟨found, driven, run⟩ := Option.bind_eq_some_iff.mp run
  split at run
  · obtain ⟨-, -, run⟩ := Option.bind_eq_some_iff.mp run
    rw [← Option.some.inj run, consistent.aliases]
  · cases found with
    | none => rw [Option.some.inj run]
    | some driver => exact walkData_value consistent enabled driven rfl run

/-- Both selects are set, and the data differ from the old ones. -/
def bothSelected : BitValues :=
  trueAt [.const .S1, bitOf "s", bitOf "t", bitOf "e", bitOf "f", bitOf "q"] (by decide)

theorem chainWalker_data :
    walkWriteDataAlongWriteEnableConditions chainWalker [bitOf "s", bitOf "t"] (bitOf "d") =
      some (bitOf "i") ∧
    bothSelected.bit (bitOf "i") = bothSelected.bit (bitOf "d") := by
  have walk : walkWriteDataAlongWriteEnableConditions chainWalker [bitOf "s", bitOf "t"] (bitOf "d") =
    some (bitOf "i") := by decide
  exact ⟨walk, walkWriteData_preserves walk (muxWalker_consistent (by decide)) (by decide)⟩

end ManticoreFrontend.Passes.MemoryWalk
