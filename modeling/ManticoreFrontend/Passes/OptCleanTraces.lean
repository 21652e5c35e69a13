/- source: passes/opt/opt_clean.cc
   digest: What is kept has the same values on every trace of the module with unused cells removed. -/

import ManticoreFrontend.Passes.OptCleanInits

namespace ManticoreFrontend.Passes.OptCleanTraces

open Kernel Constants CellTypes Signals SigTools OptCleanKeep OptCleanCells OptCleanInits
open List

/-- What a cell sees: the values at its inputs, and for a read port the contents of its memory and
what arrives at its write and init ports. -/
structure View (Mem : Type) where
  inputs : PortId → Const
  memory : Option (Mem × List (Cell × (PortId → Const)))

/-- The behaviour of cells and memories. Nothing is assumed of it but that a flip-flop keeps each
bit of `Q` by itself. -/
structure Behaviour where
  Store : Type
  Mem : Type
  start : Cell → Store
  out : Cell → Store → View Mem → PortId → Nat → State
  next : Cell → Store → View Mem → Store
  ffOut : Cell → Nat → State → Store → View Mem → State
  ffNext : Cell → Nat → State → Store → View Mem → State
  memStart : Memory → List Cell → Mem
  memNext : IdString → Mem → List (Cell × (PortId → Const)) → Mem
  -- the value of a bit by the environment and its drivers
  resolve : SigBit → State → List State → State

/-- The state between two steps of time. A flip-flop has one value for each bit of `Q`. -/
structure Snapshot (B : Behaviour) where
  store : Cell → B.Store
  ff : Cell → Nat → SigBit → State
  mem : IdString → Option B.Mem

variable (t : CellTables) (B : Behaviour) (mod : AttrModule)

def readBit (v : SigBit → State) : SigBit → State
  | .const s => s
  | .wire w offset => v (.wire w offset)

def inputsOf (v : SigBit → State) (cell : Cell) (port : PortId) : Const :=
  if t.reads cell port then ((cell.getPort port).getD []).map (fun b => readBit v (sigmap mod b))
  else []

def writers (name : IdString) : List Cell :=
  mod.cells.filter fun cell => isMemWrite cell && decide (memId cell = name)

def writes (v : SigBit → State) (name : IdString) : List (Cell × (PortId → Const)) :=
  (writers mod name).map fun cell => (cell, inputsOf t mod v cell)

variable (s : Snapshot B) (v : SigBit → State)

def viewOf (cell : Cell) : View B.Mem where
  inputs := inputsOf t mod v cell
  memory :=
    if isMemRead cell then
      (s.mem (memId cell)).map (fun contents => (contents, writes t mod v (memId cell)))
    else none

/-- The cell ports whose bits are joined to `b`, with the position and the bit. -/
def driversOf (b : SigBit) (cell : Cell) : List (Cell × PortId × Nat × SigBit) :=
  cell.connections.flatMap fun p =>
    if t.drives cell p.1 then
      (p.2.zipIdx.filter fun e => e.1.isWire && decide (sigmap mod e.1 = b)).map
        fun e => (cell, p.1, e.2, e.1)
    else []

def driverValue (x : Cell × PortId × Nat × SigBit) : State :=
  if t.ff x.1.type && decide (x.2.1 = .Q) then
    B.ffOut x.1 x.2.2.1 (s.ff x.1 x.2.2.1 x.2.2.2) (s.store x.1) (viewOf t B mod s v x.1)
  else B.out x.1 (s.store x.1) (viewOf t B mod s v x.1) x.2.1 x.2.2.1

def evaluate (s : Snapshot B) (env : SigBit → State) (v : SigBit → State) (b : SigBit) : State :=
  B.resolve b (env b) ((mod.cells.flatMap (driversOf t mod b)).map (driverValue t B mod s v))

/-- The values after a number of passes, from all bits undefined. -/
def settle (s : Snapshot B) (env : SigBit → State) (passes : Nat) : SigBit → State :=
  (evaluate t B mod s env)^[passes] (fun _ => .Sx)

def startState : Snapshot B where
  store := B.start
  ff := fun _ _ q => initValue mod (sigmap mod q)
  mem := fun name =>
    (mod.memories.find? (fun m => m.name == name)).map (fun m => B.memStart m (writers mod name))

def tick : Snapshot B where
  store := fun cell => B.next cell (s.store cell) (viewOf t B mod s v cell)
  ff := fun cell i q => B.ffNext cell i (s.ff cell i q) (s.store cell) (viewOf t B mod s v cell)
  mem := fun name => (s.mem name).map (fun contents => B.memNext name contents (writes t mod v name))

/-- The states along a trace: the environment and the number of passes are given for each time. -/
def stateAt (env : Nat → SigBit → State) (passes : Nat → Nat) : Nat → Snapshot B
  | 0 => startState B mod
  | n + 1 =>
    let s := stateAt env passes n
    tick t B mod s (settle t B mod s (env n) (passes n))

def valueAt (env : Nat → SigBit → State) (passes : Nat → Nat) (n k : Nat) (b : SigBit) : State :=
  readBit (settle t B mod (stateAt t B mod env passes n) (env n) k) (sigmap mod b)

variable {B : Behaviour} (t : CellTables) (d : Design) (mod mod' : AttrModule)

/-- The bits that something kept depends on at one step. -/
def Relevant (b : SigBit) : Prop :=
  b ∈ keptBits mod ∨ ∃ cell, Live t d mod cell ∧ b ∈ readBits t (sigmap mod) cell

/-- What the pass leaves of a module, as far as the traces depend on it. -/
structure Reduced : Prop where
  connections : mod'.connections = mod.connections
  cells : ∃ p : Cell → Bool, mod'.cells = mod.cells.filter p ∧
    ∀ cell ∈ mod.cells, p cell = true ↔ Live t d mod cell
  memories : ∀ name, LiveMemory t d mod name →
    mod'.memories.find? (fun m => m.name == name) = mod.memories.find? (fun m => m.name == name)
  initial : ∀ b, b.isWire = true → Relevant t d mod b → initValue mod' b = initValue mod b

def AgreeOn (v v' : SigBit → State) : Prop :=
  ∀ b, b.isWire = true → Relevant t d mod b → v' b = v b

structure Agree (s s' : Snapshot B) : Prop where
  store : ∀ cell, Live t d mod cell → s'.store cell = s.store cell
  ff : ∀ cell i q, Live t d mod cell → (sigmap mod q).isWire = true →
    Relevant t d mod (sigmap mod q) → s'.ff cell i q = s.ff cell i q
  mem : ∀ name, LiveMemory t d mod name → s'.mem name = s.mem name

variable {t d mod mod'}

theorem Reduced.sigmap (reduced : Reduced t d mod mod') : sigmap mod' = sigmap mod := by
  unfold OptCleanCells.sigmap
  rw [reduced.connections]

variable {v' v : SigBit → State} {cell : Cell} {s' : Snapshot B} {b : SigBit} {s : Snapshot B}

theorem mem_port {port : PortId} (member : b ∈ (cell.getPort port).getD []) :
    ∃ sig, (port, sig) ∈ cell.connections ∧ b ∈ sig := by
  cases found : cell.getPort port with
  | none => simp [found] at member
  | some sig => exact ⟨sig, lookup_mem found, by simpa [found] using member⟩

theorem live_of_port {p : PortId × SigSpec} (member : cell ∈ mod.cells)
    (port : p ∈ cell.connections) (drives : t.drives cell p.1 = true) (inside : b ∈ p.2)
    (wire : b.isWire = true) (mapped : (sigmap mod b).isWire = true)
    (relevant : Relevant t d mod (sigmap mod b)) : Live t d mod cell := by
  have driven : sigmap mod b ∈ drivenBits t (sigmap mod) cell := by
    refine mem_flatMap.mpr ⟨p, port, ?_⟩
    rw [if_pos drives, mem_filter]
    exact ⟨mem_map_of_mem (mem_filter.mpr ⟨inside, wire⟩), mapped⟩
  rcases relevant with kept | ⟨reader, live, read⟩
  · exact .root member (.inr ⟨_, driven, kept⟩)
  · exact .feeds live member (.inl ⟨_, driven, read⟩)

theorem live_of_driversOf (member : cell ∈ mod.cells) (wire : b.isWire = true)
    (relevant : Relevant t d mod b) {x : Cell × PortId × Nat × SigBit}
    (driver : x ∈ driversOf t mod b cell) :
    x.1 = cell ∧ Live t d mod cell ∧ sigmap mod x.2.2.2 = b := by
  rw [driversOf, mem_flatMap] at driver
  obtain ⟨p, port, driver⟩ := driver
  split at driver
  · rename_i drives
    obtain ⟨e, inside, rfl⟩ := mem_map.mp driver
    obtain ⟨at_, holds⟩ := mem_filter.mp inside
    simp only [Bool.and_eq_true, decide_eq_true_eq] at holds
    obtain ⟨isWire, rfl⟩ := holds
    have raw : e.1 ∈ p.2 := fst_mem_of_mem_zipIdx at_
    exact ⟨rfl, live_of_port member port drives raw isWire wire relevant, rfl⟩
  · cases driver

theorem Reduced.drivers (reduced : Reduced t d mod mod') (wire : b.isWire = true)
    (relevant : Relevant t d mod b) :
    mod'.cells.flatMap (driversOf t mod' b) = mod.cells.flatMap (driversOf t mod b) := by
  obtain ⟨p, cells, lives⟩ := reduced.cells
  have same : driversOf t mod' b = driversOf t mod b := by
    funext cell
    simp only [driversOf, reduced.sigmap]
  rw [same, cells]
  apply flatMap_filter_of_nil
  intro cell member gone
  rw [eq_nil_iff_forall_not_mem]
  intro x driver
  obtain ⟨-, live, -⟩ := live_of_driversOf member wire relevant driver
  rw [(lives cell member).mpr live] at gone
  cases gone

theorem live_of_writers {name : IdString} (live : LiveMemory t d mod name)
    (member : cell ∈ writers mod name) : Live t d mod cell := by
  obtain ⟨reader, liveReader, read, named⟩ := live
  obtain ⟨inside, port⟩ := mem_filter.mp member
  simp only [Bool.and_eq_true, decide_eq_true_eq] at port
  exact .feeds liveReader inside (.inr ⟨port.1, read, by rw [port.2, named]⟩)

theorem Reduced.writers (reduced : Reduced t d mod mod') {name : IdString}
    (live : LiveMemory t d mod name) : writers mod' name = writers mod name := by
  obtain ⟨p, cells, lives⟩ := reduced.cells
  unfold OptCleanTraces.writers
  rw [cells, filter_filter]
  apply filter_congr
  intro cell member
  cases port : isMemWrite cell && decide (memId cell = name) with
  | false => simp
  | true =>
    have liveCell := live_of_writers live (mem_filter.mpr ⟨member, port⟩)
    simp [(lives cell member).mpr liveCell]

theorem AgreeOn.readBit {v v' : SigBit → State} (agree : AgreeOn t d mod v v') {b : SigBit}
    (relevant : Relevant t d mod b) : readBit v' b = readBit v b := by
  cases b with
  | const s => rfl
  | wire w offset => exact agree _ rfl relevant

theorem Relevant.input {port : PortId} (live : Live t d mod cell)
    (reads : t.reads cell port = true) (member : b ∈ (cell.getPort port).getD []) :
    Relevant t d mod (sigmap mod b) := by
  obtain ⟨sig, connected, inside⟩ := mem_port member
  refine .inr ⟨cell, live, mem_flatMap.mpr ⟨_, connected, ?_⟩⟩
  rw [if_pos reads]
  exact mem_map_of_mem inside

section

variable (reduced : Reduced t d mod mod')

include reduced

theorem inputsOf_agree (agree : AgreeOn t d mod v v') (live : Live t d mod cell) :
    inputsOf t mod' v' cell = inputsOf t mod v cell := by
  funext port
  unfold inputsOf
  rw [reduced.sigmap]
  split
  · rename_i reads
    apply map_congr_left
    intro b member
    exact agree.readBit (.input live reads member)
  · rfl

theorem writes_agree (agree : AgreeOn t d mod v v') {name : IdString}
    (live : LiveMemory t d mod name) : writes t mod' v' name = writes t mod v name := by
  unfold writes
  rw [reduced.writers live]
  apply map_congr_left
  intro cell member
  rw [inputsOf_agree reduced agree (live_of_writers live member)]

theorem viewOf_agree (agree : AgreeOn t d mod v v') (states : Agree t d mod s s')
    (live : Live t d mod cell) : viewOf t B mod' s' v' cell = viewOf t B mod s v cell := by
  unfold viewOf
  rw [inputsOf_agree reduced agree live]
  cases read : isMemRead cell with
  | false => rfl
  | true =>
    have liveMemory : LiveMemory t d mod (memId cell) := ⟨cell, live, read, rfl⟩
    rw [states.mem _ liveMemory, writes_agree reduced agree liveMemory]

/-- One pass keeps the agreement: the drivers of a relevant bit see relevant bits only. -/
theorem evaluate_agree (states : Agree t d mod s s') (env : SigBit → State)
    (agree : AgreeOn t d mod v v') :
    AgreeOn t d mod (evaluate t B mod s env v) (evaluate t B mod' s' env v') := by
  intro b wire relevant
  unfold evaluate
  rw [reduced.drivers wire relevant]
  congr 1
  apply map_congr_left
  intro x driver
  obtain ⟨cell, member, driver⟩ := mem_flatMap.mp driver
  obtain ⟨same, live, joined⟩ := live_of_driversOf member wire relevant driver
  rw [← same] at live
  have ffs : s'.ff x.1 x.2.2.1 x.2.2.2 = s.ff x.1 x.2.2.1 x.2.2.2 :=
    states.ff _ _ _ live (by rw [joined]; exact wire) (by rw [joined]; exact relevant)
  unfold driverValue
  rw [viewOf_agree reduced agree states live, states.store _ live, ffs]

theorem settle_agree (states : Agree t d mod s s') (env : SigBit → State) (passes : Nat) :
    AgreeOn t d mod (settle t B mod s env passes) (settle t B mod' s' env passes) := by
  induction passes with
  | zero => exact fun _ _ _ => rfl
  | succ passes ih =>
    unfold settle
    rw [Function.iterate_succ_apply', Function.iterate_succ_apply']
    exact evaluate_agree reduced states env ih

theorem startState_agree : Agree t d mod (startState B mod) (startState B mod') where
  store := fun _ _ => rfl
  ff := by
    intro cell i q _ wire relevant
    simp only [startState, reduced.sigmap]
    exact reduced.initial _ wire relevant
  mem := by
    intro name live
    simp only [startState]
    rw [reduced.memories name live, reduced.writers live]

theorem tick_agree (agree : AgreeOn t d mod v v') (states : Agree t d mod s s') :
    Agree t d mod (tick t B mod s v) (tick t B mod' s' v') where
  store := by
    intro cell live
    simp only [tick]
    rw [states.store cell live, viewOf_agree reduced agree states live]
  ff := by
    intro cell i q live wire relevant
    simp only [tick]
    rw [states.ff cell i q live wire relevant, states.store cell live,
      viewOf_agree reduced agree states live]
  mem := by
    intro name live
    simp only [tick]
    rw [states.mem name live, writes_agree reduced agree live]

theorem stateAt_agree (env : Nat → SigBit → State) (passes : Nat → Nat) (n : Nat) :
    Agree t d mod (stateAt t B mod env passes n) (stateAt t B mod' env passes n) := by
  induction n with
  | zero => exact startState_agree reduced
  | succ n ih => exact tick_agree reduced (settle_agree reduced ih _ _) ih

theorem valueAt_eq (env : Nat → SigBit → State) (passes : Nat → Nat) (n k : Nat)
    (relevant : Relevant t d mod (sigmap mod b)) :
    valueAt t B mod' env passes n k b = valueAt t B mod env passes n k b := by
  unfold valueAt
  rw [reduced.sigmap]
  exact (settle_agree reduced (stateAt_agree reduced env passes n) (env n) k).readBit relevant

end

variable {cache cache' : Cache}

theorem unused_ff_apart (named : MemoriesNamed mod) (settled : Settled d cache) {cell : Cell}
    (unused : cell ∈ (search t d cache mod).1.unused) (ff : t.ff cell.type = true) {q b : SigBit}
    (member : q ∈ (cell.getPort .Q).getD []) (wire : b.isWire = true)
    (relevant : Relevant t d mod b) : sigmap mod q ≠ b := by
  rintro rfl
  have inside := (search_done (t := t) named settled).1.progress.inside cell unused
  have dead := (search_unused (t := t) named settled inside).mp unused
  have isWire : q.isWire = true := by
    cases q with
    | wire w offset => rfl
    | const s =>
      have fixed : sigmap mod (.const s) = .const s := AliasValues.apply_const mod.connections s
      rw [fixed] at wire
      cases wire
  obtain ⟨sig, connected, bit⟩ := mem_port member
  have drives : t.drives cell .Q = true := by simp [CellTables.drives, t.ffOutput _ ff]
  exact dead (live_of_port inside connected drives bit isWire wire relevant)

theorem remove_reduced {bits : InitBits} (named : MemoriesNamed mod) (settled : Settled d cache)
    (entered : ffInitVals mod = some bits) :
    Reduced t d mod (remove t mod bits (search t d cache mod).1) where
  connections := rfl
  cells := by
    refine ⟨_, rfl, ?_⟩
    intro cell member
    have unused := search_unused (t := t) named settled member
    simp [unused]
  memories := by
    intro name live
    simp only [remove]
    rw [find?_filter]
    congr 1
    funext m
    by_cases same : m.name = name
    · have kept : name ∉ (search t d cache mod).1.memUnused := by
        rw [search_memUnused named settled]
        exact fun unread => unread.2 live
      simp [same, kept]
    · simp [same]
  initial := by
    intro b wire relevant
    apply remove_initValue entered wire
    intro cell unused ff q member
    exact unused_ff_apart named settled unused ff member wire relevant

theorem memWrite_live {cell : Cell} (write : isMemWrite cell = true) (live : Live t d mod cell) :
    Kept d false cell ∨ LiveMemory t d mod (memId cell) := by
  have known := t.memWrite cell.type (by simpa [isMemWrite] using write)
  have silent : drivenBits t (sigmap mod) cell = [] := by
    simp [drivenBits, CellTables.drives, known]
  cases live with
  | root _ isRoot =>
    rcases isRoot with kept | ⟨b, driven, -⟩
    · exact .inl kept
    · rw [silent] at driven
      cases driven
  | feeds reader _ feed =>
    rcases feed with ⟨b, driven, -⟩ | ⟨-, read, same⟩
    · rw [silent] at driven
      cases driven
    · exact .inr ⟨_, reader, read, same.symm⟩

/-- The removal is exact: the live cells survive, output ports, kept wires and the inputs of
surviving cells have their values on every trace, and every surviving memory port names a memory. -/
structure Exact (t : CellTables) (d : Design) (mod mod' : AttrModule) : Prop where
  survivors : ∃ p : Cell → Bool, mod'.cells = mod.cells.filter p ∧
    ∀ cell ∈ mod.cells, p cell = true ↔ Live t d mod cell
  wires : ∀ (B : Behaviour) (env : Nat → SigBit → State) (passes : Nat → Nat) (n k : Nat),
    ∀ w ∈ keptWires mod, ∀ b ∈ SigSpec.ofWire w,
      valueAt t B mod' env passes n k b = valueAt t B mod env passes n k b
  inputs : ∀ (B : Behaviour) (env : Nat → SigBit → State) (passes : Nat → Nat) (n k : Nat),
    ∀ cell ∈ mod'.cells, ∀ port, t.reads cell port = true → ∀ b ∈ (cell.getPort port).getD [],
      valueAt t B mod' env passes n k b = valueAt t B mod env passes n k b
  named : MemoriesNamed mod'

theorem Reduced.live {cell : Cell} (reduced : Reduced t d mod mod') :
    cell ∈ mod'.cells ↔ Live t d mod cell := by
  obtain ⟨p, cells, lives⟩ := reduced.cells
  rw [cells, mem_filter]
  constructor
  · exact fun h => (lives cell h.1).mp h.2
  · exact fun live => ⟨live.inside, (lives cell live.inside).mpr live⟩

theorem named_iff {bits : InitBits} (named : MemoriesNamed mod) (settled : Settled d cache)
    (entered : ffInitVals mod = some bits) :
    MemoriesNamed (remove t mod bits (search t d cache mod).1) ↔
      ∀ cell, Live t d mod cell → isMemRead cell || isMemWrite cell →
        LiveMemory t d mod (memId cell) := by
  have reduced := remove_reduced (t := t) named settled entered
  have stays : ∀ name ∈ mod.memories.map Memory.name,
      (name ∈ (remove t mod bits (search t d cache mod).1).memories.map Memory.name ↔
        LiveMemory t d mod name) := by
    intro name declared
    have unread := search_memUnused (t := t) named settled name
    simp only [remove, mem_map, mem_filter, Bool.not_eq_true', decide_eq_false_iff_not]
    constructor
    · rintro ⟨m, ⟨-, kept⟩, rfl⟩
      by_contra dead
      exact kept (unread.mpr ⟨declared, dead⟩)
    · intro live
      obtain ⟨m, member, rfl⟩ := mem_map.mp declared
      exact ⟨m, ⟨member, fun gone => (unread.mp gone).2 live⟩, rfl⟩
  constructor
  · intro named' cell live port
    have still := named'.memId (reduced.live.mpr live) port
    exact (stays _ (named.memId live.inside port)).mp still
  · intro all cell member port
    have live := reduced.live.mp member
    obtain ⟨id, param, declared⟩ := named cell live.inside port
    refine ⟨id, param, (stays _ declared).mpr ?_⟩
    have here := all cell live port
    rwa [memId, param] at here

/-- Unused-cell removal is exact if and only if every write or init port that is kept for itself
belongs to a memory that a live cell reads. -/
theorem rmunusedModuleCells_exact_iff (named : MemoriesNamed mod) (settled : Settled d cache)
    (run : rmunusedModuleCells t d cache mod = some (mod', cache')) :
    Exact t d mod mod' ↔ ∀ cell ∈ mod.cells, isMemWrite cell = true → Kept d false cell →
      LiveMemory t d mod (memId cell) := by
  obtain ⟨bits, entered, result⟩ := Option.map_eq_some_iff.mp run
  obtain rfl : remove t mod bits (search t d cache mod).1 = mod' := congrArg Prod.fst result
  have reduced := remove_reduced (t := t) named settled entered
  have memories := named_iff (t := t) named settled entered
  constructor
  · intro removed cell member write kept
    have live : Live t d mod cell := .root member (.inl kept)
    exact memories.mp removed.named cell live (by simp [write])
  · intro condition
    refine ⟨reduced.cells, ?_, ?_, memories.mpr ?_⟩
    · intro B env passes n k w kept b member
      apply valueAt_eq reduced
      exact .inl (mem_flatMap.mpr ⟨w, kept, mem_map_of_mem member⟩)
    · intro B env passes n k cell member port reads b bit
      exact valueAt_eq reduced env passes n k (.input (reduced.live.mp member) reads bit)
    · intro cell live port
      cases write : isMemWrite cell with
      | false => exact ⟨cell, live, by simpa [write] using port, rfl⟩
      | true =>
        rcases memWrite_live write live with kept | read
        · exact condition cell live.inside write kept
        · exact read

/-- The tables of the memory ports, a flip-flop and a gate. -/
def smallTables : CellTables where
  known := fun type => type ∈ [.memrd, .dff, .and] ++ memWriteTypes
  input := fun type port =>
    (type = .memrd && port = .ADDR) || (type = .dff && port = .D) ||
      (type = .and && (port = .A || port = .B)) ||
        (type ∈ memWriteTypes && (port = .ADDR || port = .DATA))
  output := fun type port =>
    (type = .memrd && port = .DATA) || (type = .dff && port = .Q) || (type = .and && port = .Y)
  ff := fun type => type = .dff
  memWrite := by
    intro type member
    simp only [memWriteTypes, List.mem_cons, List.not_mem_nil, or_false] at member
    rcases member with rfl | rfl | rfl | rfl <;> exact ⟨by decide, fun port => by simp⟩
  ffOutput := by
    intro type ff
    obtain rfl : type = .dff := by simpa using ff
    rfl

def memory : Memory := { name := "m", width := 1, startOffset := 0, size := 2 }

def memoryParam : List (ParamId × Const) := [(.MEMID, [.S1, .S0, .S1, .S1, .S0, .S1, .S1, .S0])]

def inWire : Wire := { name := "in", width := 1, portInput := true }

def outWire : Wire := { name := "out", width := 1, portOutput := true }

def writePort (attributes : Attributes) : Cell where
  name := "$w"
  type := .memwr
  parameters := memoryParam
  connections := [(.ADDR, SigSpec.ofWire inWire), (.DATA, SigSpec.ofWire inWire)]
  attributes := attributes

def readPort : Cell where
  name := "$r"
  type := .memrd
  parameters := memoryParam
  connections := [(.ADDR, SigSpec.ofWire inWire), (.DATA, SigSpec.ofWire outWire)]

def keptWrite : AttrModule where
  name := "top"
  wires := [inWire]
  memories := [memory]
  cells := [writePort [(keepAttr, [.S1])]]

/-- The kept write port survives, and its memory is deleted. -/
theorem keptWrite_loses_memory :
    MemoriesNamed keptWrite ∧
      ∃ mod' cache', rmunusedModuleCells smallTables [] [] keptWrite = some (mod', cache') ∧
        mod'.cells = keptWrite.cells ∧ mod'.memories = [] ∧ ¬ Exact smallTables [] keptWrite mod' := by
  have named : MemoriesNamed keptWrite := by
    intro cell member _
    obtain rfl : cell = writePort [(keepAttr, [.S1])] := by simpa [keptWrite] using member
    exact ⟨_, rfl, by decide⟩
  refine ⟨named, _, _, rfl, by decide +kernel, by decide +kernel, ?_⟩
  intro removed
  obtain ⟨id, -, declared⟩ :=
    removed.named (writePort [(keepAttr, [.S1])]) (by decide +kernel) (by decide)
  cases declared

def deadWire : Wire := { name := "dead", width := 1 }

def deadRegister : Cell where
  name := "$d"
  type := .dff
  parameters := []
  connections := [(.D, SigSpec.ofWire inWire), (.Q, SigSpec.ofWire deadWire)]

def readWrite : AttrModule where
  name := "top"
  wires := [inWire, outWire, deadWire]
  memories := [memory]
  cells := [deadRegister, writePort [], readPort]
  wireAttributes := fun w => if w = deadWire then [(.init, [.S1])] else []

theorem readWrite_exact :
    ∃ mod' cache', rmunusedModuleCells smallTables [] [] readWrite = some (mod', cache') ∧
      mod'.cells = [writePort [], readPort] ∧ Exact smallTables [] readWrite mod' := by
  have named : MemoriesNamed readWrite := by
    intro cell member port
    simp only [readWrite, mem_cons, not_mem_nil, or_false] at member
    rcases member with rfl | rfl | rfl
    · exact absurd port (by decide)
    · exact ⟨_, rfl, by decide⟩
    · exact ⟨_, rfl, by decide⟩
  refine ⟨_, _, rfl, by decide +kernel, ?_⟩
  apply (rmunusedModuleCells_exact_iff named settled_empty rfl).mpr
  intro cell member write kept
  -- the only write port is not kept for itself
  simp only [readWrite, mem_cons, not_mem_nil, or_false] at member
  rcases member with rfl | rfl | rfl
  · exact absurd write (by decide)
  · rcases kept with alone | ⟨m, found, -⟩
    · exact absurd alone (by decide)
    · cases found
  · exact absurd write (by decide)

end ManticoreFrontend.Passes.OptCleanTraces
