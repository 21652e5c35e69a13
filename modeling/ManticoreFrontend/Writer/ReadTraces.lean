/- source: passes/manticore/manticore_writer.cc
   digest: The data of a clocked read port over the cycles of the emitted program. -/

import ManticoreFrontend.Writer.PortContracts

namespace ManticoreFrontend.Writer.ReadTraces

open Foundation BitWord Emission MaskedStores Kernel Constants CellTypes Signals CellChecker Netlist
open Assembly Generator Denotation MemoryCells MemoryAddress MemoryPorts ReadPorts MemoryConversion
open PortContracts Cells

/-- The register of a clocked port that loads the words `loaded`, cycle by cycle. -/
def portState (v : Nat → Valuation) (cell : Cell) (ctl : Controls) (loaded : Nat → Word)
    (initial : Word) : Nat → Word
  | 0 => initial
  | k + 1 => registerNext (v k) cell ctl (portState v cell ctl loaded initial k) (loaded k)

/-- The data of the port: an asynchronous reset shows at once. -/
def portData (v : Nat → Valuation) (cell : Cell) (ctl : Controls) (loaded : Nat → Word)
    (initial : Word) (k : Nat) : Word :=
  if bitVal (v k) ctl.arst then constWord (paramConst cell .ARST_VALUE)
  else portState v cell ctl loaded initial k

/-- What a trace up to the cycle `n` says of a register with this initial value and these names. -/
def Carries (n : Nat) (σ : Nat → Name → Word) (init : Option Const) (p : Name × Name) : Prop :=
  (∀ c ∈ init, σ 0 p.1 = constWord c) ∧ ∀ k < n, σ (k + 1) p.1 = σ k p.2

variable (n : Nat) (v : Nat → Valuation) (σ : Nat → Name → Word)

/-- A trace of the emitted program: every cycle solves its equations, a register starts with its
initial value, and its input is its output in the cycle before. -/
structure Traces (st : Worker) : Prop where
  solves : ∀ k ≤ n, Satisfies (v k) (σ k) st
  registers : ∀ r ∈ st.regs, Carries n σ r.init (r.input, r.output)

/-- The reads of a port in the cycles of a trace. -/
abbrev ReadsTrace (cell : Cell) (data : SigSpec) (ctl : Controls) (loaded : Nat → Word) : Prop :=
  ReadsAll (fun k : Fin (n + 1) => v k) (fun k => σ k) (Carries n σ) cell data ctl (fun k => loaded k)

/-- The initial value of a port; an attribute of the cell stands before the parameter. -/
def portInit (cell : Cell) : Const :=
  (cell.attributes.lookup .INIT).getD (paramConst cell .INIT_VALUE)

variable {n : Nat} {v : Nat → Valuation} {σ : Nat → Name → Word} {P : Prop} {mem : Memory} {cell : Cell}

private theorem registerInit_port (checked : checkMemrdV2 cell = true) :
    registerInit cell = some (definedBits (portInit cell)) := by
  have given : paramBits cell .INIT_VALUE (param cell .WIDTH) = true := by
    simp only [checkMemrdV2, Bool.and_eq_true] at checked
    tauto
  cases own : cell.attributes.lookup .INIT with
  | some value => simp [registerInit, portInit, own]
  | none =>
    cases value : cell.getParam .INIT_VALUE with
    | none => simp [paramBits, value] at given
    | some c => simp [registerInit, portInit, paramConst, own, value]

private theorem readsAll_trace {data : SigSpec} {ctl : Controls} {loaded : Nat → Word}
    (reads : ReadsTrace n v σ cell data ctl loaded) (checked : checkMemrdV2 cell = true)
    (clocked : signedParam cell .CLK_ENABLE = true) {k : Nat} (le : k ≤ n) :
    sigWord (v k) data = portData v cell ctl loaded (constWord (portInit cell)) k := by
  rw [ReadsTrace, ReadsAll, if_pos clocked, registerInit_port checked] at reads
  obtain ⟨current, nextState, ⟨starts, carries⟩, register⟩ := reads
  have state : ∀ k ≤ n, σ k current = portState v cell ctl loaded (constWord (portInit cell)) k := by
    intro k le
    induction k with
    | zero => rw [starts _ rfl, constWord_definedBits, portState]
    | succ k ih =>
      have step : σ (k + 1) current = σ k nextState := carries k (by omega)
      have next := (register ⟨k, by omega⟩).next
      rw [step, next, ih (by omega), portState]
  rw [(register ⟨k, by omega⟩).output, portData, ← state k le]

/-- What the load of a port gives over the cycles. -/
def LoadsPort (n : Nat) (v : Nat → Valuation) (σ : Nat → Name → Word) (mem : Memory) (cell : Cell)
    (i : MemInstr) : Prop :=
  ∀ m : Nat → Contents mem.width, (∀ k ≤ n, i.Loads (σ k) (m k)) →
    ReadsTrace n v σ cell (readPort cell).data (readPort cell).ctl
      (fun k => ⟨mem.width, emittedRead (v k) mem (readPort cell).addr (m k)⟩)

theorem convertReads_runs (sized : Sized mem) {cells : List Cell} {memName : Name} {after : List Nat}
    (checked : ∀ c ∈ cells, checkMemrdV2 c = true) :
    Spec (runs (fun k : Fin (n + 1) => v k) (fun k => σ k) (Carries n σ)) P
      (convertReads mem memName after cells) (fun loads =>
      loads.length = cells.length ∧ ∀ (j : Nat) cell i, cells[j]? = some cell → loads[j]? = some i →
        LoadsPort n v σ mem cell i) := by
  have loop : convertReads mem memName after cells = cells.mapM (convertRead mem memName after) := by
    clear checked
    induction cells with
    | nil => rfl
    | cons cell cells ih => rw [List.mapM_cons, convertReads, ih]
  rw [loop]
  refine Spec.mapM (fun cell member P => ?_)
  obtain ⟨addr, data, ctl, shape⟩ := checkMemrdV2_shape (checked cell member)
  refine (convertRead_runs sized shape).weaken id (fun i _ code => ?_)
  obtain ⟨-, mask, order, -, -, -, -, reads⟩ := code
  rw [LoadsPort, readPort_eq shape]
  exact fun m loaded => reads (fun k => m k) (fun k => loaded k (by omega))

variable {mod : Module} {memid : IdString} {st st' : Worker} {codes : List (List MemInstr)}
  {after : List Nat} {loads : List MemInstr}

private theorem loadsPort_of_run (run : MemoryRun mod memid mem st st' codes after loads)
    (checked : Checked mod) (generated : Generated mod st) (traces : Traces n v σ st') {j : Nat}
    {i : MemInstr} (port : (readOperations st memid)[j]? = some cell) (load : loads[j]? = some i) :
    LoadsPort n v σ mem cell i := by
  have sized := checked.memories mem (List.mem_of_find?_eq_some run.found)
  have sound := generated.sound checked
  obtain ⟨checkedW, checkedR⟩ := operations_checked sound.ports memid
  obtain ⟨grow, gives⟩ := run.assemble (L := runs (fun k : Fin (n + 1) => v k) (fun k => σ k) (Carries n σ))
    (all fun _ => getMemory_keeps)
    (fun _ => all fun _ => convertWrites_spec sized checkedW 1 [])
    (fun _ => convertReads_runs sized checkedR) (all fun _ => record_keeps _)
  have states := (generated.sound_extends checked).2.states (Carries n σ)
    (fun r member => traces.registers r (grow.regs member)) (by simp)
  have solves : ∀ k : Fin (n + 1), Satisfies (v k) (σ k) st' := fun k => traces.solves k (by omega)
  have caches := fun k => sound.caches ((solves k).mono grow)
  exact (gives ⟨solves, traces.registers⟩ ⟨caches, states⟩).2.2.2 j cell i port load

theorem clockedRead_trace (checked : Checked mod) (generated : Generated mod st)
    (run : MemoryRun mod memid mem st st' codes after loads) (traces : Traces n v σ st') {j : Nat}
    {i : MemInstr} (port : (readOperations st memid)[j]? = some cell) (load : loads[j]? = some i)
    (clocked : signedParam cell .CLK_ENABLE = true) {m : Nat → Contents mem.width}
    (loaded : ∀ k ≤ n, i.Loads (σ k) (m k)) :
    let port := readPort cell
    let word := fun k => emittedRead (v k) mem port.addr (m k)
    (∀ k, InRange mem (address (v k) port.addr) →
      word k = m k (address (v k) port.addr - mem.startOffset)) ∧
    ∀ k ≤ n, sigWord (v k) port.data =
      portData v cell port.ctl (fun k => ⟨mem.width, word k⟩) (constWord (portInit cell)) k := by
  refine ⟨fun k range => ?_, fun k le => ?_⟩
  · have fits := sigWord_val_lt (v k) (readPort cell).addr
    simp [emittedRead, hit_of_inRange fits range]
  · have accepted : checkMemrdV2 cell = true :=
      (operations_checked (generated.sound checked).ports memid).2 cell (List.mem_of_getElem? port)
    exact readsAll_trace (loadsPort_of_run run checked generated traces port load m loaded) accepted
      clocked le

/-- A clocked read port with a synchronous reset under its enable and an initial value. -/
def clockedCell : Cell :=
  let cell := readCell [.S0] (wireSig "addr" 2) (wireSig "data" 2)
  let params : List (ParamId × Const) := [(.CLK_ENABLE, [.S1]), (.CE_OVER_SRST, [.S1]),
    (.SRST_VALUE, [.S0, .S1]), (.INIT_VALUE, [.S1, .S0])]
  let ports : List (PortId × SigSpec) := [(.EN, wireSig "en" 1), (.SRST, wireSig "rst" 1)]
  { cell with
    parameters := cell.parameters.map fun p => (p.1, (params.lookup p.1).getD p.2)
    connections := cell.connections.map fun p => (p.1, (ports.lookup p.1).getD p.2) }

def clockedModule : Module := memoryModule 2 0 3 [clockedCell]

/-- Five cycles: the second word is loaded and kept, an access over the end loads zero, and the
reset shows in the last cycle. -/
def clockedInputs (k : Nat) : Valuation := fun w =>
  let rows : List (IdString × List Nat) := [("addr", [1, 2, 3, 0, 0]), ("en", [1, 0, 1, 1, 0]),
    ("rst", [0, 0, 0, 1, 0]), ("data", [1, 3, 3, 0, 2])]
  BitVec.ofNat w.width (((rows.lookup w.name).getD []).getD k 0)

def clockedContents (a : Nat) : BitVec 2 := BitVec.ofNat 2 (4 - a)

/-- The words of the names in these cycles, with their widths. -/
def clockedWords (k : Nat) (n : Name) : Word :=
  let rows : List (Name × Nat × List Nat) := [(⟨.w, 1⟩, 2, [1, 2, 3, 0, 0]),
    (⟨.w, 2⟩, 2, [1, 3, 3, 0, 2]), (⟨.i, 4⟩, 2, [1, 3, 3, 0, 2]), (⟨.o, 5⟩, 2, [3, 3, 0, 2, 2]),
    (⟨.w, 6⟩, 2, [3, 2, 0, 0, 0]), (⟨.w, 7⟩, 1, [0, 0, 0, 1, 0]), (⟨.w, 8⟩, 2, [3, 2, 0, 2, 0]),
    (⟨.w, 9⟩, 1, [1, 0, 1, 1, 0]), (⟨.w, 10⟩, 2, [3, 2, 1, 0, 0]), (⟨.w, 11⟩, 3, [1, 2, 3, 0, 0]),
    (⟨.w, 12⟩, 1, [1, 1, 0, 1, 1]), (⟨.c, 0⟩, 2, [2, 2, 2, 2, 2]), (⟨.c, 1⟩, 3, [3, 3, 3, 3, 3]),
    (⟨.c, 2⟩, 2, [])]
  let (width, values) := (rows.lookup n).getD (0, [])
  ⟨width, BitVec.ofNat width (values.getD k 0)⟩

theorem clockedRead_trace_reset : ∃ codes after loads, ∃ i : MemInstr,
    MemoryRun clockedModule "m" ⟨"m", 2, 0, 3⟩ (cellState clockedModule) (memoryState clockedModule)
      codes after loads ∧ loads = [i] ∧
    Traces 4 clockedInputs clockedWords (memoryState clockedModule) ∧
    (∀ k ≤ 4, i.Loads (clockedWords k) clockedContents) ∧
    ∀ k ≤ 4, sigWord (clockedInputs k) (wireSig "data" 2) =
      portData clockedInputs clockedCell (readPort clockedCell).ctl (fun k => ⟨2, emittedRead
        (clockedInputs k) ⟨"m", 2, 0, 3⟩ (wireSig "addr" 2) clockedContents⟩) (constWord [.S1, .S0]) k := by
  have accepted : Checked clockedModule ∧ Generated clockedModule (cellState clockedModule) ∧
      (∀ v, clockedModule.Connected v) ∧ ∃ codes after loads, MemoryRun clockedModule "m"
        ⟨"m", 2, 0, 3⟩ (cellState clockedModule) (memoryState clockedModule) codes after loads :=
    memoryModule_run (by decide +kernel) ⟨by decide, by decide, by decide⟩ (by decide +kernel)
      (by decide +kernel)
  obtain ⟨checked, generated, -, codes, after, loads, run⟩ := accepted
  have traces : Traces 4 clockedInputs clockedWords (memoryState clockedModule) := by
    refine ⟨fun k le => ⟨⟨?_, ?_, ?_, ?_⟩, ?_⟩, fun r member => ?_⟩
    rotate_right
    · unfold Carries
      revert r
      decide +kernel
    all_goals
      revert k
      decide +kernel
  have code : portCodes clockedModule "m" ⟨"m", 2, 0, 3⟩ (cellState clockedModule) =
      some ([], [.LLD ⟨.w, 10⟩ ⟨.w, 1⟩ ⟨.m, 0⟩ 0]) := by decide +kernel
  obtain ⟨-, rfl⟩ := Prod.mk.inj (Option.some.inj (run.portCodes_eq.symm.trans code))
  have loads : ∀ k ≤ 4, (MemInstr.LLD ⟨.w, 10⟩ ⟨.w, 1⟩ ⟨.m, 0⟩ 0).Loads (clockedWords k)
      clockedContents := by decide +kernel
  have cells : readOperations (cellState clockedModule) "m" = [clockedCell] := by decide +kernel
  have data := (clockedRead_trace checked generated run traces (j := 0) (by rw [cells]; rfl) rfl
    (by decide +kernel) loads).2
  exact ⟨codes, after, _, _, run, rfl, traces, loads, data⟩

end ManticoreFrontend.Writer.ReadTraces
