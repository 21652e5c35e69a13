/- source: passes/manticore/manticore_writer.cc (convertMemoryCell, generate)
   digest: The code of all ports of a memory, from any state the generator can be in. -/

import ManticoreFrontend.Foundation.OrderedRun
import ManticoreFrontend.Writer.ReadPorts

namespace ManticoreFrontend.Writer.MemoryConversion

open Foundation BitWord Emission Kernel Constants CellTypes Signals SigTools CellChecker Netlist
open Passes.Repeats Assembly Generator Denotation Cells MemoryCells MemoryAddress MemoryPorts
open Layout ReadPorts Translation

structure WritePort where
  en : SigSpec
  addr : SigSpec
  data : SigSpec
  runs : List RepeatPattern

def writePort (sigmap : SigMap) (cell : Cell) : WritePort :=
  let en := (cell.getPort .EN).getD []
  ⟨en, (cell.getPort .ADDR).getD [], (cell.getPort .DATA).getD [], (getRepeats en sigmap).getD []⟩

structure ReadPort where
  addr : SigSpec
  data : SigSpec
  ctl : Controls

def readPort (cell : Cell) : ReadPort :=
  let bit := fun name => ((cell.getPort name).getD []).headD (.const .Sx)
  ⟨(cell.getPort .ADDR).getD [], (cell.getPort .DATA).getD [], bit .EN, bit .ARST, bit .SRST⟩

variable {cell : Cell}

theorem readPort_eq {addr data : SigSpec} {ctl : Controls}
    (shape : ReadShape cell addr data ctl) : readPort cell = ⟨addr, data, ctl⟩ := by
  simp [readPort, shape.portAddr.connected, shape.portData.connected, shape.portEn, shape.portArst,
    shape.portSrst]

variable {v : Valuation} {σ : Name → Word} {P : Prop} {mem : Memory} {memName : Name}
  {sigmap : SigMap}

structure WriteCode (v : Valuation) (σ : Name → Word) (sigmap : SigMap) (mem : Memory) (cell : Cell)
    (order : Nat) (code : List MemInstr) : Prop where
  widthEn : (writePort sigmap cell).en.length = mem.width
  widthData : (writePort sigmap cell).data.length = mem.width
  repeats : getRepeats (writePort sigmap cell).en sigmap = some (writePort sigmap cell).runs
  code : PortCode v σ mem (writePort sigmap cell).addr (writePort sigmap cell).data
    (writePort sigmap cell).runs order code

/-- The codes of the write ports, numbered one after the other from `order` on. -/
def WriteCodes (v : Valuation) (σ : Name → Word) (sigmap : SigMap) (mem : Memory) :
    List Cell → Nat → List (List MemInstr) → Prop
  | [], _, [] => True
  | cell :: cells, order, code :: codes =>
    WriteCode v σ sigmap mem cell order code ∧
      WriteCodes v σ sigmap mem cells (order + code.length) codes
  | _, _, _ => False

def ends : Nat → List (List MemInstr) → List Nat
  | _, [] => []
  | order, code :: codes => (order + code.length) :: ends (order + code.length) codes

variable {cells : List Cell}

theorem convertWrites_spec (sized : Sized mem)
    (checked : ∀ c ∈ cells, checkMemwrV2 c = true) (order : Nat) (writePortOrder : List Nat) :
    Spec (ledger v σ) P (convertWrites sigmap mem memName cells order writePortOrder)
      (fun r => WriteCodes v σ sigmap mem cells order r.1 ∧
        r.2 = writePortOrder ++ ends order r.1) := by
  induction cells generalizing order writePortOrder P with
  | nil => exact Spec.ret (fun _ => ⟨trivial, by simp [ends]⟩)
  | cons cell cells ih =>
    obtain ⟨en, addr, data, shape⟩ := checkMemwrV2_shape (checked cell (by simp))
    refine .bind (convertWrite_spec sized shape) fun port => ?_
    refine .bind Spec.lift fun portId => ?_
    refine .bind Spec.assert fun _ => ?_
    refine Spec.bind (ih (fun c hc => checked c (by simp [hc])) port.2 _) (fun rest => Spec.ret ?_)
    rintro ⟨⟨codes, after⟩, -, -, ⟨widthEn, widthData, runs, repeats, code, next⟩, -⟩
    have same : writePort sigmap cell = ⟨en, addr, data, runs⟩ := by
      simp [writePort, shape.portEn.connected, shape.portAddr.connected, shape.portData.connected,
        repeats]
    have here : WriteCode v σ sigmap mem cell order port.1 := by
      constructor <;> rw [same] <;> assumption
    rw [next] at codes after
    exact ⟨⟨here, codes⟩, by rw [after]; simp [ends]⟩

section

variable {order : Nat} {codes : List (List MemInstr)}
  (h : WriteCodes v σ sigmap mem cells order codes)

include h

theorem WriteCodes.get {k : Nat} {code : List MemInstr} (port : cells[k]? = some cell)
    (emitted : codes[k]? = some code) : ∃ start, WriteCode v σ sigmap mem cell start code := by
  induction cells generalizing order codes k with
  | nil => simp at port
  | cons first cells ih =>
    cases codes with
    | nil => simp at emitted
    | cons head codes =>
      cases k with
      | zero =>
        obtain rfl : first = cell := by simpa using port
        obtain rfl : head = code := by simpa using emitted
        exact ⟨order, h.1⟩
      | succ k => exact ih h.2 (by simpa using port) (by simpa using emitted)

theorem WriteCodes.length_eq : codes.length = cells.length := by
  induction cells generalizing order codes with
  | nil =>
    cases codes with
    | nil => rfl
    | cons => exact h.elim
  | cons cell cells ih =>
    cases codes with
    | nil => exact h.elim
    | cons code codes => simp [ih h.2]

end

structure LoadCode (v : Valuation) (σ : Name → Word) (mem : Memory) (after : List Nat) (cell : Cell)
    (i : MemInstr) : Prop where
  width : (readPort cell).data.length = mem.width
  code : ∃ mask order, cell.getParam .TRANSPARENCY_MASK = some mask ∧
    transparentOrder after mask 0 0 = some order ∧
    ReadCode v σ mem cell (readPort cell).addr (readPort cell).data (readPort cell).ctl order i

theorem convertReads_spec (sized : Sized mem) {after : List Nat}
    (checked : ∀ c ∈ cells, checkMemrdV2 c = true) :
    Spec (ledger v σ) P (convertReads mem memName after cells)
      (fun loads => List.Forall₂ (LoadCode v σ mem after) cells loads) := by
  induction cells generalizing P with
  | nil => exact Spec.ret (fun _ => List.Forall₂.nil)
  | cons cell cells ih =>
    obtain ⟨addr, data, ctl, shape⟩ := checkMemrdV2_shape (checked cell (by simp))
    refine .bind (convertRead_spec sized shape) fun load => ?_
    refine Spec.bind (ih (fun c hc => checked c (by simp [hc]))) (fun rest => Spec.ret ?_)
    rintro ⟨loads, ⟨width, code⟩, -⟩
    refine List.Forall₂.cons ?_ loads
    have same := readPort_eq shape
    constructor <;> rw [same] <;> assumption

/-- A run of `convertMemoryCell`: the codes of the write ports, the order numbers after them and
the loads of the read ports. -/
structure MemoryRun (mod : Module) (memid : IdString) (mem : Memory) (st st' : Worker)
    (codes : List (List MemInstr)) (after : List Nat) (loads : List MemInstr) : Prop where
  found : mod.memories.find? (·.name = memid) = some mem
  run : ∃ memName s₁ s₂ s₃, getMemory mem st = some (memName, s₁) ∧
    convertWrites (set mod.connections) mem memName (writeOperations st memid) 1 [] s₁ =
      some ((codes, after), s₂) ∧
    convertReads mem memName after (readOperations st memid) s₂ = some (loads, s₃) ∧
    st' = { s₃ with memInstrs := s₃.memInstrs ++ (codes.flatten ++ loads) }

variable {mod : Module} {memid : IdString} {st st' : Worker} {codes : List (List MemInstr)}
  {after : List Nat} {loads : List MemInstr}

variable {s t : Worker}

theorem getMemory_cases {n : Name} (run : getMemory mem s = some (n, t)) :
    t = s ∨ t = { s with
      wireIndex := s.wireIndex + 1
      memories := s.memories ++ [(mem, n)] } := by
  unfold getMemory at run
  split at run <;> obtain ⟨rfl, rfl⟩ := Prod.mk.inj (Option.some.inj run)
  · exact Or.inl rfl
  · exact Or.inr rfl

theorem getMemory_keeps : Keeps v σ (getMemory mem) := by
  intro s n t run
  rcases getMemory_cases run with rfl | rfl
  · exact ⟨Extends.refl _, fun _ _ good => ⟨good, trivial⟩⟩
  · exact ⟨by constructor <;> simp, fun _ _ good =>
      ⟨⟨good.constants, good.availableSigs, good.states⟩, trivial⟩⟩

theorem getMemory_operations {n : Name} (run : getMemory mem s = some (n, t)) (memid : IdString) :
    writeOperations t memid = writeOperations s memid ∧
      readOperations t memid = readOperations s memid := by
  rcases getMemory_cases run with rfl | rfl <;> exact ⟨rfl, rfl⟩

/-- Every run of `convertMemoryCell` is of this form. -/
theorem convertMemoryCell_eq_some :
    convertMemoryCell mod memid st = some ((), st') ↔
      ∃ mem codes after loads, MemoryRun mod memid mem st st' codes after loads := by
  constructor
  · intro run
    obtain ⟨mem, s₀, hm, run⟩ := bind_eq_some.mp run
    have found := (lift_eq_some.mp hm).1
    rw [(lift_eq_some.mp hm).2] at run
    obtain ⟨memName, s, hn, run⟩ := bind_eq_some.mp run
    obtain ⟨s', s'', hg, run⟩ := bind_eq_some.mp run
    rw [(get_eq_some.mp hg).1, (get_eq_some.mp hg).2] at run
    obtain ⟨⟨codes, after⟩, s₂, hw, run⟩ := bind_eq_some.mp run
    obtain ⟨loads, s₃, hr, run⟩ := bind_eq_some.mp run
    rw [(getMemory_operations hn memid).1] at hw
    rw [(getMemory_operations hn memid).2] at hr
    exact ⟨mem, codes, after, loads, found, memName, s, s₂, s₃, hn, hw, hr, modify_eq_some.mp run⟩
  · rintro ⟨mem, codes, after, loads, found, memName, s₁, s₂, s₃, hn, hw, hr, rfl⟩
    rw [← (getMemory_operations hn memid).1] at hw
    rw [← (getMemory_operations hn memid).2] at hr
    exact bind_eq_some.mpr ⟨mem, st, lift_eq_some.mpr ⟨found, rfl⟩, bind_eq_some.mpr
      ⟨memName, s₁, hn, bind_eq_some.mpr ⟨s₁, s₁, get_eq_some.mpr ⟨rfl, rfl⟩, bind_eq_some.mpr
        ⟨_, s₂, hw, bind_eq_some.mpr ⟨loads, s₃, hr, modify_eq_some.mpr rfl⟩⟩⟩⟩⟩

private theorem lookup_all {entries : List (IdString × List Cell)} {key : IdString}
    {Q : Cell → Prop} (all : ∀ e ∈ entries, ∀ c ∈ e.2, Q c) :
    ∀ c ∈ (entries.lookup key).getD [], Q c := by
  intro c hc
  cases found : entries.lookup key with
  | none => simp [found] at hc
  | some cells =>
    rw [found] at hc
    exact all _ (lookup_mem found) c hc

/-- What the ports of a memory emit, from any state whose caches are true. -/
structure Emitted (v : Valuation) (σ : Name → Word) (mod : Module) (memid : IdString) (mem : Memory)
    (st : Worker) (codes : List (List MemInstr)) (after : List Nat) (loads : List MemInstr) :
    Prop where
  writes : WriteCodes v σ (set mod.connections) mem (writeOperations st memid) 1 codes
  numbers : after = ends 1 codes
  loads : List.Forall₂ (LoadCode v σ mem after) (readOperations st memid) loads

theorem operations_checked (ports : PortsChecked st.memoryWrites st.memoryReads) (memid : IdString) :
    (∀ c ∈ writeOperations st memid, checkMemwrV2 c = true) ∧
      ∀ c ∈ readOperations st memid, checkMemrdV2 c = true :=
  ⟨fun c hc => lookup_all ports.1 c ((List.mem_insertionSort _).mp hc), lookup_all ports.2⟩

theorem record_keeps (code : List MemInstr) :
    Keeps v σ (modify fun s => { s with memInstrs := s.memInstrs ++ code }) := by
  intro s u t run
  rw [modify_eq_some.mp run]
  exact ⟨by constructor <;> simp, fun _ _ good =>
    ⟨⟨good.constants, good.availableSigs, good.states⟩, trivial⟩⟩

theorem MemoryRun.assemble {L : Ledger Worker} {Named : Name → Prop} {Recorded : Unit → Prop}
    {Writes : List (List MemInstr) × List Nat → Prop} {Loads : List MemInstr → Prop}
    (run : MemoryRun mod memid mem st st' codes after loads)
    (memory : Spec L True (getMemory mem) Named)
    (writes : ∀ n, Spec L True
      (convertWrites (set mod.connections) mem n (writeOperations st memid) 1 []) Writes)
    (reads : ∀ n, Spec L True (convertReads mem n after (readOperations st memid)) Loads)
    (record : Spec L True (modify fun s => { s with
      memInstrs := s.memInstrs ++ (codes.flatten ++ loads) }) Recorded) :
    L.le st st' ∧ (L.Sat st' → L.Good st → L.Good st' ∧ Writes (codes, after) ∧ Loads loads) := by
  obtain ⟨-, memName, s₁, s₂, s₃, named, wrote, loaded, rfl⟩ := run
  obtain ⟨grow₁, gives₁⟩ := memory _ _ _ named
  obtain ⟨grow₂, gives₂⟩ := writes memName _ _ _ wrote
  obtain ⟨grow₃, gives₃⟩ := reads memName _ _ _ loaded
  obtain ⟨grow₄, gives₄⟩ := record s₃ () _ rfl
  refine ⟨L.trans grow₁ (L.trans grow₂ (L.trans grow₃ grow₄)), fun sat good => ?_⟩
  have sat₃ := L.mono grow₄ sat
  have sat₂ := L.mono grow₃ sat₃
  obtain ⟨good₂, codes⟩ := gives₂ trivial sat₂ (gives₁ trivial (L.mono grow₂ sat₂) good).1
  obtain ⟨good₃, loads⟩ := gives₃ trivial sat₃ good₂
  exact ⟨(gives₄ trivial sat good₃).1, codes, loads⟩

theorem MemoryRun.spec (run : MemoryRun mod memid mem st st' codes after loads) (sized : Sized mem)
    (ports : PortsChecked st.memoryWrites st.memoryReads) :
    Extends st st' ∧ (Satisfies v σ st' → Caches v σ st →
      Caches v σ st' ∧ Emitted v σ mod memid mem st codes after loads) := by
  obtain ⟨checkedW, checkedR⟩ := operations_checked ports memid
  obtain ⟨grow, gives⟩ := run.assemble (L := ledger v σ) getMemory_keeps
    (fun _ => convertWrites_spec sized checkedW 1 []) (fun _ => convertReads_spec sized checkedR)
    (record_keeps _)
  refine ⟨grow, fun sat caches => ?_⟩
  obtain ⟨caches', ⟨codes, ends⟩, loads⟩ := gives sat caches
  exact ⟨caches', codes, by simpa using ends, loads⟩

/-- What the kernel guarantees of a module: its cells pass the check, and its memories have words
and sizes that are C `int`s. -/
structure Checked (mod : Module) : Prop where
  cells : ∀ c ∈ mod.cells, check c = true
  memories : ∀ mem ∈ mod.memories, Sized mem

/-- The states of the generator for a module: any of its cells and memories converted, with signals,
temporaries, constants and further instructions in between. -/
inductive Generated (mod : Module) : Worker → Prop
  | start : Generated mod {}
  | cell {s t : Worker} {c : Cell} (before : Generated mod s) (member : c ∈ mod.cells)
      (run : convertCell c s = some ((), t)) : Generated mod t
  | memory {s t : Worker} {memid : IdString} (before : Generated mod s)
      (run : convertMemoryCell mod memid s = some ((), t)) : Generated mod t
  | signal {s t : Worker} {sig : SigSpec} {n : Name} (before : Generated mod s)
      (run : convertSig sig s = some (n, t)) : Generated mod t
  | temporary {s t : Worker} {width : Nat} {n : Name} (before : Generated mod s)
      (run : temp width s = some (n, t)) : Generated mod t
  | constant {s t : Worker} {c : Const} {n : Name} (before : Generated mod s)
      (run : constGet c s = some (n, t)) : Generated mod t
  | instr {s t : Worker} {i : Instr} (before : Generated mod s) (run : emit i s = some ((), t)) :
      Generated mod t

/-- A state whose solutions make the caches true and whose collected ports are checked. -/
structure Sound (st : Worker) : Prop where
  caches : ∀ {v : Valuation} {σ : Name → Word}, Satisfies v σ st → Caches v σ st
  ports : PortsChecked st.memoryWrites st.memoryReads

theorem Sound.step {α : Type} {m : Emit α} {a : α} {Q : Valuation → (Name → Word) → α → Prop}
    (before : Sound s ∧ Extends {} s) (keeps : ∀ v σ, Spec (ledger v σ) True m (Q v σ))
    (run : m s = some (a, t)) : Sound t ∧ Extends {} t := by
  have grow : Extends s t := (keeps (fun w => 0#(w.width)) (fun _ => ⟨0, 0#0⟩) s a t run).1
  refine ⟨⟨fun {v σ} sat => ?_, grow.ports before.1.ports⟩, before.2.trans grow⟩
  exact ((keeps v σ s a t run).2 trivial sat (before.1.caches (sat.mono grow))).1

theorem Generated.sound_extends (checked : Checked mod) (generated : Generated mod st) :
    Sound st ∧ Extends {} st := by
  induction generated with
  | start => exact ⟨⟨reached_initial.caches, reached_initial.ports⟩, Extends.refl _⟩
  | cell _ member run ih =>
    exact Sound.step ih (fun v σ => convertCell_keeps (checked.cells _ member)) run
  | @memory s t memid _ run ih =>
    obtain ⟨mem, codes, after, loads, steps⟩ := convertMemoryCell_eq_some.mp run
    have sized := checked.memories mem (List.mem_of_find?_eq_some steps.found)
    have spec := fun v σ => steps.spec (v := v) (σ := σ) sized ih.1.ports
    have grow := (spec (fun w => 0#(w.width)) (fun _ => ⟨0, 0#0⟩)).1
    refine ⟨⟨fun {v σ} sat => ?_, grow.ports ih.1.ports⟩, ih.2.trans grow⟩
    exact ((spec v σ).2 sat (ih.1.caches (sat.mono grow))).1
  | signal _ run ih => exact Sound.step ih (fun v σ => convertSig_spec _) run
  | temporary _ run ih => exact Sound.step ih (fun v σ => temp_spec _) run
  | constant _ run ih => exact Sound.step ih (fun v σ => constGet_spec _) run
  | instr _ run ih => exact Sound.step ih (fun v σ => emit_spec _) run

theorem Generated.sound (checked : Checked mod) (generated : Generated mod st) : Sound st :=
  (generated.sound_extends checked).1

theorem MemoryRun.emitted (run : MemoryRun mod memid mem st st' codes after loads)
    (checked : Checked mod) (generated : Generated mod st) (sat : Satisfies v σ st') :
    Emitted v σ mod memid mem st codes after loads := by
  have sized := checked.memories mem (List.mem_of_find?_eq_some run.found)
  have sound := generated.sound checked
  obtain ⟨grow, gives⟩ := run.spec sized sound.ports
  exact (gives sat (sound.caches (sat.mono grow))).2

theorem convertCells_generated (members : cells ⊆ mod.cells)
    (before : Generated mod s) (run : convertCells cells s = some ((), t)) : Generated mod t := by
  induction cells generalizing s with
  | nil =>
    obtain ⟨-, rfl⟩ := pure_eq_some.mp run
    exact before
  | cons c cells ih =>
    obtain ⟨_, s₁, hc, run⟩ := bind_eq_some.mp run
    obtain ⟨member, rest⟩ := List.cons_subset.mp members
    exact ih rest (before.cell member hc) run

/-- The assignment that gives wires, constants and loaded names their words and then runs the
instructions in their order. -/
def candidate (v : Valuation) (given : List (Name × Word)) (st : Worker) : Name → Word :=
  instrSystem.exec (fun n =>
    match st.wires.find? (·.2 = n), st.constDefs.lookup n, given.lookup n with
    | some e, _, _ => ⟨e.1.width, v e.1⟩
    | none, some c, _ => constWord c
    | none, none, some word => word
    | none, none, none => ⟨(st.wireDefs.lookup n).getD 0, 0#_⟩) st.instrs

def finish (m : Emit Unit) (s : Worker) : Worker := ((m s).map (·.2)).getD s

theorem finish_eq {m : Emit Unit} {s : Worker} (accepted : (m s).isSome = true) :
    m s = some ((), finish m s) := by
  obtain ⟨⟨u, t⟩, run⟩ := Option.isSome_iff_exists.mp accepted
  simp [finish, run]

def portCodes (mod : Module) (memid : IdString) (mem : Memory) (st : Worker) :
    Option (List (List MemInstr) × List MemInstr) :=
  (getMemory mem st).bind fun named =>
    (convertWrites (set mod.connections) mem named.1 (writeOperations st memid) 1 [] named.2).bind
      fun writes => (convertReads mem named.1 writes.1.2 (readOperations st memid) writes.2).map
        fun reads => (writes.1.1, reads.1)

theorem MemoryRun.portCodes_eq (run : MemoryRun mod memid mem st st' codes after loads) :
    portCodes mod memid mem st = some (codes, loads) := by
  obtain ⟨-, memName, s₁, s₂, s₃, named, writes, reads, -⟩ := run
  simp [portCodes, named, writes, reads]

def wireSig (name : IdString) (width : Nat) : SigSpec := SigSpec.ofWire ⟨name, width, true, false⟩

def writeCell (portId : Nat) (en addr data : SigSpec) : Cell where
  name := "write"
  type := .memwrV2
  parameters := [(.MEMID, Const.ofInt 0x6d 8), (.CLK_ENABLE, [.S1]), (.CLK_POLARITY, [.S1]),
    (.PORTID, Const.ofInt portId 4), (.PRIORITY_MASK, []), (.WIDTH, Const.ofInt data.length 4),
    (.ABITS, Const.ofInt addr.length 4)]
  connections := [(.CLK, wireSig "clk" 1), (.EN, en), (.ADDR, addr), (.DATA, data)]

def readCell (mask : Const) (addr data : SigSpec) : Cell where
  name := "read"
  type := .memrdV2
  parameters := [(.MEMID, Const.ofInt 0x6d 8), (.CLK_ENABLE, [.S0]), (.CLK_POLARITY, [.S0]),
    (.TRANSPARENCY_MASK, mask), (.COLLISION_X_MASK, [.S0]), (.CE_OVER_SRST, [.S0]),
    (.ARST_VALUE, Const.ofState .Sx data.length), (.SRST_VALUE, Const.ofState .Sx data.length),
    (.INIT_VALUE, Const.ofState .Sx data.length), (.WIDTH, Const.ofInt data.length 4),
    (.ABITS, Const.ofInt addr.length 4)]
  connections := [(.CLK, [.const .Sx]), (.EN, [.const .S1]), (.ARST, [.const .S0]),
    (.SRST, [.const .S0]), (.ADDR, addr), (.DATA, data)]

def memoryModule (width startOffset size : Nat) (cells : List Cell) : Module where
  name := "top"
  memories := [⟨"m", width, startOffset, size⟩]
  cells := cells

abbrev cellState (mod : Module) : Worker := finish (convertCells mod.cells) {}

/-- The state after the cells of a module and its memory `m`. -/
abbrev memoryState (mod : Module) : Worker := finish (convertMemoryCell mod "m") (cellState mod)

theorem memoryModule_run {width startOffset size : Nat}
    (checked : ∀ c ∈ cells, check c = true) (sized : Sized ⟨"m", width, startOffset, size⟩)
    (collected : (convertCells cells {}).isSome = true)
    (accepted : (convertMemoryCell (memoryModule width startOffset size cells) "m"
      (cellState (memoryModule width startOffset size cells))).isSome = true) :
    let mod := memoryModule width startOffset size cells
    Checked mod ∧ Generated mod (cellState mod) ∧ (∀ v, mod.Connected v) ∧
      ∃ codes after loads, MemoryRun mod "m" ⟨"m", width, startOffset, size⟩ (cellState mod)
        (memoryState mod) codes after loads := by
  refine ⟨⟨checked, ?_⟩, ?_, ?_, ?_⟩
  · intro mem member
    rwa [List.mem_singleton.mp member]
  · exact convertCells_generated (List.Subset.refl _) .start (finish_eq collected)
  · intro v c member
    simp [memoryModule] at member
  · obtain ⟨mem, codes, after, loads, run⟩ := convertMemoryCell_eq_some.mp (finish_eq accepted)
    obtain rfl : mem = ⟨"m", width, startOffset, size⟩ := (Option.some.inj run.found).symm
    exact ⟨codes, after, loads, run⟩

end ManticoreFrontend.Writer.MemoryConversion
