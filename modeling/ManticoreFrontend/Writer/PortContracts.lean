/- source: passes/manticore/manticore_writer.cc
   digest: The code of each port against the masked store or the read that its cell stands for. -/

import ManticoreFrontend.Writer.MemoryConversion

namespace ManticoreFrontend.Writer.PortContracts

open Foundation BitWord MaskedStores OrderedRun Kernel CellTypes Signals SigTools CellChecker
open Netlist Passes.Repeats Assembly Generator Denotation MemoryCells MemoryAddress MemoryPorts
open ReadPorts MemoryConversion List

abbrev address (v : Valuation) (addr : SigSpec) : Nat := (sigWord v addr).val

variable (v : Valuation) (mem : Memory)

def enabledBits (en : SigSpec) : BitVec mem.width :=
  (sigWord v en).bits.setWidth mem.width

/-- The store that a write port stands for: the enabled bits of the word in range. -/
def portStore (port : WritePort) : Store mem.width where
  target := wordOf mem (address v port.addr)
  mask := enabledBits v mem port.en
  data := offered v mem port.data

/-- The word that a read port stands for: the word in range, else zero. -/
def portRead (addr : SigSpec) (m : Contents mem.width) : BitVec mem.width :=
  (wordOf mem (address v addr)).elim 0#_ m

variable {v : Valuation} {σ : Name → Word} {mod : Module} {mem : Memory} {memid : IdString}
  {st st' : Worker} {codes : List (List MemInstr)} {after : List Nat} {loads : List MemInstr}

variable {en : SigSpec} {runs : List RepeatPattern}

private theorem enabledBits_of_run (connected : mod.Connected v) (width : en.length = mem.width)
    (repeats : getRepeats en (set mod.connections) = some runs) {r : RepeatPattern}
    (member : r ∈ runs) {i : Nat} (low : r.offset ≤ i) (high : i < r.offset + r.width) :
    (enabledBits v mem en).getLsbD i = bitVal v r.bit := by
  have tiles := getRepeats_tiles repeats
  have le := tiles.le_length member
  simp only [length_map, Nat.zero_add] at le
  have inside : i < en.length := by omega
  have bit := tiles.bit_eq member low high
  simp only [Nat.sub_zero, getElem?_map, getElem?_eq_getElem inside, Option.map_some,
    Option.some.injEq] at bit
  have value : (sigWord v en).bits.getLsbD i = bitVal v en[i] := sigWord_bit v en i inside
  rw [enabledBits, BitVec.getLsbD_setWidth, value, ← bit, connected.sigmap]
  simp
  omega

private theorem lastEnabled_eq_some {r : RepeatPattern} (h : lastEnabled v runs = some r) :
    r ∈ runs ∧ bitVal v r.bit = true := by
  have member := mem_of_getLast? h
  simpa using member

private theorem lastMask_getLsbD {w i : Nat} (h : i < w) :
    (lastMask v w runs).getLsbD i = true ↔
      ∃ r, lastEnabled v runs = some r ∧ r.offset ≤ i ∧ i < r.offset + r.width := by
  unfold lastMask
  cases lastEnabled v runs with
  | none => simp
  | some r => simp [runMask_getLsbD r h]

section

variable (connected : mod.Connected v) (repeats : getRepeats en (set mod.connections) = some runs)
  (width : en.length = mem.width)

include connected repeats width

private theorem enabledBits_of_lastMask {i : Nat} (h : i < mem.width)
    (stored : (lastMask v mem.width runs).getLsbD i = true) :
    (enabledBits v mem en).getLsbD i = true := by
  obtain ⟨r, last, low, high⟩ := (lastMask_getLsbD h).mp stored
  obtain ⟨member, enabled⟩ := lastEnabled_eq_some last
  rw [enabledBits_of_run connected width repeats member low high, enabled]

private theorem lastMask_single (single : runs.length = 1) :
    lastMask v mem.width runs = enabledBits v mem en := by
  obtain ⟨r, rfl⟩ := length_eq_one_iff.mp single
  apply BitVec.eq_of_getLsbD_eq
  intro i hi
  obtain ⟨r', member, low, high⟩ :=
    (getRepeats_tiles repeats).covered (Nat.zero_le i) (by simpa [width] using hi)
  obtain rfl := mem_singleton.mp member
  have enable := enabledBits_of_run connected width repeats member low high
  rw [enable, Bool.eq_iff_iff, lastMask_getLsbD hi]
  constructor
  · rintro ⟨r, last, -⟩
    obtain ⟨only, set⟩ := lastEnabled_eq_some last
    rwa [← mem_singleton.mp only]
  · intro set
    exact ⟨r', by simp [lastEnabled, set], low, high⟩

end

/-- The read of a port is the read it stands for exactly at good addresses, or where the word it
wrongly hits is zero. -/
private theorem emittedRead_eq_iff (sized : Sized mem) (addr : SigSpec) (m : Contents mem.width) :
    emittedRead v mem addr m = portRead v mem addr m ↔
      GoodAddr mem addr.length (address v addr) ∨ m (accessed v mem addr) = 0#_ := by
  have fits := sigWord_val_lt v addr
  have good := hit_eq_wordOf sized fits
  by_cases h : GoodAddr mem addr.length (address v addr)
  · have same := good.mpr h
    have equal : emittedRead v mem addr m = portRead v mem addr m := by
      rw [emittedRead, portRead, same]
    exact iff_of_true equal (Or.inl h)
  · have outside : wordOf mem (address v addr) = none :=
      if_neg (fun range => h (goodAddr_of_inRange range))
    have inside : hit mem addr.length (address v addr) = some (accessed v mem addr) := by
      have differ : hit mem addr.length (address v addr) ≠ none := by
        rw [← outside]
        exact fun same => h (good.mp same)
      unfold hit at differ ⊢
      split at differ
      · rename_i passed
        rw [if_pos passed]
      · exact absurd rfl differ
    rw [emittedRead, portRead, inside, outside]
    simp [h]

variable {port : WritePort} {code : List MemInstr} {order : Nat}

private theorem store_apply_iff (sized : Sized mem) (connected : mod.Connected v)
    (width : port.en.length = mem.width)
    (repeats : getRepeats port.en (set mod.connections) = some port.runs)
    (single : port.runs.length = 1) :
    (∀ m, (emittedStore v mem port.addr port.data port.runs).apply m = (portStore v mem port).apply m) ↔
      (sigWord v port.en).val = 0 ∨ GoodAddr mem port.addr.length (address v port.addr) := by
  have mask := lastMask_single connected repeats width single
  have zero : enabledBits v mem port.en = 0#_ ↔ (sigWord v port.en).val = 0 := by
    have bound := sigWord_val_lt v port.en
    rw [width] at bound
    rw [← BitVec.toNat_inj, enabledBits, BitVec.toNat_setWidth, BitVec.toNat_zero]
    exact Eq.congr_left (Nat.mod_eq_of_lt bound)
  rw [emittedStore, portStore, mask, Store.apply_eq_iff_target, zero,
    hit_eq_wordOf sized (sigWord_val_lt v port.addr), or_comm]

private theorem full_step {sigmap : SigMap} {cell : Cell}
    (write : WriteCode v σ sigmap mem cell order code)
    (single : (writePort sigmap cell).runs.length = 1) :
    ∃ i : MemInstr, code = [i] ∧ ∀ m : Contents mem.width, i.step σ m =
      (emittedStore v mem (writePort sigmap cell).addr (writePort sigmap cell).data
        (writePort sigmap cell).runs).apply m := by
  obtain ⟨i, rest, rfl, isStore, alone⟩ := write.code.first
  obtain rfl := alone single
  have store := isStore.mpr single
  refine ⟨i, rfl, fun m => ?_⟩
  have executes : MemInstr.Executes σ m [i] := by
    cases i with
    | LLD => cases store
    | LST => exact ⟨trivial, trivial⟩
  rw [← write.code.effect m executes]
  rfl

theorem schedule_eq {s : List MemInstr} (orders : code.map MemInstr.order = List.range' order code.length)
    (schedule : Schedule MemInstr.order code s) : s = code := by
  have numbered : Numbered MemInstr.order (fun _ => true) code := by
    have increasing : (code.map MemInstr.order).Pairwise (· < ·) := by
      rw [orders]
      exact pairwise_lt_range'
    simpa [Numbered] using pairwise_map.mp increasing
  simpa using schedule.filter_eq numbered

variable (checked : Checked mod) (generated : Generated mod st)
  (run : MemoryRun mod memid mem st st' codes after loads) (connected : mod.Connected v)
  (sat : Satisfies v σ st')

section Range

include checked generated run connected sat

/-- The accesses of a memory respect its range: the bound check is left out only where no address is
out of range, a full-word port stores what its cell stands for, and a read port reads the word in
range or zero. -/
theorem access_range_iff :
    (∀ addrBits, (hasUpperBoundCheck mem addrBits = false →
        ∀ addr < 2 ^ addrBits, InRange mem addr) ↔
      ¬ (mem.startOffset = 0 ∧ 31 ≤ addrBits ∧ PowerSize mem)) ∧
    (∀ (k : Nat) (cell : Cell) (code : List MemInstr),
      (writeOperations st memid)[k]? = some cell → codes[k]? = some code →
      ∀ port, writePort (set mod.connections) cell = port → port.runs.length = 1 →
      ∃ i : MemInstr, code = [i] ∧
        ((∀ m : Contents mem.width, i.step σ m = (portStore v mem port).apply m) ↔
          (sigWord v port.en).val = 0 ∨ GoodAddr mem port.addr.length (address v port.addr))) ∧
    (∀ (k : Nat) (cell : Cell) (i : MemInstr),
      (readOperations st memid)[k]? = some cell → loads[k]? = some i →
      ∀ port, readPort cell = port → ∀ m : Contents mem.width, i.Loads σ m →
      Reads v σ cell port.data port.ctl ⟨mem.width, emittedRead v mem port.addr m⟩ ∧
        (emittedRead v mem port.addr m = portRead v mem port.addr m ↔
          GoodAddr mem port.addr.length (address v port.addr) ∨
            m (accessed v mem port.addr) = 0#_)) := by
  have sized := checked.memories mem (mem_of_find?_eq_some run.found)
  have emitted := run.emitted checked generated sat
  refine ⟨unchecked_inRange_iff sized, ?_, ?_⟩
  · rintro k cell code cellAt codeAt port rfl single
    obtain ⟨start, write⟩ := emitted.writes.get cellAt codeAt
    obtain ⟨i, rfl, step⟩ := full_step write single
    refine ⟨i, rfl, ?_⟩
    simp only [step]
    exact store_apply_iff sized connected write.widthEn write.repeats single
  · rintro k cell i cellAt loadAt port rfl m loaded
    obtain ⟨hk, rfl⟩ := List.getElem?_eq_some_iff.mp cellAt
    obtain ⟨hk', rfl⟩ := List.getElem?_eq_some_iff.mp loadAt
    obtain ⟨mask, order, -, -, code⟩ := (emitted.loads.get hk hk').code
    exact ⟨code.reads m loaded, emittedRead_eq_iff sized _ m⟩

end Range

/-- A memory with the addresses 1 and 2, and a write port with one address bit. -/
def wrapModule : Module :=
  memoryModule 1 1 2 [writeCell 0 (wireSig "en" 1) (wireSig "addr" 1) (wireSig "data" 1)]

/-- The address is `n`, every other wire has all bits set. -/
def addressed (n : Nat) : Valuation := fun w =>
  if w.name = "addr" then BitVec.ofNat _ n else BitVec.allOnes _

private theorem wrapModule_run : Checked wrapModule ∧ Generated wrapModule (cellState wrapModule) ∧
    (∀ v, wrapModule.Connected v) ∧ ∃ codes after loads, MemoryRun wrapModule "m" ⟨"m", 1, 1, 2⟩
      (cellState wrapModule) (memoryState wrapModule) codes after loads :=
  memoryModule_run (by decide +kernel) ⟨by decide, by decide, by decide⟩ (by decide +kernel)
    (by decide +kernel)

private theorem wrapModule_solution (n : Nat) (h : n < 2) : Satisfies (addressed n)
    (candidate (addressed n) [] (memoryState wrapModule)) (memoryState wrapModule) := by
  refine ⟨⟨?_, ?_, ?_, ?_⟩, ?_⟩ <;> revert n <;> decide +kernel

/-- The address 0 lies below the memory, and its store still changes the word of address 2. -/
theorem access_range_wraps : ∃ codes after loads σ, ∃ i : MemInstr,
    Checked wrapModule ∧ Generated wrapModule (cellState wrapModule) ∧
    MemoryRun wrapModule "m" ⟨"m", 1, 1, 2⟩ (cellState wrapModule) (memoryState wrapModule) codes
      after loads ∧
    wrapModule.Connected (addressed 0) ∧ Satisfies (addressed 0) σ (memoryState wrapModule) ∧
    codes = [[i]] ∧ ¬ InRange ⟨"m", 1, 1, 2⟩ (address (addressed 0) (wireSig "addr" 1)) ∧
    i.step σ (fun _ => 0#1) 1 ≠ 0#1 := by
  obtain ⟨checked, generated, connected, codes, after, loads, run⟩ := wrapModule_run
  have sat := wrapModule_solution 0 (by decide)
  have writes := (run.emitted checked generated sat).writes
  have cells : (writeOperations (cellState wrapModule) "m") = wrapModule.cells := by decide +kernel
  obtain ⟨code, rfl⟩ : ∃ code, codes = [code] :=
    length_eq_one_iff.mp (by rw [writes.length_eq, cells]; rfl)
  obtain ⟨start, write⟩ := writes.get (k := 0) (by rw [cells]; rfl) rfl
  obtain ⟨i, rfl, step⟩ := full_step write (by decide +kernel)
  refine ⟨_, after, loads, _, i, checked, generated, run, connected _, sat, rfl, by decide +kernel, ?_⟩
  rw [step]
  decide +kernel

theorem access_range_first_word : ∃ codes after loads σ, ∃ i : MemInstr,
    MemoryRun wrapModule "m" ⟨"m", 1, 1, 2⟩ (cellState wrapModule) (memoryState wrapModule) codes
      after loads ∧ Satisfies (addressed 1) σ (memoryState wrapModule) ∧ codes[0]? = some [i] ∧
    ∀ m : Contents 1, i.step σ m = (portStore (addressed 1) ⟨"m", 1, 1, 2⟩
      (writePort (set wrapModule.connections)
        (writeCell 0 (wireSig "en" 1) (wireSig "addr" 1) (wireSig "data" 1)))).apply m := by
  obtain ⟨checked, generated, connected, codes, after, loads, run⟩ := wrapModule_run
  have sat := wrapModule_solution 1 (by decide)
  have writes := (run.emitted checked generated sat).writes
  have cells : (writeOperations (cellState wrapModule) "m") = wrapModule.cells := by decide +kernel
  obtain ⟨code, rfl⟩ : ∃ code, codes = [code] :=
    length_eq_one_iff.mp (by rw [writes.length_eq, cells]; rfl)
  obtain ⟨i, rfl, exact⟩ := (access_range_iff checked generated run (connected _) sat).2.1 0 _ code
    (by rw [cells]; rfl) rfl _ rfl (by decide +kernel)
  exact ⟨_, after, loads, _, i, run, sat, rfl, exact.mpr (Or.inr (by decide +kernel))⟩

section Strobe

include checked generated run connected sat

/-- The code of a port, run in its order at an address in range, is the store of its cell exactly when
the enabled bits outside the last enabled run are offered as they are. -/
theorem strobe_store_iff {k : Nat} {cell : Cell} {code : List MemInstr} {port : WritePort}
    (cellAt : (writeOperations st memid)[k]? = some cell) (codeAt : codes[k]? = some code)
    (signals : writePort (set mod.connections) cell = port)
    (range : InRange mem (address v port.addr)) (m : Contents mem.width) (s : List MemInstr)
    (schedule : Schedule MemInstr.order code s) (executes : MemInstr.Executes σ m s) :
    MemInstr.run σ m s = (portStore v mem port).apply m ↔
      ∀ i < mem.width, (enabledBits v mem port.en).getLsbD i = true →
        (¬ ∃ r, lastEnabled v port.runs = some r ∧ r.offset ≤ i ∧ i < r.offset + r.width) →
        (offered v mem port.data).getLsbD i =
          (m (address v port.addr - mem.startOffset)).getLsbD i := by
  have emitted := run.emitted checked generated sat
  obtain ⟨start, write⟩ := emitted.writes.get cellAt codeAt
  rw [schedule_eq write.code.orders schedule] at executes ⊢
  have hits : hit mem port.addr.length (address v port.addr) =
      some (address v port.addr - mem.startOffset) :=
    hit_of_inRange (sigWord_val_lt v port.addr) range
  have word : wordOf mem (address v port.addr) = some (address v port.addr - mem.startOffset) :=
    if_pos range
  rw [write.code.effect m executes, signals, emittedStore, portStore, Store.apply, Store.apply, hits,
    word, (Function.update_injective m _).eq_iff, blend_eq_iff]
  refine forall₂_congr (fun i hi => ?_)
  rw [← lastMask_getLsbD hi]
  have stored := enabledBits_of_lastMask connected write.repeats write.widthEn hi
  rw [signals] at stored
  cases mask : (lastMask v mem.width port.runs).getLsbD i <;>
    cases enable : (enabledBits v mem port.en).getLsbD i <;> simp_all

end Strobe

/-- A memory of two words at the addresses 0 and 1, whose write port enables each of two bits. -/
def strobeModule : Module :=
  memoryModule 2 0 2 [writeCell 0 (wireSig "en" 2) (wireSig "addr" 1) (wireSig "data" 2)]

private theorem strobeModule_run : Checked strobeModule ∧
    Generated strobeModule (cellState strobeModule) ∧ (∀ v, strobeModule.Connected v) ∧
    ∃ codes after loads, MemoryRun strobeModule "m" ⟨"m", 2, 0, 2⟩ (cellState strobeModule)
      (memoryState strobeModule) codes after loads :=
  memoryModule_run (by decide +kernel) ⟨by decide, by decide, by decide⟩ (by decide +kernel)
    (by decide +kernel)

/-- The enables are `n`, the address is 0 and every other wire has all bits set. -/
def strobed (n : Nat) : Valuation := fun w =>
  if w.name = "addr" then 0#_ else if w.name = "en" then BitVec.ofNat _ n else BitVec.allOnes _

def strobeCell : Cell := writeCell 0 (wireSig "en" 2) (wireSig "addr" 1) (wireSig "data" 2)

private theorem strobeModule_solution (n : Nat) (h : n < 4) : Satisfies (strobed n)
    (candidate (strobed n) [] (memoryState strobeModule)) (memoryState strobeModule) := by
  refine ⟨⟨?_, ?_, ?_, ?_⟩, ?_⟩ <;> revert n <;> decide +kernel

private theorem strobeModule_executes {codes : List (List MemInstr)} {after : List Nat}
    {loads : List MemInstr} (run : MemoryRun strobeModule "m" ⟨"m", 2, 0, 2⟩ (cellState strobeModule)
      (memoryState strobeModule) codes after loads) (n : Nat) (h : n < 4) :
    ∃ code, codes = [code] ∧ Schedule MemInstr.order code code ∧ MemInstr.Executes
      (candidate (strobed n) [] (memoryState strobeModule)) (fun _ => 0#2) code := by
  have evaluated : ∃ code, portCodes strobeModule "m" ⟨"m", 2, 0, 2⟩ (cellState strobeModule) =
      some ([code], []) ∧ code.Pairwise (fun a b => a.order ≤ b.order) ∧
      ∀ n < 4, MemInstr.Executes (candidate (strobed n) [] (memoryState strobeModule))
        (fun _ => 0#2) code :=
    ⟨[.LLD ⟨.w, 2⟩ ⟨.w, 1⟩ ⟨.m, 0⟩ 1, .LST ⟨.w, 6⟩ ⟨.w, 1⟩ ⟨.w, 7⟩ ⟨.m, 0⟩ 2,
      .LST ⟨.w, 11⟩ ⟨.w, 1⟩ ⟨.w, 12⟩ ⟨.m, 0⟩ 3], by decide +kernel, by decide, by decide +kernel⟩
  obtain ⟨code, value, sorted, executes⟩ := evaluated
  obtain ⟨rfl, -⟩ := Prod.mk.inj (Option.some.inj (run.portCodes_eq.symm.trans value))
  exact ⟨code, rfl, ⟨List.Perm.refl _, sorted⟩, executes n h⟩

/-- With both bits enabled only the upper one is stored. -/
theorem strobe_store_loses_bit : ∃ codes after loads σ code,
    Checked strobeModule ∧ Generated strobeModule (cellState strobeModule) ∧
    MemoryRun strobeModule "m" ⟨"m", 2, 0, 2⟩ (cellState strobeModule) (memoryState strobeModule)
      codes after loads ∧ strobeModule.Connected (strobed 3) ∧
    Satisfies (strobed 3) σ (memoryState strobeModule) ∧ codes = [code] ∧
    Schedule MemInstr.order code code ∧ MemInstr.Executes σ (fun _ => 0#2) code ∧
    MemInstr.run σ (fun _ => 0#2) code 0 = 2#2 ∧
    (portStore (strobed 3) ⟨"m", 2, 0, 2⟩ (writePort (set strobeModule.connections) strobeCell)).apply
      (fun _ => 0#2) 0 = 3#2 := by
  obtain ⟨checked, generated, connected, codes, after, loads, run⟩ := strobeModule_run
  have sat := strobeModule_solution 3 (by decide)
  obtain ⟨code, rfl, schedule, executes⟩ := strobeModule_executes run 3 (by decide)
  have cells : (writeOperations (cellState strobeModule) "m") = [strobeCell] := by decide +kernel
  obtain ⟨start, write⟩ :=
    (run.emitted checked generated sat).writes.get (k := 0) (by rw [cells]; rfl) rfl
  refine ⟨_, after, loads, _, code, checked, generated, run, connected _, sat, rfl, schedule,
    executes, ?_, by decide +kernel⟩
  rw [write.code.effect _ executes]
  decide +kernel

theorem strobe_store_upper_bit : ∃ codes after loads σ code,
    MemoryRun strobeModule "m" ⟨"m", 2, 0, 2⟩ (cellState strobeModule) (memoryState strobeModule)
      codes after loads ∧ Satisfies (strobed 2) σ (memoryState strobeModule) ∧ codes = [code] ∧
    MemInstr.Executes σ (fun _ => 0#2) code ∧
    MemInstr.run σ (fun _ => 0#2) code = (portStore (strobed 2) ⟨"m", 2, 0, 2⟩
      (writePort (set strobeModule.connections) strobeCell)).apply (fun _ => 0#2) := by
  obtain ⟨checked, generated, connected, codes, after, loads, run⟩ := strobeModule_run
  have sat := strobeModule_solution 2 (by decide)
  obtain ⟨code, rfl, schedule, executes⟩ := strobeModule_executes run 2 (by decide)
  have cells : (writeOperations (cellState strobeModule) "m") = [strobeCell] := by decide +kernel
  refine ⟨_, after, loads, _, code, run, sat, rfl, executes, ?_⟩
  refine (strobe_store_iff checked generated run (connected _) sat (k := 0) (by rw [cells]; rfl) rfl
    rfl (by decide +kernel) _ code schedule executes).mpr ?_
  decide +kernel

end ManticoreFrontend.Writer.PortContracts
