/- source: passes/opt/opt_clean.cc (rmunused_module_cells), kernel/ffinit.h (FfInitVals)
   digest: The removal of unused cells and memories, and which cells and memories survive it. -/

import ManticoreFrontend.Foundation.Marking
import ManticoreFrontend.Kernel.AliasValues
import ManticoreFrontend.Passes.OptCleanKeep
import ManticoreFrontend.Writer.Cells

namespace ManticoreFrontend.Passes.OptCleanCells

open Foundation.Marking Kernel Constants CellTypes Signals SigTools OptCleanKeep List
open Writer.Cells (decodeString)

def isMemRead (cell : Cell) : Bool := cell.type = .memrd || cell.type = .memrdV2

/-- The types of the write and init ports of memories. -/
def memWriteTypes : List CellType := [.memwr, .memwrV2, .other "$meminit", .other "$meminit_v2"]

def isMemWrite (cell : Cell) : Bool := cell.type ∈ memWriteTypes

/-- The tables `ct_all` and `builtin_ff_cell_types()`. Write and init ports of memories have no
output, flip-flops the output `Q`. -/
structure CellTables where
  known : CellType → Bool
  input : CellType → PortId → Bool
  output : CellType → PortId → Bool
  ff : CellType → Bool
  memWrite : ∀ type ∈ memWriteTypes, known type = true ∧ ∀ port, output type port = false
  ffOutput : ∀ type, ff type = true → output type .Q = true

def memId (cell : Cell) : IdString := decodeString ((cell.getParam .MEMID).getD [])

variable (t : CellTables)

/-- Ports of unknown types may be outputs. -/
def CellTables.drives (cell : Cell) (port : PortId) : Bool :=
  !t.known cell.type || t.output cell.type port

/-- Ports of unknown types may be inputs. -/
def CellTables.reads (cell : Cell) (port : PortId) : Bool :=
  !t.known cell.type || t.input cell.type port

variable (map : SigBit → SigBit)

/-- The bits of `wire2driver` that a cell is entered for. -/
def drivenBits (cell : Cell) : List SigBit :=
  cell.connections.flatMap fun p =>
    if t.drives cell p.1 then ((p.2.filter SigBit.isWire).map map).filter SigBit.isWire else []

def readBits (cell : Cell) : List SigBit :=
  cell.connections.flatMap fun p => if t.reads cell p.1 then p.2.map map else []

variable (mod : AttrModule)

def sigmap : SigBit → SigBit := apply (set mod.connections)

def keptWires : List Wire :=
  mod.wires.filter fun w => w.portOutput || mod.wireKept w

def keptBits : List SigBit :=
  (keptWires mod).flatMap fun w => (SigSpec.ofWire w).map (sigmap mod)

/-- `FfInitVals::initbits`: the initial value of a bit and the wire bit whose attribute gives it. -/
abbrev InitBits := List (SigBit × State × SigBit)

def initCandidates : InitBits :=
  mod.wires.flatMap fun w =>
    match (mod.wireAttributes w).lookup .init with
    | some initval => ((SigSpec.ofWire w).zip initval).map fun e => (sigmap mod e.1, e.2, e.1)
    | none => []

/-- An undefined value counts for constants only; two values for one bit end the program. -/
def enterInit (bits : InitBits) (e : SigBit × State × SigBit) : Option InitBits :=
  if !(e.2.1 = .S0 || e.2.1 = .S1) && e.1.isWire then some bits
  else match bits.lookup e.1 with
    | some known => if known.1 = e.2.1 then some bits else none
    | none => some (bits ++ [e])

def ffInitVals : Option InitBits := (initCandidates mod).foldlM enterInit []

def isFullyUndef (c : Const) : Bool := c.all fun s => s = .Sx || s = .Sz

/-- One bit of an init attribute is set to `x`; an attribute without a value is erased. -/
def clearAttr (attributes : Attributes) (offset : Nat) : Attributes :=
  match attributes.lookup .init with
  | none => attributes
  | some initval =>
    let initval := initval.set offset .Sx
    if isFullyUndef initval then attributes.filter (fun e => e.1 ≠ .init)
    else attributes.map (fun e => if e.1 = .init then (.init, initval) else e)

def clearInit (attributes : Wire → Attributes) : SigBit → Wire → Attributes
  | .wire w offset => fun w' => if w' = w then clearAttr (attributes w') offset else attributes w'
  | .const _ => attributes

/-- `FfInitVals::remove_init` for one bit. -/
def removeInitBit (s : InitBits × (Wire → Attributes)) (bit : SigBit) :
    InitBits × (Wire → Attributes) :=
  match s.1.lookup (map bit) with
  | none => s
  | some (_, abit) =>
    (s.1.map (fun e => if e.1 = map bit then (e.1, .Sx, e.2.2) else e), clearInit s.2 abit)

/-- The initial values of removed flip-flops are taken out. The order of removal is that of the
names; each step only clears bits. -/
def removeInits (unused : List Cell)
    (s : InitBits × (Wire → Attributes)) : InitBits × (Wire → Attributes) :=
  (unused.flatMap fun cell => if t.ff cell.type then (cell.getPort .Q).getD [] else []).foldl
    (removeInitBit map) s

structure Work where
  queue : List Cell
  unused : List Cell
  memUnused : List IdString

def splitKept (d : Design) : Cache → List Cell → (List Cell × List Cell) × Cache
  | cache, [] => (([], []), cache)
  | cache, cell :: cells =>
    let (kept, cache) := query d cache cell
    let ((queue, unused), cache) := splitKept d cache cells
    if kept then ((cell :: queue, unused), cache) else ((queue, cell :: unused), cache)

/-- The state before the first round: the drivers of kept wires have joined the kept cells. -/
def firstWork (split : List Cell × List Cell) : Work :=
  let driver := fun cell => (drivenBits t (sigmap mod) cell).any (· ∈ keptBits mod)
  { queue := split.1 ++ split.2.filter driver
    unused := split.2.filter (fun cell => !driver cell)
    memUnused := mod.memories.map Memory.name }

/-- Whether a round takes a cell: it drives a bit read by the queue, or writes a memory that the
queue is the first to read. -/
def taken (w : Work) (cell : Cell) : Bool :=
  (drivenBits t map cell).any (· ∈ w.queue.flatMap (readBits t map)) ||
    (isMemWrite cell && memId cell ∈ w.memUnused &&
      (w.queue.filter isMemRead).any (fun e => memId e = memId cell))

def round (w : Work) : Work where
  queue := w.unused.filter (taken t map w)
  unused := w.unused.filter (fun cell => !taken t map w cell)
  memUnused := w.memUnused.filter fun m => !(w.queue.filter isMemRead).any (fun e => memId e = m)

def rounds (t : CellTables) (map : SigBit → SigBit) : Nat → Work → Work
  | 0, w => w
  | n + 1, w => if w.queue.isEmpty then w else rounds t map n (round t map w)

/-- What the search leaves over, and the cache after it. -/
def search (d : Design) (cache : Cache) (mod : AttrModule) : Work × Cache :=
  let split := splitKept d cache mod.cells
  (rounds t (sigmap mod) (mod.cells.length + 1) (firstWork t mod split.1), split.2)

/-- The module without the cells and memories that are left over. -/
def remove (bits : InitBits) (w : Work) : AttrModule :=
  { mod with
    cells := mod.cells.filter (fun cell => !decide (cell ∈ w.unused))
    memories := mod.memories.filter (fun m => !decide (m.name ∈ w.memUnused))
    wireAttributes := (removeInits t (sigmap mod) w.unused (bits, mod.wireAttributes)).2 }

/-- `rmunused_module_cells`; `none` is the error for conflicting init attributes. -/
def rmunusedModuleCells (d : Design) (cache : Cache) (mod : AttrModule) :
    Option (AttrModule × Cache) :=
  (ffInitVals mod).map fun bits =>
    let found := search t d cache mod
    (remove t mod bits found.1, found.2)

variable (t : CellTables) (d : Design) (mod : AttrModule)

/-- A cell that is kept for itself, or drives an output port or a kept wire. -/
def Root (cell : Cell) : Prop :=
  Kept d false cell ∨ ∃ b ∈ drivenBits t (sigmap mod) cell, b ∈ keptBits mod

/-- A cell feeds another that reads a bit it drives, and a write or init cell of a memory feeds the
cells that read the memory. -/
def Feeds (cell reader : Cell) : Prop :=
  (∃ b ∈ drivenBits t (sigmap mod) cell, b ∈ readBits t (sigmap mod) reader) ∨
    (isMemWrite cell = true ∧ isMemRead reader = true ∧ memId cell = memId reader)

/-- The cells from which a kept cell, a kept wire or an output port is reached. -/
def Live : Cell → Prop :=
  Marked mod.cells (Root t d mod) (Feeds t mod)

def LiveMemory (name : IdString) : Prop :=
  ∃ cell, Live t d mod cell ∧ isMemRead cell = true ∧ memId cell = name

def MemoriesNamed : Prop :=
  ∀ cell ∈ mod.cells, isMemRead cell || isMemWrite cell →
    ∃ id, cell.getParam .MEMID = some id ∧ decodeString id ∈ mod.memories.map Memory.name

variable {t d mod} {cell : Cell}

theorem MemoriesNamed.memId (named : MemoriesNamed mod) (member : cell ∈ mod.cells)
    (port : isMemRead cell || isMemWrite cell) : memId cell ∈ mod.memories.map Memory.name := by
  obtain ⟨id, param, found⟩ := named cell member port
  rw [OptCleanCells.memId, param]
  exact found

open Classical in
theorem splitKept_eq (cells : List Cell) {cache : Cache} (settled : Settled d cache) :
    (splitKept d cache cells).1 =
      (cells.filter (Kept d false ·), cells.filter (¬ Kept d false ·)) := by
  induction cells generalizing cache with
  | nil => rfl
  | cons cell cells ih =>
    have answers := query_answers settled cell
    have rest := ih answers.right
    simp only [splitKept]
    cases answer : (query d cache cell).1 with
    | true =>
      have here : Kept d false cell := answers.answer.mp answer
      simp [rest, here]
    | false =>
      have here : ¬ Kept d false cell := by
        rw [← answers.answer, answer]
        simp
      simp [rest, here]

/-- What holds between two rounds. A memory is unused as long as no cell of an earlier queue reads
it. -/
structure Searching (t : CellTables) (d : Design) (mod : AttrModule) (w : Work) : Prop where
  progress : Progress mod.cells (Root t d mod) (Feeds t mod) w.queue w.unused
  memories : ∀ m, m ∈ w.memUnused ↔ m ∈ mod.memories.map Memory.name ∧
    ∀ e ∈ mod.cells, e ∉ w.unused → e ∉ w.queue → isMemRead e = true → memId e ≠ m

theorem firstWork_searching {split : List Cell × List Cell}
    (kept : ∀ c, c ∈ split.1 ↔ c ∈ mod.cells ∧ Kept d false c)
    (others : ∀ c, c ∈ split.2 ↔ c ∈ mod.cells ∧ ¬ Kept d false c) :
    Searching t d mod (firstWork t mod split) := by
  have driver : ∀ c, (drivenBits t (sigmap mod) c).any (· ∈ keptBits mod) = true ↔
      ∃ b ∈ drivenBits t (sigmap mod) c, b ∈ keptBits mod := by
    intro c
    simp only [any_eq_true, decide_eq_true_eq]
  have queued : ∀ c, c ∈ (firstWork t mod split).queue ↔ c ∈ mod.cells ∧ Root t d mod c := by
    simp only [firstWork, mem_append, mem_filter, driver, kept, others, Root]
    tauto
  have left : ∀ c, c ∈ (firstWork t mod split).unused ↔ c ∈ mod.cells ∧ ¬ Root t d mod c := by
    intro c
    simp [firstWork, ← Bool.not_eq_true, others, Root, and_assoc]
  refine ⟨.start queued left, ?_⟩
  intro m
  constructor
  · intro member
    refine ⟨member, ?_⟩
    intro e inside out waiting
    by_cases isRoot : Root t d mod e
    · exact absurd ((queued e).mpr ⟨inside, isRoot⟩) waiting
    · exact absurd ((left e).mpr ⟨inside, isRoot⟩) out
  · exact fun h => h.1

theorem taken_iff {w : Work} (named : MemoriesNamed mod) (now : Searching t d mod w)
    (member : cell ∈ w.unused) :
    taken t (sigmap mod) w cell = true ↔ ∃ e ∈ w.queue, Feeds t mod cell e := by
  simp only [taken, Bool.or_eq_true, Bool.and_eq_true, any_eq_true, decide_eq_true_eq,
    mem_flatMap, mem_filter]
  constructor
  · rintro (⟨b, driven, e, waiting, read⟩ | ⟨⟨write, -⟩, e, ⟨waiting, read⟩, same⟩)
    · exact ⟨e, waiting, .inl ⟨b, driven, read⟩⟩
    · exact ⟨e, waiting, .inr ⟨write, read, same.symm⟩⟩
  · rintro ⟨e, waiting, ⟨b, driven, read⟩ | ⟨write, read, same⟩⟩
    · exact .inl ⟨b, driven, e, waiting, read⟩
    · refine .inr ⟨⟨write, ?_⟩, e, ⟨waiting, read⟩, same.symm⟩
      have inside := now.progress.inside cell member
      rw [now.memories]
      refine ⟨named.memId inside (by simp [write]), ?_⟩
      -- an earlier reader of the memory would have taken the cell with it
      intro e' insideE out done readE equal
      exact now.progress.closed e' insideE out done cell inside (.inr ⟨write, readE, equal.symm⟩) member

theorem Searching.round {w : Work} (named : MemoriesNamed mod) (now : Searching t d mod w) :
    Searching t d mod (round t (sigmap mod) w) where
  progress := now.progress.step _ (fun _ member => taken_iff named now member)
  memories := by
    intro m
    have gone : ∀ e, (e ∉ (OptCleanCells.round t (sigmap mod) w).unused ∧
        e ∉ (OptCleanCells.round t (sigmap mod) w).queue) ↔ e ∉ w.unused := by
      intro e
      simp only [OptCleanCells.round, mem_filter]
      cases taken t (sigmap mod) w e <;> simp
    have unread : m ∈ (OptCleanCells.round t (sigmap mod) w).memUnused ↔
        m ∈ w.memUnused ∧ ∀ e ∈ w.queue, isMemRead e = true → memId e ≠ m := by
      simp [OptCleanCells.round]
    rw [unread, now.memories]
    constructor
    · rintro ⟨⟨inside, earlier⟩, queue⟩
      refine ⟨inside, ?_⟩
      intro e member out waiting
      have outBefore := (gone e).mp ⟨out, waiting⟩
      by_cases queued : e ∈ w.queue
      · exact queue e queued
      · exact earlier e member outBefore queued
    · rintro ⟨inside, all⟩
      have later : ∀ e ∈ mod.cells, e ∉ w.unused → isMemRead e = true → memId e ≠ m := by
        intro e member out
        obtain ⟨out', waiting⟩ := (gone e).mpr out
        exact all e member out' waiting
      refine ⟨⟨inside, fun e member out _ => later e member out⟩, ?_⟩
      intro e queued
      obtain ⟨member, out⟩ := now.progress.queued e queued
      exact later e member out

theorem Searching.rounds (named : MemoriesNamed mod) (n : Nat) {w : Work}
    (now : Searching t d mod w) : Searching t d mod (rounds t (sigmap mod) n w) := by
  induction n generalizing w with
  | zero => exact now
  | succ n ih =>
    unfold OptCleanCells.rounds
    split
    · exact now
    · exact ih (now.round named)

/-- Every round but the last takes a cell, so the search ends. -/
theorem rounds_queue (n : Nat) (w : Work) (small : w.unused.length < n) :
    (rounds t map n w).queue = [] := by
  induction n generalizing w with
  | zero => omega
  | succ n ih =>
    unfold rounds
    split
    · rename_i empty
      exact isEmpty_iff.mp empty
    · have parts := length_eq_length_filter_add (l := w.unused) (taken t map w)
      cases queue : (round t map w).queue with
      | nil => cases n with
        | zero => exact queue
        | succ n => simp [rounds, queue]
      | cons cell rest =>
        apply ih
        have some : (w.unused.filter (taken t map w)).length = rest.length + 1 := by
          have : w.unused.filter (taken t map w) = cell :: rest := queue
          rw [this, length_cons]
        show (w.unused.filter (fun cell => !taken t map w cell)).length < n
        omega

section

variable {cache : Cache} (named : MemoriesNamed mod) (settled : Settled d cache)

include named settled

theorem search_done :
    Searching t d mod (search t d cache mod).1 ∧ (search t d cache mod).1.queue = [] := by
  have split := splitKept_eq mod.cells settled
  have first : Searching t d mod (firstWork t mod (splitKept d cache mod.cells).1) :=
    firstWork_searching (by simp [split]) (by simp [split])
  refine ⟨first.rounds named _, rounds_queue _ _ _ ?_⟩
  have others : (splitKept d cache mod.cells).1.2.length ≤ mod.cells.length := by
    rw [split]
    exact length_filter_le _ _
  have fewer : (firstWork t mod (splitKept d cache mod.cells).1).unused.length ≤
      (splitKept d cache mod.cells).1.2.length := length_filter_le _ _
  omega

theorem search_unused (member : cell ∈ mod.cells) :
    cell ∈ (search t d cache mod).1.unused ↔ ¬ Live t d mod cell := by
  obtain ⟨now, done⟩ := search_done (t := t) named settled
  have progress := now.progress
  rw [done] at progress
  exact progress.final member

theorem search_memUnused (m : IdString) :
    m ∈ (search t d cache mod).1.memUnused ↔
      m ∈ mod.memories.map Memory.name ∧ ¬ LiveMemory t d mod m := by
  obtain ⟨now, done⟩ := search_done (t := t) named settled
  rw [now.memories, done]
  constructor
  · rintro ⟨inside, unread⟩
    refine ⟨inside, ?_⟩
    rintro ⟨e, live, read, same⟩
    have out : e ∉ (search t d cache mod).1.unused := by
      rw [search_unused named settled live.inside]
      exact fun dead => dead live
    exact unread e live.inside out (not_mem_nil) read same
  · rintro ⟨inside, unread⟩
    refine ⟨inside, ?_⟩
    intro e member out _ read same
    rw [search_unused named settled member, not_not] at out
    exact unread ⟨e, out, read, same⟩

end

end ManticoreFrontend.Passes.OptCleanCells
