/- source: passes/proc/proc_mux.cc, techlibs/common/simlib.v
   digest: The multiplexers of one switch: in use order, and their output is the first case that is
     hit. -/

import ManticoreFrontend.Foundation.Dataflow
import ManticoreFrontend.Passes.ProcMuxGroups

namespace ManticoreFrontend.Passes.ProcMuxCells

open List hiding choose
open Foundation GuardedChoice Dataflow Kernel Constants Signals ProcMux ProcMuxGroups

def reads (sig : MuxSig) : List Nat :=
  sig.filterMap (fun b => match b with
    | .out cell _ => some cell
    | .bit _ => none)

def uses (cell : MuxCell) : List Nat := reads cell.a ++ cell.parts.flatMap (fun p => reads p.2)

variable {v : Valuation} {y z : Nat → Const}

private theorem state_congr {b : MuxBit} (same : ∀ n ∈ reads [b], y n = z n) :
    b.state v y = b.state v z := by
  cases b with
  | bit b => rfl
  | out cell index => rw [MuxBit.state, MuxBit.state, same cell (by simp [reads])]

theorem value_congr {sig : MuxSig} (same : ∀ n ∈ reads sig, y n = z n) :
    MuxSig.value v y sig = MuxSig.value v z sig := by
  refine map_congr_left (fun b member => state_congr (fun n h => same n ?_))
  obtain ⟨c, inside, out⟩ := mem_filterMap.mp h
  rw [mem_singleton.mp inside] at out
  exact mem_filterMap.mpr ⟨b, member, out⟩

private theorem run_congr {cell : MuxCell} (same : ∀ n ∈ uses cell, y n = z n) :
    cell.run v y = cell.run v z := by
  rw [MuxCell.run, MuxCell.run, value_congr (fun n h => same n (mem_append_left _ h))]
  refine foldl_ext _ _ _ (fun s part member => ?_)
  rw [pmuxStep, pmuxStep, value_congr (fun n h =>
    same n (mem_append_right _ (mem_flatMap.mpr ⟨part, member, h⟩)))]

def equations (v : Valuation) : System Nat Const MuxCell where
  dest := MuxCell.id
  uses := uses
  width _ := 0
  value y cell := (cell.run v y).2
  value_width _ _ := rfl
  value_congr same _ := by rw [run_congr same]

@[simp] theorem value_length (v : Valuation) (y : Nat → Const) (sig : MuxSig) :
    (MuxSig.value v y sig).length = sig.length := length_map ..

private theorem value_outputs {cell width : Nat} (length : (y cell).length = width) :
    MuxSig.value v y (outputs cell width) = y cell := by
  rw [MuxSig.value, outputs, map_map]
  refine ext_getElem (by simp [length]) (fun i small inside => ?_)
  simp [MuxBit.state, inside]

private theorem run_length {cell : MuxCell} (sized : ∀ p ∈ cell.parts, p.2.length = cell.a.length) :
    (cell.run v y).2.length = cell.a.length := by
  rw [MuxCell.run]
  have start : (false, MuxSig.value v y cell.a).2.length = cell.a.length := value_length ..
  generalize (false, MuxSig.value v y cell.a) = s at start
  generalize cell.parts = parts at sized
  induction parts generalizing s with
  | nil => exact start
  | cons p parts ih =>
    refine ih _ ?_ (fun q h => sized q (by simp [h]))
    unfold pmuxStep
    split
    · split
      · exact length_replicate
      · rw [value_length]
        exact sized p (by simp)
    · exact start

private theorem run_append (cell : MuxCell) (part : List Compare × MuxSig) :
    MuxCell.run v y { cell with parts := cell.parts ++ [part] } =
      pmuxStep v y cell.a.length (cell.run v y) part := by
  rw [MuxCell.run, MuxCell.run, foldl_append]
  rfl

/-- The finished cells stand in use order, and the next number is new. -/
structure Tidy (b : Builder) : Prop where
  ordered : ∀ v, (equations v).Ordered (fun _ => False) b.cells
  closed : ∀ c ∈ b.cells, ∀ n ∈ uses c, n ∈ b.cells.map MuxCell.id
  below : ∀ c ∈ b.cells, c.id < b.autoidx

def Within (b : Builder) (sig : MuxSig) : Prop := ∀ n ∈ reads sig, n ∈ b.cells.map MuxCell.id

/-- The pass has gone on: old cells stay, and new ones have new numbers. -/
structure Extends (b b' : Builder) : Prop where
  autoidx : b.autoidx ≤ b'.autoidx
  old : ∀ c ∈ b.cells, c ∈ b'.cells
  new : ∀ c ∈ b'.cells, c ∈ b.cells ∨ b.autoidx ≤ c.id

/-- The builder after `k` more names. -/
def skip (b : Builder) (k : Nat) : Builder := { b with autoidx := b.autoidx + k }

variable {b b' b'' : Builder} {sig : MuxSig}

theorem Extends.refl (b : Builder) : Extends b b := ⟨Nat.le_refl _, fun _ h => h, fun _ h => .inl h⟩

theorem Extends.trans (first : Extends b b') (second : Extends b' b'') : Extends b b'' where
  autoidx := Nat.le_trans first.autoidx second.autoidx
  old c h := second.old c (first.old c h)
  new c h := by
    rcases second.new c h with before | above
    · exact first.new c before
    · exact .inr (Nat.le_trans first.autoidx above)

private theorem Extends.skip (ext : Extends b b') (k : Nat) : Extends b (skip b' k) :=
  ⟨Nat.le_trans ext.autoidx (Nat.le_add_right _ _), ext.old, ext.new⟩

variable {cell : MuxCell}

private theorem Extends.close (ext : Extends b b') (new : b.autoidx ≤ cell.id) :
    Extends b (b'.close (some cell)) := by
  refine ⟨ext.autoidx, fun c h => mem_append_left _ (ext.old c h), fun c h => ?_⟩
  rcases mem_append.mp h with before | single
  · exact ext.new c before
  · rw [mem_singleton.mp single]
    exact .inr new

theorem Within.extend (within : Within b sig) (ext : Extends b b') : Within b' sig := by
  intro n member
  obtain ⟨c, inside, rfl⟩ := mem_map.mp (within n member)
  exact mem_map_of_mem (ext.old c inside)

private theorem Tidy.skip (tidy : Tidy b) (k : Nat) : Tidy (skip b k) :=
  ⟨tidy.ordered, tidy.closed, fun c h => Nat.lt_of_lt_of_le (tidy.below c h) (Nat.le_add_right _ _)⟩

/-- An open cell: it reads finished cells, its number is taken, and nothing finished has it. -/
structure Open (b : Builder) (cell : MuxCell) : Prop where
  below : cell.id < b.autoidx
  new : cell.id ∉ b.cells.map MuxCell.id
  within : ∀ n ∈ uses cell, n ∈ b.cells.map MuxCell.id
  sized : ∀ p ∈ cell.parts, p.2.length = cell.a.length

private theorem Open.extend (isOpen : Open b cell) (ext : Extends b b') : Open b' cell where
  below := Nat.lt_of_lt_of_le isOpen.below ext.autoidx
  new member := by
    obtain ⟨c, inside, same⟩ := mem_map.mp member
    rcases ext.new c inside with before | above
    · exact isOpen.new (mem_map.mpr ⟨c, before, same⟩)
    · have := isOpen.below
      omega
  within n member := by
    obtain ⟨c, inside, rfl⟩ := mem_map.mp (isOpen.within n member)
    exact mem_map_of_mem (ext.old c inside)
  sized := isOpen.sized

private theorem Tidy.close (tidy : Tidy b) (isOpen : Open b cell) : Tidy (b.close (some cell)) where
  ordered v := by
    refine .snoc (tidy.ordered v) (fun h => h) (fun c member => ⟨?_, ?_⟩) ?_
    · exact fun same => isOpen.new (mem_map.mpr ⟨c, member, same.symm⟩)
    · exact fun used => isOpen.new (tidy.closed c member _ used)
    · exact fun used => isOpen.new (isOpen.within _ used)
  closed c member n used := by
    show n ∈ (b.cells ++ [cell]).map MuxCell.id
    rw [map_append]
    refine mem_append_left _ ?_
    rcases mem_append.mp member with before | single
    · exact tidy.closed c before n used
    · rw [mem_singleton.mp single] at used
      exact isOpen.within n used
  below c member := by
    rcases mem_append.mp member with before | single
    · exact tidy.below c before
    · rw [mem_singleton.mp single]
      exact isOpen.below

theorem Solves.mono {v : Valuation} {y : Nat → Const} {cells cells' : List MuxCell}
    (solves : Solves v y cells') (sub : ∀ c ∈ cells, c ∈ cells') : Solves v y cells :=
  fun c h => solves c (sub c h)

theorem Tidy.solvable (tidy : Tidy b) (v : Valuation) : ∃ y, Solves v y b.cells :=
  ⟨(equations v).exec (fun _ => []) b.cells,
    fun c member => (tidy.ordered v).exec_solves (fun _ => []) c member⟩

/-- A case with its group that the loop has visited: its value and the tree that is left of it. -/
structure Visited where
  before : WorkCase
  group : Nat
  value : MuxSig
  done : WorkCase

variable (v) (n : Nat) (start : Builder) (y : Nat → Const) (signal : SigSpec) (initial : MuxSig)
  (visited : List Visited) (l : Loop)

/-- The open multiplexer drives the result. -/
def Live (cell : MuxCell) : Prop := l.lastMuxCell = some cell ∧ l.result = outputs cell.id n

structure Between : Prop where
  tidy : Tidy l.builder
  extend : Extends start l.builder
  length : l.result.length = n
  driven : Within l.builder l.result ∨ ∃ cell, Live n l cell
  isOpen : ∀ cell, l.lastMuxCell = some cell → Open l.builder cell
  recent : ∀ cell, l.lastMuxCell = some cell → start.autoidx ≤ cell.id ∧ cell.a.length = n
  defaults : (∀ x ∈ visited, x.before.compare = []) → l.lastMuxCell = none

/-- The value of the first visited case that is taken. -/
def picked : Const :=
  choose (fun x => x.before.compare.isEmpty || hit v signal x.before.compare)
    (fun x _ => MuxSig.value v y x.value) visited (MuxSig.value v y initial)

/-- What the loop has computed. An active select bit belongs to a case of the current group. -/
structure Means : Prop where
  settled : Within l.builder l.result →
    MuxSig.value v y l.result = picked v y signal initial visited
  output : ∀ cell, Live n l cell → (cell.run v y).2 = picked v y signal initial visited
  inactive : ∀ cell, Live n l cell → (cell.run v y).1 = false →
    (cell.run v y).2 = MuxSig.value v y cell.a
  active : ∀ cell, Live n l cell → (cell.run v y).1 = true →
    ∃ x ∈ visited, (visited.map Visited.group).head? = some x.group ∧
      hit v signal x.before.compare = true

variable {v n start y signal initial visited l} {l' : Loop}

/-- Where a case is appended, it is no catch-all, and the multiplexer drives the result or the case
has the result for its value. -/
def attached (signal : SigSpec) (compare : List SigSpec) (joined : Bool) (value : MuxSig)
    (l : Loop) : Bool :=
  !joined || l.lastMuxCell.all fun cell =>
    (value == cell.a || genCmp signal compare != some none) &&
      (l.result == outputs cell.id value.length || value == l.result)

/-- What one case does to the loop where appended cases are attached. -/
inductive Shape (n : Nat) (signal : SigSpec) (compare : List SigSpec) (joined : Bool)
    (value : MuxSig) (l : Loop) : Loop → Prop
  | assigned (k : Nat)
      (why : compare = [] ∨ (∃ pattern ∈ compare, Idle signal pattern) ∨ value = l.result) :
      Shape n signal compare joined value l
        { l with result := value, builder := skip l.builder k }
  | opened (some : compare ≠ []) :
      Shape n signal compare joined value l
        { result := outputs l.builder.autoidx value.length
          lastMuxCell := Option.some
            { id := l.builder.autoidx, a := l.result
              parts := [(compare.map (comparePattern signal), value)] }
          builder := skip (l.builder.close l.lastMuxCell) 2 }
  | skipped (cell : MuxCell) (last : l.lastMuxCell = some cell) (join : joined = true)
      (same : value = cell.a) (drives : Live n l cell ∨ value = l.result) :
      Shape n signal compare joined value l l
  | appended (cell : MuxCell) (last : l.lastMuxCell = some cell) (join : joined = true)
      (drives : Live n l cell ∨ value = l.result) :
      Shape n signal compare joined value l
        { l with
          lastMuxCell := some
            { cell with parts := cell.parts ++ [(compare.map (comparePattern signal), value)] }
          builder := skip l.builder 1 }

variable {compare : List SigSpec} {joined : Bool} {value : MuxSig} {b : Builder}

private theorem outputs_ne (isOpen : Open b cell) (within : Within b value) (positive : 0 < n) :
    value ≠ outputs cell.id n := by
  intro same
  refine isOpen.new (within cell.id ?_)
  rw [same, outputs, reads, filterMap_map]
  exact mem_filterMap.mpr ⟨0, mem_range.mpr positive, rfl⟩

private theorem Between.dead (between : Between n start visited l) (positive : 0 < n)
    (within : Within l.builder value) (last : l.lastMuxCell = some cell) : value ≠ outputs cell.id n :=
  outputs_ne (between.isOpen cell last) within positive

section Shapes

variable (joined) (fitting : Fitting signal compare) (between : Between n start visited l)
  (length : value.length = n)

include fitting between length

private theorem genMux_shape :
    ∃ l', genMux signal compare value l = some l' ∧ Shape n signal compare joined value l l' := by
  have sizes : ¬ value.length ≠ l.result.length := by rw [length, between.length]; simp
  rw [genMux, if_neg sizes]
  by_cases trivial : compare = [] ∨ value = l.result
  · rw [if_pos (by simpa [List.isEmpty_iff] using trivial)]
    exact ⟨_, rfl, .assigned 1 (trivial.elim .inl (fun h => .inr (.inr h)))⟩
  · rw [if_neg (by simpa using trivial)]
    rcases genCmp_spec fitting with ⟨idle, run⟩ | ⟨-, run⟩
    · rw [run]
      exact ⟨_, rfl, .assigned 2 (.inr (.inl idle))⟩
    · rw [run]
      exact ⟨_, rfl, .opened (fun empty => trivial (.inl empty))⟩

private theorem appendPmux_shape (last : l.lastMuxCell = some cell) (join : joined = true)
    (safe : attached signal compare joined value l = true) :
    ∃ l', appendPmux signal compare value cell l = some l' ∧
      Shape n signal compare joined value l l' := by
  have sizes : ¬ value.length ≠ cell.a.length := by
    rw [length, (between.recent cell last).2]
    simp
  have drives : (value = cell.a ∨ genCmp signal compare ≠ some none) ∧
      (l.result = outputs cell.id n ∨ value = l.result) := by
    simpa [attached, join, last, length] using safe
  have kept : Live n l cell ∨ value = l.result := drives.2.imp_left fun live => ⟨last, live⟩
  rw [appendPmux, if_neg sizes]
  by_cases same : value = cell.a
  · rw [if_pos (by simpa using same)]
    exact ⟨l, rfl, .skipped cell last join same kept⟩
  · rw [if_neg (by simpa using same)]
    rcases genCmp_spec fitting with ⟨-, run⟩ | ⟨-, run⟩
    · exact absurd run (drives.1.resolve_left same)
    · rw [run]
      exact ⟨_, rfl, .appended cell last join kept⟩

theorem muxStep_shape (safe : attached signal compare joined value l = true) :
    ∃ l', muxStep signal compare joined value l = some l' ∧
      Shape n signal compare joined value l l' := by
  have generated := genMux_shape joined fitting between length
  unfold muxStep
  split
  · rename_i cell last
    split
    · rename_i join
      exact appendPmux_shape joined fitting between length last join safe
    · exact generated
  · exact generated

end Shapes

private theorem Within.close (within : Within b value) (cell : Option MuxCell) :
    Within (b.close cell) value := by
  intro m member
  show m ∈ (b.cells ++ cell.toList).map MuxCell.id
  rw [map_append]
  exact mem_append_left _ (within m member)

theorem Between.result_within (between : Between n start visited l) :
    Within (l.builder.close l.lastMuxCell) l.result := by
  rcases between.driven with within | ⟨cell, last, live⟩
  · exact within.close l.lastMuxCell
  · rw [live, last]
    intro m member
    show m ∈ (l.builder.cells ++ [cell]).map MuxCell.id
    rw [outputs, reads, filterMap_map] at member
    obtain ⟨i, -, out⟩ := mem_filterMap.mp member
    have same : cell.id = m := Option.some.inj out
    simp [same]

theorem Between.closed (between : Between n start visited l) :
    Tidy (l.builder.close l.lastMuxCell) ∧ Extends start (l.builder.close l.lastMuxCell) := by
  cases last : l.lastMuxCell with
  | none =>
    have same : l.builder.close none = l.builder := by simp [Builder.close]
    rw [same]
    exact ⟨between.tidy, between.extend⟩
  | some cell =>
    exact ⟨between.tidy.close (between.isOpen cell last),
      between.extend.close (between.recent cell last).1⟩

private theorem Between.opened (between : Between n start visited l) (length : value.length = n)
    (within : Within l.builder value) (parts : List Compare) :
    Open (skip (l.builder.close l.lastMuxCell) 2)
      { id := l.builder.autoidx, a := l.result, parts := [(parts, value)] } where
  below := by
    show l.builder.autoidx < l.builder.autoidx + 2
    omega
  new member := by
    obtain ⟨c, inside, same⟩ := mem_map.mp member
    have below : c.id < l.builder.autoidx := by
      rcases mem_append.mp inside with before | last
      · exact between.tidy.below c before
      · exact (between.isOpen c (Option.mem_toList.mp last)).below
    have equal : c.id = l.builder.autoidx := same
    omega
  within m member := by
    rcases mem_append.mp member with first | second
    · exact between.result_within m first
    · rw [flatMap_singleton] at second
      exact within.close _ m second
  sized p member := by
    rw [mem_singleton.mp member]
    exact length.trans between.length.symm

theorem Between.patterned (between : Between n start visited l) (last : l.lastMuxCell = some cell)
    (catches : compare = [] → ∀ x ∈ visited, x.before.compare = []) : compare ≠ [] := by
  intro empty
  have none := between.defaults (catches empty)
  rw [last] at none
  cases none

theorem Between.step (between : Between n start visited l) (length : value.length = n)
    (within : Within l.builder value) (x : Visited) (patterns : x.before.compare = compare)
    (shape : Shape n signal compare joined value l l') : Between n start (x :: visited) l' := by
  cases shape with
  | assigned k why =>
    exact
      { tidy := between.tidy.skip k
        extend := between.extend.skip k
        length := length
        driven := .inl within
        isOpen := fun cell h => (between.isOpen cell h).extend ((Extends.refl _).skip k)
        recent := between.recent
        defaults := fun all => between.defaults (fun z h => all z (by simp [h])) }
  | opened some =>
    have isOpen := between.opened length within (compare.map (comparePattern signal))
    exact
      { tidy := between.closed.1.skip 2
        extend := between.closed.2.skip 2
        length := by simp [outputs, length]
        driven := .inr ⟨_, rfl, by rw [length]⟩
        isOpen := fun cell h => by
          rw [← Option.some.inj h]
          exact isOpen
        recent := fun cell h => by
          rw [← Option.some.inj h]
          exact ⟨between.extend.autoidx, between.length⟩
        defaults := fun all => absurd (patterns ▸ all x (by simp)) some }
  | skipped cell last join same drives =>
    exact
      { between with
        defaults := fun all => between.defaults (fun z h => all z (by simp [h])) }
  | appended cell last join drives =>
    have isOpen := between.isOpen cell last
    have recent := between.recent cell last
    exact
      { tidy := between.tidy.skip 1
        extend := between.extend.skip 1
        length := between.length
        driven := by
          rcases between.driven with inside | ⟨c, same, live⟩
          · exact .inl inside
          · exact .inr ⟨_, rfl, by rw [live, Option.some.inj (last.symm.trans same)]⟩
        isOpen := fun c h => by
          rw [← Option.some.inj h]
          refine ⟨Nat.lt_succ_of_lt isOpen.below, isOpen.new, fun m member => ?_, fun p member => ?_⟩
          · have split : m ∈ uses cell ∨ m ∈ reads value := by
              simpa [uses, or_assoc] using member
            exact split.elim (isOpen.within m) (within m)
          · rcases mem_append.mp member with before | single
            · exact isOpen.sized p before
            · rw [mem_singleton.mp single]
              exact length.trans recent.2.symm
        recent := fun c h => by
          rw [← Option.some.inj h]
          exact recent
        defaults := fun all => by
          have none := between.defaults (fun z h => all z (by simp [h]))
          rw [last] at none
          cases none }

theorem Shape.cells {compare : List SigSpec} {joined : Bool} {value : MuxSig} {l l' : Loop}
    (shape : Shape n signal compare joined value l l') :
    ∀ c ∈ l.builder.cells, c ∈ l'.builder.cells := by
  intro c member
  cases shape with
  | assigned k why => exact member
  | opened some => exact mem_append_left _ member
  | skipped cell last join same drives => exact member
  | appended cell last join drives => exact member

theorem Between.grow {start : Builder} {visited : List Visited} {l : Loop}
    (between : Between n start visited l) (tidy : Tidy b) (ext : Extends l.builder b) :
    Between n start visited { l with builder := b } where
  tidy := tidy
  extend := between.extend.trans ext
  length := between.length
  driven := between.driven.imp_left fun within => within.extend ext
  isOpen cell h := (between.isOpen cell h).extend ext
  recent := between.recent
  defaults := between.defaults

variable {initial value : MuxSig}

private theorem picked_cons (x : Visited) (some : x.before.compare ≠ []) :
    picked v y signal initial (x :: visited) =
      if hit v signal x.before.compare = true then MuxSig.value v y x.value
      else picked v y signal initial visited := by
  have empty : x.before.compare.isEmpty = false := by simpa using some
  rw [picked, choose, empty, Bool.false_or]
  rfl

theorem Means.result (means : Means v n y signal initial visited l)
    (between : Between n start visited l)
    (solves : Solves v y (l.builder.close l.lastMuxCell).cells) :
    MuxSig.value v y l.result = picked v y signal initial visited := by
  rcases between.driven with within | ⟨cell, last, live⟩
  · exact means.settled within
  · have isOpen := between.isOpen cell last
    have solved : y cell.id = (cell.run v y).2 :=
      solves cell (mem_append_right _ (by simp [last]))
    have length : (y cell.id).length = n := by
      rw [solved, run_length isOpen.sized, (between.recent cell last).2]
    rw [live, value_outputs length, solved, means.output cell ⟨last, live⟩]

theorem pmuxStep_eq (selector : ∀ b ∈ signal, SelectorBit b) (fitting : Fitting signal compare)
    (width : Nat) (s : Bool × Const) :
    pmuxStep v y width s (compare.map (comparePattern signal), value) =
      if hit v signal compare = true then
        (true, if s.1 = true then List.replicate width .Sx else MuxSig.value v y value)
      else s := by
  unfold pmuxStep
  rw [ctrlState_map selector fitting]
  cases hit v signal compare <;> simp [State.ofBool]

theorem Means.grow (means : Means v n y signal initial visited l)
    (between : Between n start visited l) (positive : 0 < n) (tidy : Tidy b)
    (ext : Extends l.builder b) : Means v n y signal initial visited { l with builder := b } := by
  refine ⟨fun inside => ?_, means.output, means.inactive, means.active⟩
  rcases between.driven with within | ⟨cell, last, live⟩
  · exact means.settled within
  · exact absurd live ((between.grow tidy ext).dead positive inside last)

private theorem Means.kept (means : Means v n y signal initial visited l) {x : Visited}
    (some : x.before.compare ≠ []) (within : Within l.builder x.value) (same : x.value = l.result) :
    MuxSig.value v y l.result = picked v y signal initial (x :: visited) := by
  rw [picked_cons x some, same]
  split
  · rfl
  · exact means.settled (same ▸ within)

theorem Means.step (means : Means v n y signal initial visited l)
    (between : Between n start visited l) (positive : 0 < n)
    (selector : ∀ b ∈ signal, SelectorBit b) (x : Visited) (within : Within l.builder x.value)
    (length : x.value.length = n) (fitting : Fitting signal x.before.compare)
    (join : joined = true → (visited.map Visited.group).head? = some x.group)
    (apart : ∀ z ∈ visited, x.group = z.group →
      ¬ (hit v signal x.before.compare = true ∧ hit v signal z.before.compare = true))
    (catches : x.before.compare = [] → ∀ z ∈ visited, z.before.compare = [])
    (shape : Shape n signal x.before.compare joined x.value l l')
    (solves : Solves v y l'.builder.cells) :
    Means v n y signal initial (x :: visited) l' := by
  -- in the group of the last cell nothing else is hit together with this case
  have quiet : ∀ cell, Live n l cell → joined = true →
      hit v signal x.before.compare = true → (cell.run v y).1 = false := by
    intro cell live joins hits
    rw [Bool.eq_false_iff]
    intro active
    obtain ⟨z, member, group, other⟩ := means.active cell live active
    rw [join joins] at group
    exact apart z member (Option.some.inj group) ⟨hits, other⟩
  -- a live multiplexer is not finished
  have unfinished : ∀ cell, Live n l cell → ¬ Within l.builder l.result := fun cell live inside =>
    between.dead positive inside live.1 live.2
  cases shape with
  | assigned k why =>
    have dead : ∀ cell, ¬ Live n { l with result := x.value, builder := skip l.builder k } cell :=
      fun cell live => between.dead positive within live.1 live.2
    refine ⟨fun _ => ?_, fun cell h => absurd h (dead cell), fun cell h => absurd h (dead cell),
      fun cell h => absurd h (dead cell)⟩
    by_cases taken : (x.before.compare.isEmpty || hit v signal x.before.compare) = true
    · rw [picked, choose, if_pos taken]
    · rcases why with empty | ⟨pattern, member, idle⟩ | same
      · simp [empty] at taken
      · refine absurd (Bool.or_eq_true_iff.mpr (.inr ?_)) taken
        exact any_eq_true.mpr ⟨pattern, member, idle.matches (fitting.width pattern member)⟩
      · rw [picked, choose_closed (by simpa using taken), same]
        exact means.settled (same ▸ within)
  | opened some =>
    have before := means.result between solves
    have isOpen := between.opened length within (x.before.compare.map (comparePattern signal))
    have run : MuxCell.run v y
        { id := l.builder.autoidx, a := l.result
          parts := [(x.before.compare.map (comparePattern signal), x.value)] } =
        if hit v signal x.before.compare = true then (true, MuxSig.value v y x.value)
        else (false, MuxSig.value v y l.result) := by
      rw [MuxCell.run, foldl_cons, foldl_nil, pmuxStep_eq selector fitting]
      rfl
    refine ⟨fun h => absurd rfl (outputs_ne isOpen (length ▸ h) positive), fun cell h => ?_,
      fun cell h => ?_, fun cell h => ?_⟩
    · rw [← Option.some.inj h.1, run, picked_cons x some]
      split
      · rfl
      · exact before
    · rw [← Option.some.inj h.1, run]
      split
      · intro h
        cases h
      · exact fun _ => rfl
    · rw [← Option.some.inj h.1, run]
      split
      · rename_i hits
        exact fun _ => ⟨x, by simp, rfl, hits⟩
      · intro h
        cases h
  | skipped cell last joins same drives =>
    have some := between.patterned last catches
    have head := join joins
    refine ⟨fun h => ?_, fun c h => ?_, fun c h => ?_, fun c h active => ?_⟩
    · rcases drives with live | kept
      · exact absurd h (unfinished cell live)
      · exact means.kept some within kept
    · rw [picked_cons x some]
      split
      · rename_i hits
        rw [means.inactive c h (quiet c h joins hits), same, Option.some.inj (last.symm.trans h.1)]
      · exact means.output c h
    · exact means.inactive c h
    · obtain ⟨z, member, group, hits⟩ := means.active c h active
      rw [head] at group
      exact ⟨z, by simp [member], by simpa using group, hits⟩
  | appended cell last joins drives =>
    have some := between.patterned last catches
    have head := join joins
    have run := run_append (v := v) (y := y) cell
      (x.before.compare.map (comparePattern signal), x.value)
    rw [pmuxStep_eq selector fitting] at run
    have settled : Within l.builder l.result →
        MuxSig.value v y l.result = picked v y signal initial (x :: visited) := by
      intro h
      rcases drives with live | kept
      · exact absurd h (unfinished cell live)
      · exact means.kept some within kept
    have before : ∀ c, Live n { l with
        lastMuxCell := Option.some
          { cell with parts := cell.parts ++ [(x.before.compare.map (comparePattern signal), x.value)] }
        builder := skip l.builder 1 } c → Live n l cell := by
      intro c h
      refine ⟨last, ?_⟩
      have driven : l.result = outputs c.id n := h.2
      rw [driven, ← Option.some.inj h.1]
    by_cases hits : hit v signal x.before.compare = true
    · refine ⟨settled, fun c h => ?_, fun c h active => ?_, fun c h _ => ?_⟩
      · rw [← Option.some.inj h.1, run, if_pos hits, quiet cell (before c h) joins hits,
          picked_cons x some, if_pos hits]
        rfl
      · rw [← Option.some.inj h.1, run, if_pos hits] at active
        cases active
      · exact ⟨x, by simp, rfl, hits⟩
    · rw [if_neg hits] at run
      refine ⟨settled, fun c h => ?_, fun c h => ?_, fun c h active => ?_⟩
      · rw [← Option.some.inj h.1, run, picked_cons x some, if_neg hits]
        exact means.output cell (before c h)
      · rw [← Option.some.inj h.1, run]
        exact means.inactive cell (before c h)
      · rw [← Option.some.inj h.1, run] at active
        obtain ⟨z, member, group, other⟩ := means.active cell (before c h) active
        rw [head] at group
        exact ⟨z, by simp [member], by simpa using group, other⟩

end ManticoreFrontend.Passes.ProcMuxCells
