/- source: passes/manticore/manticore_clock.cc
   digest: Where in the module hierarchy the clock search succeeds. -/

import ManticoreFrontend.Passes.ClockCheck

namespace ManticoreFrontend.Passes.ClockSearch

open Kernel CellTypes Signals Netlist ClockCheck List Option

inductive Instance (design : Design) : Module → List IdString → Module → Prop
  | here (mod : Module) : Instance design mod [] mod
  | child {mod other target : Module} {cell : Cell} {path : List IdString} (member : cell ∈ mod.cells)
      (unclocked : isClockedCell cell = false) (found : design.module cell.type = some other)
      (rest : Instance design other path target) : Instance design mod (cell.name :: path) target

variable (design : Design)

def Clockless (mod : Module) : Prop :=
  ∀ path target, Instance design mod path target → ∀ cell ∈ target.cells, isClockedCell cell = false

/-- A cell through which the search passes without finding a clock. -/
def Quiet (cell : Cell) : Prop :=
  isClockedCell cell = false ∧ ∀ other, design.module cell.type = some other → Clockless design other

def Plain (cell : Cell) : Prop :=
  isClockedCell cell = false ∧ design.module cell.type = none

/-- An instance accepted after the clock was found in its parent: its module has plain cells only,
and the clock is an input that it connects under its own name. -/
def Passed (cell : Cell) (clock : Clock) : Prop :=
  ∀ other, design.module cell.type = some other →
    (∀ inner ∈ other.cells, Plain design inner) ∧ clock.clk.portOutput = false ∧
      clock.clk.portInput = true ∧
      (cell.getPort (portId clock.clk.name)).bind SigSpec.asWire? = some clock.clk

/-- Where the search finds a clock: all clocked cells it looks at are in one instance, and the path
down to it goes through the last instance of modules without clocked cells. -/
inductive Located (design : Design) : Module → List Cell → List IdString → Clock → Prop
  | skip {mod : Module} {cell : Cell} {cells : List Cell} {path : List IdString} {clock : Clock}
      (quiet : Quiet design cell) (rest : Located design mod cells path clock) :
      Located design mod (cell :: cells) path clock
  | own {mod : Module} {cell : Cell} {cells : List Cell} {clock : Clock}
      (clocked : isClockedCell cell = true) (used : cellClock mod cell = .ok clock)
      (same : ∀ c ∈ cells, isClockedCell c = true → cellClock mod c = .ok clock)
      (passed : ∀ c ∈ cells, isClockedCell c = false → Passed design c clock) :
      Located design mod (cell :: cells) [] clock
  | child {mod other : Module} {cell : Cell} {cells : List Cell} {path : List IdString} {clock : Clock}
      (unclocked : isClockedCell cell = false) (found : design.module cell.type = some other)
      (inside : Located design other other.cells path clock)
      (plain : ∀ c ∈ cells, Plain design c) :
      Located design mod (cell :: cells) (cell.name :: path) clock

/-- The modules have ranks that fall from a module to those it instantiates. -/
def Ranked (rank : IdString → Nat) (mod : Module) : Prop :=
  ∀ path target, Instance design mod path target → ∀ cell ∈ target.cells,
    isClockedCell cell = false → ∀ other, design.module cell.type = some other →
    rank other.name < rank target.name

variable {design : Design} {rank : IdString → Nat} {mod other : Module} {cell : Cell}

theorem Ranked.child (ranked : Ranked design rank mod) (member : cell ∈ mod.cells)
    (unclocked : isClockedCell cell = false) (found : design.module cell.type = some other) :
    Ranked design rank other ∧ rank other.name < rank mod.name := by
  constructor
  · intro path target inst
    exact ranked _ _ (.child member unclocked found inst)
  · exact ranked [] mod (.here mod) cell member unclocked other found

theorem Ranked.le {path : List IdString} {target : Module} (ranked : Ranked design rank mod)
    (inst : Instance design mod path target) : rank target.name ≤ rank mod.name := by
  induction inst with
  | here mod => exact le_rfl
  | child member unclocked found _ ih =>
    obtain ⟨ranked', below⟩ := ranked.child member unclocked found
    exact (ih ranked').trans below.le

theorem clockless_iff : Clockless design mod ↔ ∀ cell ∈ mod.cells, Quiet design cell := by
  constructor
  · intro clockless cell member
    have unclocked := clockless [] mod (.here mod) cell member
    refine ⟨unclocked, fun other found path target inst => ?_⟩
    exact clockless _ _ (.child member unclocked found inst)
  · intro quiet path target inst
    cases inst with
    | here => exact fun cell member => (quiet cell member).1
    | child member _ found rest => exact (quiet _ member).2 _ found _ _ rest

variable {mod : Module} {clock : Clock}

theorem bind_eq_ok {α β : Type} {x : Check α} {f : α → Check β} {b : β} :
    (x >>= f) = .ok b ↔ ∃ a, x = .ok a ∧ f a = .ok b := by
  cases x with
  | error e => simp [bind, Except.bind]
  | ok a => simp [bind, Except.bind]

theorem orAbort_eq_ok {α : Type} {o : Option α} {a : α} : orAbort o = .ok a ↔ o = some a := by
  cases o <;> simp [orAbort]

theorem cellClock_eq_ok : cellClock mod cell = .ok clock ↔
    ∃ s p w, cell.getPort .CLK = some s ∧ cell.getParam .CLK_POLARITY = some p ∧
      SigSpec.asWire? (sigmap mod s) = some w ∧ clock = ⟨mod.name, w, p.asBool⟩ := by
  simp only [cellClock, bind_eq_ok, orAbort_eq_ok]
  constructor
  · rintro ⟨s, port, p, param, w, wire, result⟩
    exact ⟨s, p, w, port, param, wire, (Except.ok.inj result).symm⟩
  · rintro ⟨s, p, w, port, param, wire, rfl⟩
    exact ⟨s, port, p, param, w, wire, rfl⟩

theorem cellClock_owner (used : cellClock mod cell = .ok clock) : clock.owner = mod.name := by
  obtain ⟨s, p, w, -, -, -, rfl⟩ := cellClock_eq_ok.mp used
  rfl

theorem compareClocks_eq_ok {found other : Clock} : compareClocks mod cell found other = .ok () ↔
    other.clk.portOutput = false ∧ other.clk.portInput = true ∧ found.owner = mod.name ∧
      (cell.getPort (portId other.clk.name)).bind SigSpec.asWire? = some found.clk := by
  unfold compareClocks
  cases output : other.clk.portOutput with
  | true => simp [throw, throwThe, MonadExceptOf.throw]
  | false =>
    cases input : other.clk.portInput with
    | false => simp
    | true =>
      simp only [Bool.false_eq_true, if_false, if_true, bind_eq_ok, orAbort_eq_ok, true_and,
        bind_eq_some_iff]
      constructor
      · rintro ⟨sig, port, w, wire, result⟩
        split at result
        · cases result
        · rename_i same
          obtain ⟨owner, rfl⟩ := Prod.mk.inj (not_not.mp same)
          exact ⟨owner.symm, sig, port, wire⟩
      · rintro ⟨owner, sig, port, wire⟩
        exact ⟨sig, port, found.clk, wire, by simp [owner]; rfl⟩

variable {check : Module → Option Clock → Check (Option Clock)} {found result : Option Clock}

theorem checkCell_clocked (clocked : isClockedCell cell = true) :
    checkCell design check mod found cell = .ok result ↔
      ∃ used, cellClock mod cell = .ok used ∧ result = some used ∧
        ∀ clock, found = some clock → clock = used := by
  simp only [checkCell, clocked, if_true, bind_eq_ok]
  cases found with
  | none => simp [pure, Except.pure, eq_comm]
  | some clock =>
    simp only [some.injEq, forall_eq']
    constructor
    · rintro ⟨used, value, rest⟩
      by_cases same : clock = used
      · subst same
        simp only [ne_eq, not_true_eq_false, if_false] at rest
        exact ⟨clock, value, (Except.ok.inj rest).symm, rfl⟩
      · simp only [ne_eq, same, not_false_eq_true, if_true] at rest
        cases rest
    · rintro ⟨used, value, rfl, rfl⟩
      exact ⟨clock, value, by simp; rfl⟩

theorem checkCell_plain (plain : Plain design cell) :
    checkCell design check mod found cell = .ok found := by
  simp [checkCell, plain.1, plain.2, pure, Except.pure]

theorem checkCell_instance {other : Module} (unclocked : isClockedCell cell = false)
    (inst : design.module cell.type = some other) :
    checkCell design check mod found cell = .ok result ↔
      ∃ otherFound, check other found = .ok otherFound ∧
        (found = none ∧ result = otherFound ∨
          ∃ clock, found = some clock ∧ result = some clock ∧
            ∀ otherClock, otherFound = some otherClock →
              compareClocks mod cell clock otherClock = .ok ()) := by
  simp only [checkCell, unclocked, Bool.false_eq_true, if_false, inst, bind_eq_ok]
  refine exists_congr fun otherFound => and_congr_right fun _ => ?_
  cases found with
  | none => simp [pure, Except.pure, eq_comm]
  | some clock =>
    cases otherFound with
    | none => simp [pure, Except.pure, eq_comm]
    | some otherClock =>
      simp only [bind_eq_ok]
      constructor
      · rintro ⟨⟨⟩, compared, done⟩
        exact .inr ⟨clock, rfl, (Except.ok.inj done).symm, fun _ same =>
          some.inj same ▸ compared⟩
      · rintro (⟨absent, -⟩ | ⟨clock', same, rfl, compared⟩)
        · cases absent
        · obtain rfl := some.inj same
          exact ⟨(), compared otherClock rfl, rfl⟩

theorem checkCell_some (done : checkCell design check mod (some clock) cell = .ok result) :
    result = some clock := by
  cases clocked : isClockedCell cell with
  | true =>
    obtain ⟨used, -, rfl, same⟩ := (checkCell_clocked clocked).mp done
    rw [same clock rfl]
  | false =>
    cases inst : design.module cell.type with
    | none =>
      rw [checkCell_plain ⟨clocked, inst⟩] at done
      exact (Except.ok.inj done).symm
    | some other =>
      obtain ⟨_, -, ⟨absent, -⟩ | ⟨clock', same, rfl, -⟩⟩ := (checkCell_instance clocked inst).mp done
      · cases absent
      · exact same.symm

theorem checkCell_foreign (foreign : clock.owner ≠ mod.name)
    (nonempty : ∀ other, check other (some clock) ≠ .ok none) :
    checkCell design check mod (some clock) cell = .ok result ↔
      result = some clock ∧ Plain design cell := by
  constructor
  · intro done
    refine ⟨checkCell_some done, ?_⟩
    cases clocked : isClockedCell cell with
    | true =>
      obtain ⟨used, value, -, same⟩ := (checkCell_clocked clocked).mp done
      obtain rfl := same clock rfl
      exact absurd (cellClock_owner value) foreign
    | false =>
      cases inst : design.module cell.type with
      | none => exact ⟨clocked, inst⟩
      | some other =>
        obtain ⟨otherFound, value, ⟨absent, -⟩ | ⟨clock', same, -, compared⟩⟩ :=
          (checkCell_instance clocked inst).mp done
        · cases absent
        · obtain rfl := some.inj same
          cases otherFound with
          | none => exact absurd value (nonempty other)
          | some otherClock =>
            obtain ⟨-, -, owner, -⟩ := compareClocks_eq_ok.mp (compared otherClock rfl)
            exact absurd owner foreign
  · rintro ⟨rfl, plain⟩
    exact checkCell_plain plain

variable {cells : List Cell}

theorem fold_cons :
    (cell :: cells).foldlM (checkCell design check mod) found = .ok result ↔
      ∃ next, checkCell design check mod found cell = .ok next ∧
        cells.foldlM (checkCell design check mod) next = .ok result := by
  rw [foldlM_cons, bind_eq_ok]

theorem fold_some (done : cells.foldlM (checkCell design check mod) (some clock) = .ok result) :
    result = some clock := by
  induction cells with
  | nil => exact (Except.ok.inj done).symm
  | cons cell cells ih =>
    obtain ⟨next, first, rest⟩ := fold_cons.mp done
    obtain rfl := checkCell_some first
    exact ih rest

theorem fold_foreign (foreign : clock.owner ≠ mod.name)
    (nonempty : ∀ other, check other (some clock) ≠ .ok none) :
    cells.foldlM (checkCell design check mod) (some clock) = .ok result ↔
      result = some clock ∧ ∀ c ∈ cells, Plain design c := by
  induction cells with
  | nil => simp [pure, Except.pure, eq_comm]
  | cons cell cells ih =>
    rw [fold_cons]
    simp only [checkCell_foreign foreign nonempty, forall_mem_cons]
    constructor
    · rintro ⟨next, ⟨rfl, plain⟩, rest⟩
      obtain ⟨same, plains⟩ := ih.mp rest
      exact ⟨same, plain, plains⟩
    · rintro ⟨same, plain, plains⟩
      exact ⟨_, ⟨rfl, plain⟩, ih.mpr ⟨same, plains⟩⟩

theorem checkClock_nonempty (fuel : Nat) (mod : Module) (clock : Clock) :
    checkClock design fuel mod (some clock) ≠ .ok none := by
  intro done
  cases fuel with
  | zero => cases done
  | succ fuel =>
    simp only [checkClock, bind_eq_ok] at done
    obtain ⟨start, assumed, fold⟩ := done
    have kept : ∃ clock', start = some clock' := by
      simp only [assumedClock] at assumed
      split at assumed
      · obtain ⟨w, -, result⟩ := bind_eq_ok.mp assumed
        exact ⟨_, (Except.ok.inj result).symm⟩
      · exact ⟨clock, (Except.ok.inj assumed).symm⟩
    obtain ⟨clock', rfl⟩ := kept
    cases fold_some fold

/-- Below an instance that comes after its parent's clock, only plain cells are accepted. -/
theorem checkClock_foreign {fuel : Nat} (foreign : clock.owner ≠ mod.name) :
    checkClock design (fuel + 1) mod (some clock) = .ok result ↔
      result = some clock ∧ ∀ c ∈ mod.cells, Plain design c := by
  have start : assumedClock mod (some clock) = .ok (some clock) := by
    rw [assumedClock, if_neg foreign]
  rw [checkClock, bind_eq_ok]
  simp only [start, Except.ok.injEq, exists_eq_left']
  exact fold_foreign foreign fun other => checkClock_nonempty fuel other clock

variable {result : Option Clock} {path : List IdString}

theorem Located.exists_use (located : Located design mod cells path clock)
    (part : ∀ c ∈ cells, c ∈ mod.cells) :
    ∃ target used, Instance design mod path target ∧ target.name = clock.owner ∧
      used ∈ target.cells ∧ isClockedCell used = true := by
  induction located with
  | skip _ _ ih => exact ih fun c member => part c (mem_cons_of_mem _ member)
  | @own mod cell _ _ clocked used _ _ =>
    exact ⟨mod, cell, .here mod, (cellClock_owner used).symm, part cell mem_cons_self, clocked⟩
  | child unclocked found _ _ ih =>
    obtain ⟨target, used, inst, own⟩ := ih fun _ member => member
    exact ⟨target, used, .child (part _ mem_cons_self) unclocked found inst, own⟩

/-- The search's own visit of a cell, with `fuel` left for the modules below. -/
abbrev visit (design : Design) (fuel : Nat) := checkCell design (checkClock design fuel)

variable {fuel : Nat}

theorem fold_own (ranked : Ranked design rank mod) (enough : rank mod.name ≤ fuel)
    (part : ∀ c ∈ cells, c ∈ mod.cells) (owner : clock.owner = mod.name) :
    cells.foldlM (visit design fuel mod) (some clock) = .ok result ↔
      result = some clock ∧
        (∀ c ∈ cells, isClockedCell c = true → cellClock mod c = .ok clock) ∧
        ∀ c ∈ cells, isClockedCell c = false → Passed design c clock := by
  induction cells with
  | nil =>
    simp only [foldlM_nil, pure, Except.pure, Except.ok.injEq, not_mem_nil, false_implies,
      implies_true, and_true]
    exact eq_comm
  | cons cell cells ih =>
    have tail := ih fun c member => part c (mem_cons_of_mem _ member)
    have head : ∀ next, visit design fuel mod (some clock) cell = .ok next ↔
        next = some clock ∧ (isClockedCell cell = true → cellClock mod cell = .ok clock) ∧
          (isClockedCell cell = false → Passed design cell clock) := by
      intro next
      cases clocked : isClockedCell cell with
      | true =>
        rw [checkCell_clocked clocked]
        simp only [some.injEq, forall_eq', forall_const, Bool.true_eq_false, false_implies,
          and_true]
        constructor
        · rintro ⟨used, value, rfl, rfl⟩
          exact ⟨rfl, value⟩
        · rintro ⟨rfl, value⟩
          exact ⟨clock, value, rfl, rfl⟩
      | false =>
        simp only [Bool.false_eq_true, false_implies, forall_const, true_and]
        cases found : design.module cell.type with
        | none =>
          have passed : Passed design cell clock := fun other inst => by
            rw [found] at inst
            cases inst
          rw [visit, checkCell_plain ⟨clocked, found⟩]
          simp only [Except.ok.injEq, passed, and_true]
          exact eq_comm
        | some other =>
          obtain ⟨-, below⟩ := ranked.child (part cell mem_cons_self) clocked found
          obtain ⟨fuel, rfl⟩ : ∃ n, fuel = n + 1 := ⟨fuel - 1, by omega⟩
          have foreign : clock.owner ≠ other.name := by
            intro same
            rw [← same, owner] at below
            exact lt_irrefl _ below
          rw [checkCell_instance clocked found]
          simp only [checkClock_foreign foreign, Passed, found, some.injEq, forall_eq',
            reduceCtorEq, false_and, false_or, exists_eq_left']
          constructor
          · rintro ⟨_, ⟨rfl, plain⟩, rfl, compared⟩
            obtain ⟨output, input, -, wire⟩ := compareClocks_eq_ok.mp (compared clock rfl)
            exact ⟨rfl, plain, output, input, wire⟩
          · rintro ⟨rfl, plain, output, input, wire⟩
            refine ⟨_, ⟨rfl, plain⟩, rfl, ?_⟩
            rintro _ ⟨⟩
            exact compareClocks_eq_ok.mpr ⟨output, input, owner, wire⟩
    rw [fold_cons]
    simp only [head, forall_mem_cons]
    constructor
    · rintro ⟨next, ⟨rfl, same, passed⟩, rest⟩
      obtain ⟨done, sames, passes⟩ := tail.mp rest
      exact ⟨done, ⟨same, sames⟩, passed, passes⟩
    · rintro ⟨done, ⟨same, sames⟩, passed, passes⟩
      exact ⟨_, ⟨rfl, same, passed⟩, tail.mpr ⟨done, sames, passes⟩⟩

/-- What the search from a module without an assumed clock returns. -/
structure Returns (design : Design) (mod : Module) (cells : List Cell) (result : Check (Option Clock)) :
    Prop where
  nothing : result = .ok none ↔ ∀ c ∈ cells, Quiet design c
  clock : ∀ clock, result = .ok (some clock) ↔ ∃ path, Located design mod cells path clock

private theorem returns_clocked (ranked : Ranked design rank mod) (enough : rank mod.name ≤ fuel)
    (part : ∀ c ∈ cell :: cells, c ∈ mod.cells) (clocked : isClockedCell cell = true) :
    Returns design mod (cell :: cells)
      ((cell :: cells).foldlM (visit design fuel mod) none) := by
  have part' : ∀ c ∈ cells, c ∈ mod.cells := fun c member => part c (mem_cons_of_mem _ member)
  constructor
  · rw [fold_cons]
    constructor
    · rintro ⟨next, first, rest⟩
      obtain ⟨used, -, rfl, -⟩ := (checkCell_clocked clocked).mp first
      cases fold_some rest
    · intro quiet
      have unclocked := (quiet cell mem_cons_self).1
      rw [clocked] at unclocked
      cases unclocked
  · intro clock
    rw [fold_cons]
    constructor
    · rintro ⟨next, first, rest⟩
      obtain ⟨used, value, rfl, -⟩ := (checkCell_clocked clocked).mp first
      obtain ⟨same, sames, passed⟩ := (fold_own ranked enough part' (cellClock_owner value)).mp rest
      obtain rfl := some.inj same
      exact ⟨[], .own clocked value sames passed⟩
    · rintro ⟨path, located⟩
      cases located with
      | skip quiet _ => exact absurd clocked (by simp [quiet.1])
      | own _ used same passed =>
        refine ⟨some clock, (checkCell_clocked clocked).mpr ⟨clock, used, rfl, by simp⟩, ?_⟩
        exact (fold_own ranked enough part' (cellClock_owner used)).mpr ⟨rfl, same, passed⟩
      | child unclocked _ _ _ => exact absurd clocked (by simp [unclocked])

private theorem returns_quiet {check : Module → Option Clock → Check (Option Clock)}
    (quiet : Quiet design cell) (first : checkCell design check mod none cell = .ok none)
    (unlocated : ∀ other path clock, design.module cell.type = some other →
      ¬ Located design other other.cells path clock)
    (tail : Returns design mod cells (cells.foldlM (checkCell design check mod) none)) :
    Returns design mod (cell :: cells) ((cell :: cells).foldlM (checkCell design check mod) none) := by
  have step (result : Option Clock) :
      (cell :: cells).foldlM (checkCell design check mod) none = .ok result ↔
        cells.foldlM (checkCell design check mod) none = .ok result := by
    rw [fold_cons]
    simp [first]
  constructor
  · rw [step, tail.nothing, forall_mem_cons]
    exact ⟨fun rest => ⟨quiet, rest⟩, fun both => both.2⟩
  · intro clock
    rw [step, tail.clock]
    constructor
    · rintro ⟨path, located⟩
      exact ⟨path, .skip quiet located⟩
    · rintro ⟨path, located⟩
      cases located with
      | skip _ rest => exact ⟨path, rest⟩
      | own clocked _ _ _ => exact absurd clocked (by simp [quiet.1])
      | child _ found inside _ => exact absurd inside (unlocated _ _ _ found)

section

variable {other : Module} (unclocked : isClockedCell cell = false)
  (inst : design.module cell.type = some other)

include unclocked inst

private theorem returns_instance {found : Clock} {path : List IdString}
    (foreign : found.owner ≠ mod.name)
    (value : checkClock design fuel other none = .ok (some found))
    (inside : Located design other other.cells path found) (loud : ¬ Clockless design other)
    (only : ∀ clock path, Located design other other.cells path clock → clock = found) :
    Returns design mod (cell :: cells)
      ((cell :: cells).foldlM (visit design fuel mod) none) := by
  have step (result : Option Clock) :
      (cell :: cells).foldlM (visit design fuel mod) none = .ok result ↔
        result = some found ∧ ∀ c ∈ cells, Plain design c := by
    have first : visit design fuel mod none cell = .ok (some found) :=
      (checkCell_instance unclocked inst).mpr ⟨_, value, .inl ⟨rfl, rfl⟩⟩
    rw [fold_cons]
    simp only [first, Except.ok.injEq, exists_eq_left']
    exact fold_foreign foreign fun other => checkClock_nonempty fuel other found
  constructor
  · rw [step]
    constructor
    · rintro ⟨absent, -⟩
      cases absent
    · intro quiet
      exact absurd ((quiet cell mem_cons_self).2 other inst) loud
  · intro clock
    rw [step]
    constructor
    · rintro ⟨same, plain⟩
      obtain rfl := some.inj same
      exact ⟨_, .child unclocked inst inside plain⟩
    · rintro ⟨path', located⟩
      cases located with
      | skip quiet _ => exact absurd (quiet.2 other inst) loud
      | own clocked _ _ _ => exact absurd clocked (by simp [unclocked])
      | child _ inst' inside' plain =>
        obtain rfl := some.inj (inst.symm.trans inst')
        exact ⟨by rw [only _ _ inside'], plain⟩

private theorem returns_child (ranked : Ranked design rank other)
    (below : rank other.name < rank mod.name)
    (inner : Returns design other other.cells (checkClock design fuel other none))
    (rest : Returns design mod cells (cells.foldlM (visit design fuel mod) none)) :
    Returns design mod (cell :: cells)
      ((cell :: cells).foldlM (visit design fuel mod) none) := by
  have quiet_iff : Quiet design cell ↔ checkClock design fuel other none = .ok none := by
    rw [inner.nothing, ← clockless_iff, Quiet]
    simp [unclocked, inst]
  cases value : checkClock design fuel other none with
  | error e =>
    -- the error is the result, and neither a quiet nor a located cell has one
    have loud : ¬ Quiet design cell := by simp [quiet_iff, value]
    have failed : (cell :: cells).foldlM (visit design fuel mod) none = .error e := by
      simp [checkCell, unclocked, inst, value, bind, Except.bind]
    constructor
    · rw [failed]
      constructor
      · intro absent
        cases absent
      · exact fun quiet => absurd (quiet cell mem_cons_self) loud
    · intro clock
      rw [failed]
      constructor
      · intro absent
        cases absent
      · rintro ⟨path, located⟩
        cases located with
        | skip quiet _ => exact absurd quiet loud
        | own clocked _ _ _ => exact absurd clocked (by simp [unclocked])
        | child _ inst' inside _ =>
          obtain rfl := some.inj (inst.symm.trans inst')
          rw [(inner.clock clock).mpr ⟨_, inside⟩] at value
          cases value
  | ok found =>
    cases found with
    | none =>
      have first : visit design fuel mod none cell = .ok none :=
        (checkCell_instance unclocked inst).mpr ⟨_, value, .inl ⟨rfl, rfl⟩⟩
      refine returns_quiet (quiet_iff.mpr value) first ?_ rest
      intro other' path clock inst' inside
      obtain rfl := some.inj (inst.symm.trans inst')
      rw [(inner.clock clock).mpr ⟨_, inside⟩] at value
      cases value
    | some found =>
      obtain ⟨path, inside⟩ := (inner.clock found).mp value
      obtain ⟨target, -, reached, owner, -⟩ := inside.exists_use fun _ member => member
      have foreign : found.owner ≠ mod.name := by
        intro same
        have := ranked.le reached
        rw [owner, same] at this
        omega
      refine returns_instance unclocked inst foreign value inside ?_ ?_
      · intro clockless
        rw [inner.nothing.mpr (clockless_iff.mp clockless)] at value
        cases value
      · intro clock path' located
        rw [(inner.clock clock).mpr ⟨_, located⟩] at value
        exact some.inj (Except.ok.inj value)

end

theorem fold_none (ranked : Ranked design rank mod) (enough : rank mod.name ≤ fuel)
    (part : ∀ c ∈ cells, c ∈ mod.cells)
    (ih : ∀ other, Ranked design rank other → rank other.name < fuel →
      Returns design other other.cells (checkClock design fuel other none)) :
    Returns design mod cells (cells.foldlM (visit design fuel mod) none) := by
  induction cells with
  | nil =>
    constructor
    · simp [pure, Except.pure]
    · intro clock
      constructor
      · intro absent
        cases absent
      · rintro ⟨path, located⟩
        cases located
  | cons cell cells tail =>
    have rest := tail fun c member => part c (mem_cons_of_mem _ member)
    cases clocked : isClockedCell cell with
    | true => exact returns_clocked ranked enough part clocked
    | false =>
      cases inst : design.module cell.type with
      | none =>
        refine returns_quiet ⟨clocked, ?_⟩ (checkCell_plain ⟨clocked, inst⟩) ?_ rest
        · intro other found
          rw [inst] at found
          cases found
        · intro other _ _ found
          rw [inst] at found
          cases found
      | some other =>
        obtain ⟨ranked', below⟩ := ranked.child (part cell mem_cons_self) clocked inst
        exact returns_child clocked inst ranked' below (ih other ranked' (by omega)) rest

/-- The search finds nothing exactly below a clockless module, and otherwise succeeds exactly where
the clock can be located. -/
theorem checkClock_returns (ranked : Ranked design rank mod) (enough : rank mod.name < fuel) :
    Returns design mod mod.cells (checkClock design fuel mod none) := by
  induction fuel generalizing mod with
  | zero => omega
  | succ fuel ih =>
    exact fold_none ranked (by omega) (fun _ member => member)
      fun other ranked' below => ih ranked' below

theorem clockless_of_plain (plain : ∀ c ∈ mod.cells, Plain design c) : Clockless design mod :=
  clockless_iff.mpr fun c member => ⟨(plain c member).1, fun other found => by
    rw [(plain c member).2] at found
    cases found⟩

theorem Located.uses (located : Located design mod cells path clock)
    (others : ∀ c ∈ mod.cells, c ∈ cells ∨ Quiet design c) {path' : List IdString} {target : Module}
    {used : Cell} (inst : Instance design mod path' target) (member : used ∈ target.cells)
    (clocked : isClockedCell used = true) :
    path' = path ∧ target.name = clock.owner ∧ cellClock target used = .ok clock := by
  have loud : ∀ {other : Module} {rest : List IdString}, Instance design other rest target →
      ¬ Clockless design other := by
    intro other rest below clockless
    have := clockless _ _ below used member
    rw [clocked] at this
    cases this
  induction located generalizing path' with
  | @skip mod cell cells path clock quiet _ ih =>
    refine ih (fun c here => ?_) inst
    rcases others c here with listed | quiet'
    · rcases mem_cons.mp listed with rfl | listed
      · exact .inr quiet
      · exact .inl listed
    · exact .inr quiet'
  | @own mod cell cells clock first value same passed =>
    cases inst with
    | here =>
      refine ⟨rfl, (cellClock_owner value).symm, ?_⟩
      rcases others used member with listed | quiet
      · rcases mem_cons.mp listed with rfl | listed
        · exact value
        · exact same used listed clocked
      · exact absurd clocked (by simp [quiet.1])
    | @child _ other _ via _ here unclocked found rest =>
      rcases others via here with listed | quiet
      · rcases mem_cons.mp listed with rfl | listed
        · exact absurd first (by simp [unclocked])
        · exact absurd (clockless_of_plain (passed via listed unclocked other found).1) (loud rest)
      · exact absurd (quiet.2 other found) (loud rest)
  | @child mod other cell cells path clock unclocked found inside plain ih =>
    cases inst with
    | here =>
      rcases others used member with listed | quiet
      · rcases mem_cons.mp listed with rfl | listed
        · exact absurd clocked (by simp [unclocked])
        · exact absurd clocked (by simp [(plain used listed).1])
      · exact absurd clocked (by simp [quiet.1])
    | @child _ other' _ via _ here unclocked' found' rest =>
      rcases others via here with listed | quiet
      · rcases mem_cons.mp listed with rfl | listed
        · obtain rfl := some.inj (found.symm.trans found')
          obtain ⟨same, owner, value⟩ := ih (fun c here => .inl here) rest
          exact ⟨by rw [same], owner, value⟩
        · rw [(plain via listed).2] at found'
          cases found'
      · exact absurd (quiet.2 other' found') (loud rest)

end ManticoreFrontend.Passes.ClockSearch
