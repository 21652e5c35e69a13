/- source: passes/opt/opt_clean.cc (keep_cache_t), kernel/rtlil.h (has_keep_attr)
   digest: The cached search for modules with something to keep, over any instance graph. -/

import ManticoreFrontend.Kernel.Netlist

namespace ManticoreFrontend.Passes.OptCleanKeep

open Kernel Constants CellTypes Signals Netlist List

abbrev Attributes := List (AttrId × Const)

def getBoolAttribute (attributes : Attributes) (id : AttrId) : Bool :=
  ((attributes.lookup id).getD []).asBool

def keepAttr : AttrId := .other "keep"

/-- A module with its attributes and those of its wires. -/
structure AttrModule extends Module where
  attributes : Attributes := []
  wireAttributes : Wire → Attributes := fun _ => []

namespace AttrModule

def hasKeep (mod : AttrModule) : Bool := getBoolAttribute mod.attributes keepAttr

def wireKept (mod : AttrModule) (w : Wire) : Bool := getBoolAttribute (mod.wireAttributes w) keepAttr

end AttrModule

abbrev Design := List AttrModule

variable (d : Design)

/-- `design->module(type)`; the internal types name no module. -/
def Design.module : CellType → Option AttrModule
  | .other id => d.find? (fun m => m.name == id)
  | _ => none

def hasKeepAttr (cell : Cell) : Bool :=
  getBoolAttribute cell.attributes keepAttr || ((d.module cell.type).map AttrModule.hasKeep).getD false

def isFormal (type : CellType) : Bool :=
  type = .other "$assert" || type = .other "$assume" || type = .other "$live" ||
    type = .other "$fair" || type = .other "$cover"

def isSpecify (type : CellType) : Bool :=
  type = .other "$specify2" || type = .other "$specify3" || type = .other "$specrule"

def keptAlone (ignoreSpecify : Bool) (cell : Cell) : Bool :=
  isFormal cell.type || (!ignoreSpecify && isSpecify cell.type) || hasKeepAttr d cell

/-- The answers known so far. A module under evaluation has the answer `true`. -/
abbrev Cache := List (IdString × Bool)

/-- `query(cell, ignore_specify)` over the query for modules. -/
def queryCell (query : Cache → AttrModule → Bool × Cache) (ignoreSpecify : Bool)
    (cache : Cache) (cell : Cell) : Bool × Cache :=
  if keptAlone d ignoreSpecify cell then (true, cache)
  else match d.module cell.type with
    | some m => query cache m
    | none => (false, cache)

/-- The loop over the cells of a module, left at the first kept one. -/
def queryCells (d : Design) (query : Cache → AttrModule → Bool × Cache) :
    Cache → List Cell → Bool × Cache
  | cache, [] => (false, cache)
  | cache, cell :: cells =>
    let (kept, cache) := queryCell d query true cache cell
    if kept then (true, cache) else queryCells d query cache cells

/-- `query(module)`. Each level of the recursion has entered one more module of the design into the
cache, which bounds the depth. -/
def queryModule (d : Design) : Nat → Cache → AttrModule → Bool × Cache
  | 0, cache, _ => (true, cache)
  | depth + 1, cache, m =>
    match cache.lookup m.name with
    | some kept => (kept, cache)
    | none =>
      let cache := (m.name, true) :: cache
      if m.hasKeep then (true, cache)
      else
        let (kept, cache) := queryCells d (queryModule d depth) cache m.cells
        let kept := kept || m.wires.any m.wireKept
        (kept, (m.name, kept) :: cache)

/-- `keep_cache.query(cell)`, as the pass calls it. -/
def query (cache : Cache) (cell : Cell) : Bool × Cache :=
  queryCell d (queryModule d (d.length + 1)) false cache cell

/-- A module with nothing to keep in it or below it. A module that instantiates itself through
others is not one. -/
inductive Plain (d : Design) : AttrModule → Prop
  | intro {m : AttrModule} : m.hasKeep = false → m.wires.any m.wireKept = false →
      (∀ cell ∈ m.cells, keptAlone d true cell = false) →
      (∀ cell ∈ m.cells, ∀ n, d.module cell.type = some n → Plain d n) → Plain d m

/-- The cells that the pass must not remove: those marked, the formal and specify cells, and the
instances of modules with something to keep. -/
def Kept (ignoreSpecify : Bool) (cell : Cell) : Prop :=
  keptAlone d ignoreSpecify cell = true ∨ ∃ m, d.module cell.type = some m ∧ ¬ Plain d m

variable {d : Design}

def Instantiates (d : Design) (m n : AttrModule) : Prop := ∃ cell ∈ m.cells, d.module cell.type = some n

variable {m : AttrModule}

theorem module_name {type : CellType} (h : d.module type = some m) :
    d.find? (fun n => n.name == m.name) = some m := by
  cases type with
  | other id =>
    have found : d.find? (fun n => n.name == id) = some m := h
    have named : m.name = id := by simpa using find?_some found
    rw [named]
    exact found
  | _ => cases h

/-- No cycle of instances goes through a module with nothing to keep. -/
theorem Plain.acyclic (plain : Plain d m) : ¬ Relation.TransGen (Instantiates d) m m := by
  induction plain with
  | @intro m _ _ _ _ ih =>
    intro cycle
    obtain ⟨n, first, rest⟩ := Relation.TransGen.head'_iff.mp cycle
    obtain ⟨cell, member, found⟩ := first
    exact ih cell member n found (Relation.TransGen.tail' rest ⟨cell, member, found⟩)

/-- The entries of the cache are right, apart from those of the modules under evaluation. -/
def Right (d : Design) (path : List IdString) (cache : Cache) : Prop :=
  ∀ m, d.find? (fun n => n.name == m.name) = some m → ∀ kept, cache.lookup m.name = some kept →
    (kept = true ∧ m.name ∈ path) ∨ (kept = true ↔ ¬ Plain d m)

/-- The modules of the design that have no entry yet. -/
def fresh (d : Design) (cache : Cache) : Nat :=
  (d.filter (fun m => (cache.lookup m.name).isNone)).length

/-- What a query returns and leaves behind: the answer is right, and so are the entries it adds. -/
structure Answers (d : Design) (path : List IdString) (cache : Cache) (kept : Prop)
    (result : Bool × Cache) : Prop where
  answer : result.1 = true ↔ kept
  right : Right d path result.2
  grows : ∀ name, (cache.lookup name).isSome = true → (result.2.lookup name).isSome = true

variable {cache : Cache} {path : List IdString}

theorem fresh_le {cache' : Cache}
    (grows : ∀ name, (cache.lookup name).isSome = true → (cache'.lookup name).isSome = true) :
    fresh d cache' ≤ fresh d cache := by
  apply List.Sublist.length_le
  apply monotone_filter_right
  intro m none
  rw [Option.isNone_iff_eq_none] at none ⊢
  by_contra known
  have still := grows m.name (Option.isSome_iff_ne_none.mpr known)
  rw [none] at still
  cases still

theorem lookup_cons_self (name : IdString) (kept : Bool) (cache : Cache) :
    List.lookup name ((name, kept) :: cache) = some kept :=
  List.lookup_cons_self

theorem lookup_cons_ne {name other : IdString} (h : other ≠ name) (kept : Bool) (cache : Cache) :
    List.lookup other ((name, kept) :: cache) = cache.lookup other := by
  rw [lookup_cons, beq_false_of_ne h]

theorem grows_cons (name : IdString) (kept : Bool) (cache : Cache) (other : IdString)
    (known : (cache.lookup other).isSome = true) :
    (List.lookup other ((name, kept) :: cache)).isSome = true := by
  by_cases same : other = name
  · rw [same, lookup_cons_self]
    rfl
  · rw [lookup_cons_ne same]
    exact known

theorem fresh_enter (member : m ∈ d) (unknown : cache.lookup m.name = none) :
    fresh d ((m.name, true) :: cache) < fresh d cache := by
  have sub : (d.filter (fun n => (lookup n.name ((m.name, true) :: cache)).isNone)).Sublist
      (d.filter (fun n => (cache.lookup n.name).isNone)) := by
    apply monotone_filter_right
    intro n none
    by_cases same : n.name = m.name
    · rw [same, lookup_cons_self] at none
      cases none
    · rwa [lookup_cons_ne same] at none
  have here : m ∈ d.filter (fun n => (cache.lookup n.name).isNone) := by
    simp [member, unknown]
  have gone : m ∉ d.filter (fun n => (lookup n.name ((m.name, true) :: cache)).isNone) := by
    simp
  have shorter := sub.length_le
  by_contra notLess
  have same := sub.eq_of_length (by unfold fresh at notLess; omega)
  exact gone (same ▸ here)

theorem Right.weaken (right : Right d path cache) (name : IdString) :
    Right d (name :: path) cache := by
  intro m named kept entry
  rcases right m named kept entry with ⟨isTrue, onPath⟩ | answer
  · exact .inl ⟨isTrue, mem_cons_of_mem _ onPath⟩
  · exact .inr answer

theorem Right.enter (right : Right d path cache) (name : IdString) :
    Right d (name :: path) ((name, true) :: cache) := by
  intro n namedN kept entry
  by_cases same : n.name = name
  · rw [same, lookup_cons_self] at entry
    exact .inl ⟨(Option.some.inj entry).symm, by simp [same]⟩
  · rw [lookup_cons_ne same] at entry
    exact right.weaken name n namedN kept entry

theorem Right.leave (right : Right d (m.name :: path) cache)
    (named : d.find? (fun n => n.name == m.name) = some m) {kept : Bool}
    (answer : kept = true ↔ ¬ Plain d m) : Right d path ((m.name, kept) :: cache) := by
  intro n namedN kept' entry
  by_cases same : n.name = m.name
  · have equal : n = m := by
      rw [same, named] at namedN
      exact (Option.some.inj namedN).symm
    rw [same, lookup_cons_self] at entry
    rw [equal, ← Option.some.inj entry]
    exact .inr answer
  · rw [lookup_cons_ne same] at entry
    rcases right n namedN kept' entry with ⟨isTrue, onPath⟩ | answer'
    · exact .inl ⟨isTrue, (mem_cons.mp onPath).resolve_left same⟩
    · exact .inr answer'

/-- What is asked of the query for modules inside the evaluation of `m`. -/
def Queries (d : Design) (path : List IdString) (m : AttrModule) (size : Nat)
    (query : Cache → AttrModule → Bool × Cache) : Prop :=
  ∀ cache n, Right d path cache → fresh d cache ≤ size → Instantiates d m n →
    Answers d path cache (¬ Plain d n) (query cache n)

theorem queryCell_answers {query : Cache → AttrModule → Bool × Cache} {cell : Cell}
    {ignoreSpecify : Bool} (right : Right d path cache)
    (queries : ∀ n, d.module cell.type = some n → Answers d path cache (¬ Plain d n) (query cache n)) :
    Answers d path cache (Kept d ignoreSpecify cell) (queryCell d query ignoreSpecify cache cell) := by
  unfold queryCell
  split
  · rename_i alone
    exact ⟨⟨fun _ => .inl alone, fun _ => rfl⟩, right, fun _ known => known⟩
  · rename_i alone
    cases found : d.module cell.type with
    | none =>
      refine ⟨⟨fun h => (by cases h), ?_⟩, right, fun _ known => known⟩
      rintro (kept | ⟨m, here, -⟩)
      · exact absurd kept alone
      · rw [found] at here
        cases here
    | some n =>
      obtain ⟨answer, right', grows⟩ := queries n found
      refine ⟨?_, right', grows⟩
      rw [answer]
      constructor
      · intro kept
        exact .inr ⟨n, found, kept⟩
      · rintro (kept | ⟨m, here, kept⟩)
        · exact absurd kept alone
        · rw [found] at here
          obtain rfl := Option.some.inj here
          exact kept

theorem queryCells_answers {size : Nat} {query : Cache → AttrModule → Bool × Cache}
    (queries : Queries d path m size query) (cells : List Cell)
    (sub : ∀ cell ∈ cells, cell ∈ m.cells) (cache : Cache) (right : Right d path cache)
    (small : fresh d cache ≤ size) :
    Answers d path cache (∃ cell ∈ cells, Kept d true cell) (queryCells d query cache cells) := by
  induction cells generalizing cache with
  | nil => exact ⟨by simp [queryCells], right, fun _ known => known⟩
  | cons cell cells ih =>
    have first : Answers d path cache (Kept d true cell) (queryCell d query true cache cell) := by
      apply queryCell_answers right
      intro n found
      exact queries cache n right small ⟨cell, sub cell (mem_cons_self ..), found⟩
    simp only [queryCells]
    cases kept : (queryCell d query true cache cell).1 with
    | true =>
      refine ⟨⟨fun _ => ?_, fun _ => by simp⟩, by simpa using first.right, by simpa using first.grows⟩
      exact ⟨cell, mem_cons_self .., first.answer.mp kept⟩
    | false =>
      have plain : ¬ Kept d true cell := by
        rw [← first.answer, kept]
        simp
      have rest := ih (fun c member => sub c (mem_cons_of_mem _ member)) _ first.right
        ((fresh_le first.grows).trans small)
      refine ⟨?_, by simpa using rest.right, fun name known => ?_⟩
      · simp [rest.answer, plain]
      · simpa using rest.grows name (first.grows name known)

theorem not_plain_iff (unmarked : m.hasKeep = false) :
    ¬ Plain d m ↔ (∃ cell ∈ m.cells, Kept d true cell) ∨ m.wires.any m.wireKept = true := by
  constructor
  · intro kept
    by_contra none
    obtain ⟨cells, wires⟩ := not_or.mp none
    apply kept
    have plainCells : ∀ cell ∈ m.cells, ¬ Kept d true cell :=
      fun cell member here => cells ⟨cell, member, here⟩
    refine .intro unmarked (by simpa using wires) ?_ ?_
    · intro cell member
      by_contra alone
      exact plainCells cell member (.inl (by simpa using alone))
    · intro cell member n found
      by_contra kept
      exact plainCells cell member (.inr ⟨n, found, kept⟩)
  · intro kept plain
    cases plain with
    | intro _ wires alone below =>
      rcases kept with ⟨cell, member, here | ⟨n, found, here⟩⟩ | wire
      · simp [alone cell member] at here
      · exact here (below cell member n found)
      · simp [wires] at wire

/-- Inside any evaluation, the query for a module that every module under evaluation instantiates,
directly or through others, is right. -/
theorem queryModule_answers (depth : Nat) (path : List IdString) (cache : Cache) (m : AttrModule)
    (named : d.find? (fun n => n.name == m.name) = some m) (right : Right d path cache)
    (below : ∀ p, d.find? (fun n => n.name == p.name) = some p → p.name ∈ path →
      Relation.TransGen (Instantiates d) p m)
    (deep : fresh d cache < depth) :
    Answers d path cache (¬ Plain d m) (queryModule d depth cache m) := by
  induction depth generalizing path cache m with
  | zero => omega
  | succ depth ih =>
    unfold queryModule
    cases known : cache.lookup m.name with
    | some kept =>
      refine ⟨?_, right, fun _ known => known⟩
      rcases right m named kept known with ⟨isTrue, onPath⟩ | answer
      · -- a module under evaluation instantiates itself
        have cycle := below m named onPath
        simp only [isTrue, true_iff]
        exact fun plain => plain.acyclic cycle
      · exact answer
    | none =>
      have member : m ∈ d := mem_of_find?_eq_some named
      have enter := fresh_enter member known
      cases marked : m.hasKeep with
      | true =>
        have kept : ¬ Plain d m := by
          intro plain
          cases plain with
          | intro unmarked _ _ _ => simp [unmarked] at marked
        exact ⟨by simp [kept], (right.weaken m.name).leave named (by simp [kept]),
          fun name => grows_cons _ _ _ name⟩
      | false =>
        have inner : Queries d (m.name :: path) m (fresh d ((m.name, true) :: cache))
            (queryModule d depth) := by
          intro cache' n right' small inst
          obtain ⟨cell, member, found⟩ := inst
          apply ih (m.name :: path) cache' n (module_name found) right' ?_ (by omega)
          intro p namedP onPath
          have last : Instantiates d m n := ⟨cell, member, found⟩
          rcases mem_cons.mp onPath with same | onPath
          · rw [same, named] at namedP
            obtain rfl := Option.some.inj namedP
            exact .single last
          · exact .tail (below p namedP onPath) last
        have cells := queryCells_answers inner m.cells (fun _ member => member)
          ((m.name, true) :: cache) (right.enter m.name) (Nat.le_refl _)
        have answer : ((queryCells d (queryModule d depth) ((m.name, true) :: cache) m.cells).1 ||
            m.wires.any m.wireKept) = true ↔ ¬ Plain d m := by
          rw [not_plain_iff marked, Bool.or_eq_true, cells.answer]
        exact ⟨answer, cells.right.leave named answer,
          fun name known => grows_cons _ _ _ name (cells.grows name (grows_cons _ _ _ name known))⟩

/-- The cache between two queries of the pass. -/
abbrev Settled (d : Design) (cache : Cache) : Prop := Right d [] cache

theorem settled_empty : Settled d [] := by
  intro m _ kept entry
  cases entry

theorem query_answers (settled : Settled d cache) (cell : Cell) :
    Answers d [] cache (Kept d false cell) (query d cache cell) := by
  apply queryCell_answers settled
  intro n found
  have small : fresh d cache ≤ d.length := length_filter_le _ _
  apply queryModule_answers _ _ _ _ (module_name found) settled ?_ (by omega)
  intro p _ onPath
  cases onPath

end ManticoreFrontend.Passes.OptCleanKeep
