/- source: kernel/hashlib.h (dict, pool: iterators, operator==, hash)
   digest: Loops that erase and insert visit what was there at the start, once each; comparison and
     hash see the contents only. -/

import ManticoreFrontend.Kernel.HashMaps

namespace ManticoreFrontend.Kernel.HashLoops

open Foundation.Outcome HashTables HashChains HashErase HashMaps List

variable {K E : Type} (d : Container K E)

/-- What the body of the loop does at an entry: insertions, then `it = erase(it)` or `++it`, then
insertions again. -/
structure Round (E : Type) where
  before : List E
  erase : Bool
  after : List E

/-- The container, and the visited entries, each with whether it was erased. -/
structure Progress (E : Type) where
  table : Table E
  visited : List (E × Bool)

def insertAll (t : Table E) (es : List E) : Except Failure (Table E) :=
  es.foldlM (fun t e => return (← t.insert d e).2.2) t

/-- The container after `it = erase(it)` or `++it`; both give the iterator with the index below. -/
def advance (t : Table E) (i : Nat) (erased : Bool) : Except Failure (Table E) :=
  if erased then t.eraseIterator d i else .ok t

variable (body : List (E × Bool) → E → Round E)

/-- The body at the iterator with index `i`; it may depend on what was visited before. -/
def visit (s : Progress E) (i : Nat) : Except Failure (Progress E) := do
  let x ← s.table.entryAt i
  let round := body s.visited x.udata
  let t ← insertAll d s.table round.before
  let t ← advance d t i round.erase
  let t ← insertAll d t round.after
  return ⟨t, s.visited ++ [(x.udata, round.erase)]⟩

/-- The loop from the iterator with index `n - 1` to the end, which has index -1. -/
def iterate : Nat → Progress E → Except Failure (Progress E)
  | 0, s => .ok s
  | n + 1, s => do
    let s ← visit d body s n
    iterate n s

def loop (t : Table E) : Except Failure (Progress E) := iterate d body t.entries.length ⟨t, []⟩

/-- The loop over a map: what was visited, the insertions of a key that was not there, and the largest
size that the map had. -/
structure MapLoop (E : Type) where
  map : AssocMap E
  visited : List (E × Bool)
  inserted : List E
  peak : Nat

namespace MapLoop

def insert (s : MapLoop E) (e : E) : MapLoop E :=
  let map := (assocInsert d s.map e).1
  { s with
    map := map
    inserted := if (assocFind d s.map (d.key e)).isNone then s.inserted ++ [e] else s.inserted
    peak := max s.peak map.length }

def advance (s : MapLoop E) (x : E) (erased : Bool) : MapLoop E :=
  { s with
    map := if erased then assocErase d s.map (d.key x) else s.map
    visited := s.visited ++ [(x, erased)] }

def visit (s : MapLoop E) (x : E) : MapLoop E :=
  let round := body s.visited x
  round.after.foldl (insert d) (advance d (round.before.foldl (insert d) s) x round.erase)

def run (xs : List E) (m : AssocMap E) : MapLoop E := xs.foldl (visit d body) ⟨m, [], [], m.length⟩

end MapLoop

variable {d : Container K E} {limit n : Nat} {t : Table E} {start : List E} {s : Progress E}
  {a : MapLoop E} {body : List (E × Bool) → E → Round E}

@[simp] theorem MapLoop.insertAll_visited (es : List E) :
    (es.foldl (insert d) a).visited = a.visited := by
  induction es generalizing a with
  | nil => rfl
  | cons e es ih => exact ih

theorem MapLoop.visit_visited (x : E) :
    (visit d body a x).visited = a.visited ++ [(x, (body a.visited x).erase)] := by
  simp [visit, advance]

private theorem foldl_peak_le {α : Type} {f : MapLoop E → α → MapLoop E}
    (grows : ∀ s x, s.peak ≤ (f s x).peak) (xs : List α) (a : MapLoop E) :
    a.peak ≤ (xs.foldl f a).peak := by
  induction xs generalizing a with
  | nil => exact le_rfl
  | cons x xs ih => exact (grows a x).trans (ih _)

private theorem MapLoop.peak_le_insertAll (es : List E) (a : MapLoop E) :
    a.peak ≤ (es.foldl (insert d) a).peak :=
  foldl_peak_le (fun _ _ => le_max_left _ _) es a

private theorem MapLoop.before_peak_le (a : MapLoop E) (x : E) :
    ((body a.visited x).before.foldl (insert d) a).peak ≤ (a.visit d body x).peak :=
  peak_le_insertAll (body a.visited x).after (advance d _ x (body a.visited x).erase)

private theorem MapLoop.peak_le_visits (xs : List E) (a : MapLoop E) :
    a.peak ≤ (xs.foldl (visit d body) a).peak :=
  foldl_peak_le (fun a x => (peak_le_insertAll _ a).trans (before_peak_le a x)) xs a

/-- The entries below `n` are those of the start, and the contents are those of the loop over the
map. -/
structure Upto (d : Container K E) (limit : Nat) (start : List E) (n : Nat) (s : Progress E)
    (a : MapLoop E) : Prop where
  refines : Refines d limit s.table a.map
  ahead : s.table.data.take n = start.take n
  visited : s.visited = a.visited

private theorem take_data_eq {t' : Table E} (longer : t.data <+: t'.data) (bound : n ≤ start.length)
    (ahead : t.data.take n = start.take n) : t'.data.take n = start.take n := by
  obtain ⟨rest, same⟩ := longer
  have length : n ≤ t.data.length := by
    have := congrArg List.length ahead
    rw [length_take, length_take] at this
    omega
  rw [← same, take_append_of_le_length length, ahead]

theorem returns_insertAll (es : List E) (refines : Refines d limit t a.map)
    (enough : d.alloc.ratio * (es.foldl (MapLoop.insert d) a).peak ≤ limit) :
    Returns (TooLarge limit) (insertAll d t es) (fun t' =>
      Refines d limit t' (es.foldl (MapLoop.insert d) a).map ∧ t.data <+: t'.data) := by
  induction es generalizing t a with
  | nil => exact Returns.ok ⟨refines, prefix_rfl⟩
  | cons e es ih =>
    have fits : d.alloc.ratio * (assocInsert d a.map e).1.length ≤ limit := by
      refine (Nat.mul_le_mul_left _ ?_).trans enough
      exact (le_max_right _ _).trans (MapLoop.peak_le_insertAll es (a.insert d e))
    have first : Returns (TooLarge limit) (do return (← t.insert d e).2.2) (fun t' =>
        Refines d limit t' (a.insert d e).map ∧ t.data <+: t'.data) :=
      (refines.insert e fits).bind fun r after => Returns.ok ⟨after.1, after.2.2.1⟩
    refine first.bind fun t' next => ?_
    refine (ih (a := a.insert d e) next.1 enough).mono fun t'' last => ?_
    exact ⟨last.1, next.2.trans last.2⟩

private theorem Upto.here (upto : Upto d limit start (n + 1) s a) (inside : n < start.length) :
    ∃ e, s.table.entries[n]? = some e ∧ e.udata = start[n] := by
  have same := congrArg (·[n]?) upto.ahead
  exact entry_of_data (by simpa [inside] using same)

private theorem Upto.advance (upto : Upto d limit start (n + 1) s a) (inside : n < start.length)
    (erased : Bool) :
    ∃ t, advance d s.table n erased = .ok t ∧
      Upto d limit start n ⟨t, s.visited ++ [(start[n], erased)]⟩ (a.advance d start[n] erased) := by
  have ahead : s.table.data.take n = start.take n := by
    have shorter := congrArg (List.take n) upto.ahead
    simpa [take_take] using shorter
  have visited := congrArg (· ++ [(start[n], erased)]) upto.visited
  cases erased with
  | true =>
    obtain ⟨e, at_n, value⟩ := upto.here inside
    obtain ⟨t, erase, valid, gone, front⟩ := doErase_spec upto.refines.valid at_n
    rw [value] at gone
    refine ⟨t, ?_, ⟨valid, ?_⟩, front.trans ahead, visited⟩
    · rw [HashLoops.advance, if_pos rfl, Table.eraseIterator, entryAt_nat at_n, ok_bind, erase]
      rfl
    · exact perm_assocErase (gone.trans upto.refines.perm) upto.refines.distinct (d.ops.refl _)
  | false => exact ⟨s.table, rfl, upto.refines, ahead, visited⟩

private theorem Upto.visit (upto : Upto d limit start (n + 1) s a) (inside : n < start.length)
    (enough : d.alloc.ratio * (a.visit d body start[n]).peak ≤ limit) :
    Returns (TooLarge limit) (visit d body s n)
      (fun s => Upto d limit start n s (a.visit d body start[n])) := by
  obtain ⟨e, at_n, value⟩ := upto.here inside
  rw [HashLoops.visit, entryAt_nat at_n, ok_bind, value, upto.visited]
  have before := returns_insertAll (body a.visited start[n]).before upto.refines <|
    (Nat.mul_le_mul_left _ (MapLoop.before_peak_le a start[n])).trans enough
  refine before.bind fun t grown => ?_
  have upto' : Upto d limit start (n + 1) ⟨t, s.visited⟩
      ((body a.visited start[n]).before.foldl (MapLoop.insert d) a) :=
    ⟨grown.1, take_data_eq grown.2 inside upto.ahead, by simpa using upto.visited⟩
  obtain ⟨t', left, next⟩ := upto'.advance inside (body a.visited start[n]).erase
  rw [left, ok_bind]
  refine (returns_insertAll _ next.refines enough).bind fun t'' after => ?_
  refine Returns.ok ⟨after.1, take_data_eq after.2 inside.le next.ahead, ?_⟩
  rw [MapLoop.visit_visited]

private theorem Upto.iterate (upto : Upto d limit start n s a) (bound : n ≤ start.length)
    (enough : d.alloc.ratio * ((start.take n).reverse.foldl (MapLoop.visit d body) a).peak ≤ limit) :
    Returns (TooLarge limit) (iterate d body n s) (fun s =>
      Upto d limit start 0 s ((start.take n).reverse.foldl (MapLoop.visit d body) a)) := by
  induction n generalizing s a with
  | zero => exact upto
  | succ n ih =>
    have order : (start.take (n + 1)).reverse = start[n] :: (start.take n).reverse := by
      rw [take_succ_eq_append_getElem bound, reverse_append, reverse_singleton, singleton_append]
    rw [order, foldl_cons] at enough ⊢
    refine (upto.visit bound ?_).bind fun s next => ih next (Nat.le_of_succ_le bound) enough
    exact (Nat.mul_le_mul_left _ (MapLoop.peak_le_visits _ _)).trans enough

theorem returns_loop (valid : Valid d limit t)
    (enough : d.alloc.ratio * (MapLoop.run d body t.data.reverse t.data).peak ≤ limit) :
    Returns (TooLarge limit) (loop d body t) (fun s =>
      Refines d limit s.table (MapLoop.run d body t.data.reverse t.data).map ∧
      s.visited = (MapLoop.run d body t.data.reverse t.data).visited) := by
  have start : Upto d limit t.data t.entries.length ⟨t, []⟩ ⟨t.data, [], [], t.data.length⟩ :=
    ⟨⟨valid, .refl _⟩, rfl, rfl⟩
  have all : t.data.take t.entries.length = t.data := by rw [← data_length, take_length]
  refine (start.iterate (by simp) (by rw [all]; exact enough)).mono fun s upto => ?_
  rw [all] at upto
  exact ⟨upto.refines, upto.visited⟩

def kept (visited : List (E × Bool)) : List E := (visited.filter (fun v => !v.2)).map Prod.fst

/-- Each flag is what the body said at that entry. -/
def Answered (body : List (E × Bool) → E → Round E) (visited : List (E × Bool)) : Prop :=
  ∀ front x erased rest, visited = front ++ (x, erased) :: rest → erased = (body front x).erase

/-- What the loop over a map keeps, with the entries `ahead` still to be visited. -/
structure Between (d : Container K E) (body : List (E × Bool) → E → Round E) (ahead : List E)
    (a : MapLoop E) : Prop where
  distinct : a.map.Pairwise (fun a b => d.ops.cmp (d.key a) (d.key b) = false)
  perm : a.map.Perm (ahead ++ (kept a.visited ++ a.inserted))
  answered : Answered body a.visited

private theorem distinct_insert (e : E)
    (distinct : a.map.Pairwise (fun a b => d.ops.cmp (d.key a) (d.key b) = false)) :
    (a.insert d e).map.Pairwise (fun a b => d.ops.cmp (d.key a) (d.key b) = false) := by
  cases found : assocFind d a.map (d.key e) with
  | some x => simpa [MapLoop.insert, assocInsert, found] using distinct
  | none =>
    have absent : ∀ x ∈ a.map, d.ops.cmp (d.key x) (d.key e) = false := by
      simpa [assocFind] using found
    simpa [MapLoop.insert, assocInsert, found, pairwise_append] using ⟨distinct, absent⟩

private theorem Between.insertAll {ahead : List E} (between : Between d body ahead a) (es : List E) :
    Between d body ahead (es.foldl (MapLoop.insert d) a) := by
  induction es generalizing a with
  | nil => exact between
  | cons e es ih =>
    refine ih ⟨distinct_insert e between.distinct, ?_, between.answered⟩
    cases found : assocFind d a.map (d.key e) with
    | some x => simpa [MapLoop.insert, assocInsert, found] using between.perm
    | none => simpa [MapLoop.insert, assocInsert, found] using between.perm.append_right [e]

private theorem Between.visit {x : E} {ahead : List E} (between : Between d body (x :: ahead) a) :
    Between d body ahead (a.visit d body x) := by
  have answered : Answered body (a.visited ++ [(x, (body a.visited x).erase)]) := by
    intro front y erased rest same
    rcases eq_nil_or_concat' rest with rfl | ⟨rest, last, rfl⟩
    · obtain ⟨rfl, pair⟩ := append_inj' same rfl
      obtain ⟨rfl, rfl⟩ := Prod.mk.inj (cons.inj pair).1
      rfl
    · rw [← cons_append, ← append_assoc] at same
      exact between.answered front y erased rest (append_inj' same rfl).1
  have before := between.insertAll (body a.visited x).before
  refine insertAll ⟨?_, ?_, ?_⟩ _
  · simp only [MapLoop.advance]
    split
    · exact before.distinct.filter _
    · exact before.distinct
  · simp only [MapLoop.advance, MapLoop.insertAll_visited]
    cases (body a.visited x).erase with
    | true =>
      have gone := perm_assocErase before.perm.symm before.distinct (d.ops.refl (d.key x))
      simpa [kept] using gone.symm
    | false =>
      refine before.perm.trans ?_
      simpa [kept] using (@perm_middle _ _ (ahead ++ kept a.visited) _).symm
  · simpa [MapLoop.advance] using answered

private theorem Between.run {xs : List E} (between : Between d body xs a) :
    Between d body [] (xs.foldl (MapLoop.visit d body) a) := by
  induction xs generalizing a with
  | nil => exact between
  | cons x xs ih => exact ih between.visit

private theorem MapLoop.visits_visited (xs : List E) :
    (xs.foldl (visit d body) a).visited.map Prod.fst = a.visited.map Prod.fst ++ xs := by
  induction xs generalizing a with
  | nil => simp
  | cons x xs ih => simp [ih, visit_visited]

/-- A loop that erases visited entries and inserts others does what the loop over the map does, unless
an insertion finds the table too large. It visits the first entries in order and once each, and ends
with those it did not erase and the new ones. -/
theorem loop_visits_once (valid : Valid d limit t) (body : List (E × Bool) → E → Round E) :
    let made := MapLoop.run d body t.data.reverse t.data
    Returns (TooLarge (max limit (d.alloc.ratio * made.peak))) (loop d body t) (fun s =>
      s.visited.map Prod.fst = t.data.reverse ∧ Answered body s.visited ∧
      Refines d (max limit (d.alloc.ratio * made.peak)) s.table (kept s.visited ++ made.inserted)) := by
  intro made
  have between : Between d body [] made := Between.run
    ⟨valid.distinct, by simp [kept], by simp [Answered]⟩
  have order : made.visited.map Prod.fst = t.data.reverse := MapLoop.visits_visited _
  refine (returns_loop (valid.mono (le_max_left _ _)) (le_max_right _ _)).mono ?_
  rintro s ⟨refines, visited⟩
  rw [visited]
  exact ⟨order, between.answered, refines.valid, refines.perm.trans between.perm⟩

section Small

variable {P : E → Prop} {bound : Nat}

/-- All entries are of a kind of which there are few. -/
structure Small (d : Container K E) (P : E → Prop) (bound : Nat) (a : MapLoop E) : Prop where
  distinct : a.map.Pairwise (fun a b => d.ops.cmp (d.key a) (d.key b) = false)
  entries : ∀ x ∈ a.map, P x
  peak : a.peak ≤ bound

variable (few : ∀ l : List E, l.Pairwise (fun a b => d.ops.cmp (d.key a) (d.key b) = false) →
  (∀ x ∈ l, P x) → l.length ≤ bound)

include few

private theorem Small.insertAll (small : Small d P bound a) (es : List E) (kind : ∀ e ∈ es, P e) :
    Small d P bound (es.foldl (MapLoop.insert d) a) := by
  induction es generalizing a with
  | nil => exact small
  | cons e es ih =>
    rw [forall_mem_cons] at kind
    have entries : ∀ x ∈ (a.insert d e).map, P x := by
      intro x member
      unfold MapLoop.insert assocInsert at member
      split at member
      · exact small.entries x member
      · rcases mem_append.mp member with old | new
        · exact small.entries x old
        · rw [mem_singleton.mp new]
          exact kind.1
    have distinct := distinct_insert e small.distinct
    exact ih ⟨distinct, entries, max_le small.peak (few _ distinct entries)⟩ kind.2

theorem Small.run {xs : List E} (small : Small d P bound a) (visited : ∀ x ∈ xs, P x)
    (kind : ∀ seen, ∀ x, P x → ∀ e ∈ (body seen x).before ++ (body seen x).after, P e) :
    Small d P bound (xs.foldl (MapLoop.visit d body) a) := by
  induction xs generalizing a with
  | nil => exact small
  | cons x xs ih =>
    rw [forall_mem_cons] at visited
    have inserts := kind a.visited x visited.1
    rw [forall_mem_append] at inserts
    have before := small.insertAll few _ inserts.1
    have left : Small d P bound
        (((body a.visited x).before.foldl (MapLoop.insert d) a).advance d x (body a.visited x).erase) := by
      refine ⟨?_, fun y member => ?_, before.peak⟩
      · simp only [MapLoop.advance]
        split
        · exact before.distinct.filter _
        · exact before.distinct
      · simp only [MapLoop.advance] at member
        split at member
        · exact before.entries y (mem_of_mem_filter member)
        · exact before.entries y member
    exact ih (left.insertAll few _ inserts.2) visited.2

end Small

def numbers : Container Nat Nat := pool natOps doubling

/-- Each number is replaced by its successor unless it is 9; the last insertion finds 9 again. -/
def successor (_ : List (Nat × Bool)) (n : Nat) : Round Nat :=
  if n = 9 then ⟨[], false, []⟩ else ⟨[n + 1], true, []⟩

theorem loop_visits_once_numbers : ∃ t s, insertAll numbers .empty [9, 8, 3] = .ok t ∧
    loop numbers successor t = .ok s ∧ s.table.data = [9, 4] ∧
    s.visited = [(3, true), (8, true), (9, false)] ∧
    Refines numbers 12 s.table (kept s.visited ++ [4]) := by
  obtain ⟨t, made⟩ : ∃ t, insertAll numbers .empty [9, 8, 3] = .ok t := ⟨_, rfl⟩
  have built : Returns (TooLarge 12) (insertAll numbers .empty [9, 8, 3]) _ :=
    returns_insertAll [9, 8, 3] (a := ⟨[], [], [], 0⟩) (refines_cleared (by decide)) (by decide)
  rw [made] at built
  have visits := loop_visits_once built.1.valid successor
  obtain rfl := Except.ok.inj made
  exact ⟨_, _, rfl, rfl, rfl, rfl, visits.2.2⟩

/-- The loop of `operator==`; `same` compares the values of two entries. -/
def matchAll (d : Container K E) (same : E → E → Bool) (other : Table E) :
    List E → Except Failure (Bool × Table E)
  | [] => .ok (true, other)
  | x :: rest => do
    let r ← other.lookup d (d.key x)
    if r.index < 0 then return (false, r.table)
    else do
      let y ← r.table.entryAt r.index
      if same y.udata x then matchAll d same r.table rest else return (false, r.table)

/-- `operator==`, and the other container, which a lookup may rehash. -/
def equal (d : Container K E) (same : E → E → Bool) (t other : Table E) :
    Except Failure (Bool × Table E) :=
  if t.entries.length ≠ other.entries.length then .ok (false, other)
  else matchAll d same other t.data

/-- `hash` of a `dict`, over the hashes of the entries. -/
def hashAll (hash : E → UInt32) (t : Table E) : UInt32 := (t.data.map hash).foldl (· ^^^ ·) 5381

/-- `hash` of a `pool`, which is declared to return a `bool`. -/
def poolHash (hash : E → UInt32) (t : Table E) : Bool := hashAll hash t != 0

variable {t' : Table E} {limit' : Nat} {m m' : AssocMap E} {same : E → E → Bool}

/-- Each entry of `m` has its own entry of `m'` with an equal key and value, and none is left. -/
def SameMap (d : Container K E) (same : E → E → Bool) (m m' : AssocMap E) : Prop :=
  ∃ f : E → E, (m.map f).Perm m' ∧
    ∀ x ∈ m, d.ops.cmp (d.key (f x)) (d.key x) = true ∧ same (f x) x = true

private theorem returns_matchAll (refines : Refines d limit t m) (xs : List E) :
    Returns (TooLarge limit) (matchAll d same t xs) (fun r => Refines d limit r.2 m ∧
      (r.1 = true ↔ ∀ x ∈ xs, ∃ y, assocFind d m (d.key x) = some y ∧ same y x = true)) := by
  induction xs generalizing t with
  | nil => exact Returns.ok ⟨refines, by simp⟩
  | cons x xs ih =>
    refine (refines.lookup (d.key x)).bind ?_
    rintro r ⟨-, after, -, ⟨none, absent, -⟩ | ⟨i, e, index, at_i, -, found⟩⟩
    · rw [if_pos (by omega)]
      exact Returns.ok ⟨after, by simp [absent]⟩
    · rw [if_neg (by omega), index, entryAt_nat at_i, ok_bind]
      split
      · next equal => exact (ih after).mono fun r h => ⟨h.1, by simp [h.2, found, equal]⟩
      · next differ => exact Returns.ok ⟨after, by simp [found, differ]⟩

private theorem sameMap_iff (left : Refines d limit t m) (right : Refines d limit' t' m') :
    SameMap d same m m' ↔ m.length = m'.length ∧
      ∀ x ∈ m, ∃ y, assocFind d m' (d.key x) = some y ∧ same y x = true := by
  constructor
  · rintro ⟨f, perm, each⟩
    refine ⟨by simpa using perm.length_eq, fun x hx => ⟨f x, ?_, (each x hx).2⟩⟩
    exact assocFind_of_mem right.distinct (perm.subset (mem_map_of_mem hx)) (each x hx).1
  · rintro ⟨length, each⟩
    choose! f found values using each
    have keys : ∀ x ∈ m, d.ops.cmp (d.key (f x)) (d.key x) = true := by
      intro x hx
      have equal := find?_some (found x hx)
      exact equal
    -- two entries cannot share a partner, whose key would be that of both
    have nodup : (m.map f).Nodup := by
      refine pairwise_map.mpr (left.distinct.imp_of_mem fun {a b} ha hb apart shared => ?_)
      rw [d.ops.trans _ _ _ (d.ops.symm _ _ (shared ▸ keys a ha)) (keys b hb)] at apart
      cases apart
    have inside : m.map f ⊆ m' := by
      intro y hy
      obtain ⟨x, hx, rfl⟩ := mem_map.mp hy
      exact mem_of_find?_eq_some (found x hx)
    exact ⟨f, (nodup.subperm inside).perm_of_length_le (by simp [length]),
      fun x hx => ⟨keys x hx, values x hx⟩⟩

/-- The comparison of two containers tells whether they hold the same map, whatever the order of
their entries, and equal containers have equal hashes. Only a lookup in a table beyond the largest
size fails. -/
theorem equal_iff_sameMap (left : Refines d limit t m) (right : Refines d limit' t' m')
    {hash : E → UInt32}
    (agree : ∀ x y, d.ops.cmp (d.key y) (d.key x) = true → same y x = true → hash y = hash x) :
    Returns (TooLarge limit') (equal d same t t') (fun r => Refines d limit' r.2 m' ∧
      (r.1 = true ↔ SameMap d same m m') ∧
      (r.1 = true → hashAll hash t = hashAll hash r.2 ∧ poolHash hash t = poolHash hash r.2)) := by
  have sizes : t.entries.length = t'.entries.length ↔ m.length = m'.length := by
    rw [← left.perm.length_eq, ← right.perm.length_eq, data_length, data_length]
  unfold equal
  split
  · next differ =>
    exact Returns.ok ⟨right, by simp [sameMap_iff left right, ← sizes, differ], by simp⟩
  · next equal =>
    refine (returns_matchAll right t.data).mono fun r h => ?_
    have iff : r.1 = true ↔ SameMap d same m m' := by
      rw [h.2, sameMap_iff left right, ← sizes]
      simp [not_not.mp equal, left.perm.mem_iff]
    refine ⟨h.1, iff, fun yes => ?_⟩
    obtain ⟨f, perm, each⟩ := iff.mp yes
    have mapped : (m.map f).map hash = m.map hash := by
      simpa using fun x hx => agree x (f x) (each x hx).1 (each x hx).2
    have hashes := ((h.1.perm.trans perm.symm).map hash).trans
      (mapped ▸ (left.perm.map hash).symm)
    have same : hashAll hash t = hashAll hash r.2 := hashes.symm.foldl_op_eq
    exact ⟨same, by rw [poolHash, poolHash, same]⟩

def pairTable (a b : Nat) : Table Nat where
  hashtable := ((replicate 23 (-1)).set a 0).set b 1
  entries := [⟨a, -1⟩, ⟨b, -1⟩]
  capacity := 2

theorem equal_iff_sameMap_numbers :
    insertAll numbers .empty [7, 8] = .ok (pairTable 7 8) ∧
    insertAll numbers .empty [8, 7] = .ok (pairTable 8 7) ∧
    equal numbers (fun _ _ => true) (pairTable 7 8) (pairTable 8 7) = .ok (true, pairTable 8 7) ∧
    SameMap numbers (fun _ _ => true) [7, 8] [8, 7] ∧
    hashAll .ofNat (pairTable 7 8) = hashAll .ofNat (pairTable 8 7) ∧
    poolHash .ofNat (pairTable 7 8) = poolHash .ofNat (pairTable 8 7) := by
  have left : insertAll numbers .empty [7, 8] = .ok (pairTable 7 8) := rfl
  have right : insertAll numbers .empty [8, 7] = .ok (pairTable 8 7) := rfl
  have first : Returns (TooLarge 4) (insertAll numbers .empty [7, 8]) _ :=
    returns_insertAll [7, 8] (a := ⟨[], [], [], 0⟩) (refines_cleared (by decide)) (by decide)
  have second : Returns (TooLarge 4) (insertAll numbers .empty [8, 7]) _ :=
    returns_insertAll [8, 7] (a := ⟨[], [], [], 0⟩) (refines_cleared (by decide)) (by decide)
  rw [left] at first
  rw [right] at second
  have agree : ∀ x y, numbers.ops.cmp (numbers.key y) (numbers.key x) = true → true = true →
      UInt32.ofNat y = UInt32.ofNat x := by simp [numbers, pool, natOps]
  have compared := equal_iff_sameMap first.1 second.1 agree
  have equals : equal numbers (fun _ _ => true) (pairTable 7 8) (pairTable 8 7) =
      .ok (true, pairTable 8 7) := rfl
  rw [equals] at compared
  exact ⟨left, right, equals, compared.2.1.mp rfl, compared.2.2 rfl⟩

end ManticoreFrontend.Kernel.HashLoops
