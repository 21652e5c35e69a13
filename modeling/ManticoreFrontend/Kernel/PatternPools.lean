/- source: kernel/bitpattern.h (BitPatternPool), kernel/hashlib.h (pool)
   digest: The patterns of a pool in the hash table that `take` inserts into and erases from while it
     iterates over it. -/

import ManticoreFrontend.Kernel.BitPatterns
import ManticoreFrontend.Kernel.HashLoops

namespace ManticoreFrontend.Kernel.PatternPools

open Foundation.Outcome Constants Signals HashTables HashChains HashMaps HashLoops List
open BitPatterns
open BitPatternPool (sig2bits matchBits splits)

/-- `pool<bits_t>`: patterns are equal when their bits are, and any hash of the bits will do. -/
def bitsPool (hash : Const → UInt32) (alloc : Allocator) : Container Const Const :=
  pool ⟨hash, (· == ·), by simp, by simp +contextual, by simp +contextual, by simp +contextual⟩ alloc

structure PatternPool where
  width : Nat
  database : Table Const

variable (d : Container Const Const)

def PatternPool.view (pool : PatternPool) : BitPatternPool := ⟨pool.width, pool.database.data.reverse⟩

def ofSig (sig : SigSpec) : Except Failure PatternPool :=
  return ⟨sig.length, ← insertAll d .empty (if sig.length > 0 then [sig2bits sig] else [])⟩

/-- The body of the loop of `take`: the parts of a matching pattern are inserted before it is erased. -/
def takeRound (bits : Const) (_ : List (Const × Bool)) (it : Const) : Round Const :=
  if matchBits it bits then ⟨splits it bits, true, []⟩ else ⟨[], false, []⟩

def take (pool : PatternPool) (sig : SigSpec) : Except Failure (Bool × PatternPool) := do
  let s ← loop d (takeRound (sig2bits sig)) pool.database
  return (s.visited.any Prod.snd, { pool with database := s.table })

def takes (pool : PatternPool) (taken : List SigSpec) : Except Failure PatternPool :=
  taken.foldlM (fun pool sig => return (← take d pool sig).2) pool

namespace PatternPool

variable (pool : PatternPool) (sig : SigSpec)

def hasAny : Bool := pool.view.hasAny sig

def hasAll : Bool := pool.view.hasAll sig

def empty : Bool := pool.database.entries.isEmpty

end PatternPool

def patterns : Nat → List Const
  | 0 => [[]]
  | w + 1 => [State.S0, .S1, .Sa].flatMap fun s => (patterns w).map (s :: ·)

private theorem length_patterns (w : Nat) : (patterns w).length = 3 ^ w := by
  induction w with
  | zero => rfl
  | succ w ih => simp [patterns, ih, pow_succ]; omega

/-- Patterns have zeros, ones and don't-cares. -/
def Proper (w : Nat) (it : Const) : Prop := it.length = w ∧ ∀ s ∈ it, s.isDef = true ∨ s = .Sa

private theorem mem_patterns {w : Nat} {it : Const} (proper : Proper w it) : it ∈ patterns w := by
  induction it generalizing w with
  | nil =>
    obtain rfl : 0 = w := proper.1
    simp [patterns]
  | cons s it ih =>
    obtain ⟨length, states⟩ := proper
    obtain rfl : it.length + 1 = w := length
    rw [forall_mem_cons] at states
    have rest := ih ⟨rfl, states.2⟩
    have first : s = .S0 ∨ s = .S1 ∨ s = .Sa := by
      rcases states.1 with defined | rfl
      · cases s <;> simp_all [State.isDef]
      · simp
    simp only [patterns, mem_flatMap, mem_map]
    exact ⟨s, by simpa using first, it, rest, rfl⟩

variable {hash : Const → UInt32} {alloc : Allocator} {limit : Nat} {a : MapLoop Const}
  {bits it : Const}

private theorem patterns_few {w : Nat} (l : List Const)
    (distinct : l.Pairwise (fun a b => (bitsPool hash alloc).ops.cmp
      ((bitsPool hash alloc).key a) ((bitsPool hash alloc).key b) = false))
    (proper : ∀ it ∈ l, Proper w it) : l.length ≤ 3 ^ w := by
  have nodup : l.Nodup := distinct.imp fun {a b} apart => by simpa [bitsPool, pool] using apart
  rw [← length_patterns]
  exact (nodup.subperm fun it member => mem_patterns (proper it member)).length_le

private theorem mem_insertAll {es : List Const} :
    it ∈ (es.foldl (MapLoop.insert (bitsPool hash alloc)) a).map ↔ it ∈ a.map ∨ it ∈ es := by
  induction es generalizing a with
  | nil => simp
  | cons e es ih =>
    have one : it ∈ (a.insert (bitsPool hash alloc) e).map ↔ it ∈ a.map ∨ it = e := by
      unfold MapLoop.insert assocInsert
      split
      · rename_i x found
        have same : x = e := by simpa [bitsPool, pool] using find?_some found
        have member : e ∈ a.map := same ▸ mem_of_find?_eq_some found
        exact ⟨.inl, fun here => here.elim id (· ▸ member)⟩
      · simp
    rw [foldl_cons, ih, one, mem_cons, or_assoc]

/-- A pattern that the loop inserts does not match, so it is not among those that it erases. -/
private theorem mem_visits {xs : List Const}
    (unmatched : ∀ y ∈ xs, ∀ part ∈ splits y bits, matchBits part bits = false) :
    it ∈ (xs.foldl (MapLoop.visit (bitsPool hash alloc) (takeRound bits)) a).map ↔
      if matchBits it bits then it ∈ a.map ∧ it ∉ xs
      else it ∈ a.map ∨ ∃ y ∈ xs, matchBits y bits = true ∧ it ∈ splits y bits := by
  induction xs generalizing a with
  | nil => simp
  | cons y xs ih =>
    rw [forall_mem_cons] at unmatched
    rw [foldl_cons, ih unmatched.2]
    cases matched : matchBits y bits with
    | false =>
      have kept : (a.visit (bitsPool hash alloc) (takeRound bits) y).map = a.map := by
        simp [MapLoop.visit, takeRound, matched, MapLoop.advance]
      rw [kept]
      cases own : matchBits it bits with
      | false => simp [matched]
      | true =>
        have apart : it ≠ y := by
          rintro rfl
          rw [own] at matched
          cases matched
        simp [apart]
    | true =>
      have erased : it ∈ (a.visit (bitsPool hash alloc) (takeRound bits) y).map ↔
          (it ∈ a.map ∨ it ∈ splits y bits) ∧ it ≠ y := by
        simp only [MapLoop.visit, takeRound, matched, if_true, MapLoop.advance, foldl_nil,
          assocErase, mem_filter, mem_insertAll]
        simp [bitsPool, pool]
      rw [erased]
      cases own : matchBits it bits with
      | false =>
        have apart : it ≠ y := by
          rintro rfl
          rw [own] at matched
          cases matched
        simp [apart, matched, or_assoc]
      | true =>
        have outside : it ∉ splits y bits := fun part => by
          rw [unmatched.1 it part] at own
          cases own
        simp [outside, and_assoc, not_or]

variable {pool : PatternPool} {S : List Bool → Prop} {sig : SigSpec}

/-- The table is valid and its patterns represent the vectors of `S`. -/
structure Keeps (d : Container Const Const) (limit : Nat) (pool : PatternPool)
    (S : List Bool → Prop) : Prop where
  valid : Valid d limit pool.database
  represents : Represents pool.view S

private theorem Keeps.splits_unmatched (keeps : Keeps d limit pool S) (width : sig.length = pool.width)
    (member : it ∈ pool.database.data) : ∀ part ∈ splits it (sig2bits sig),
      matchBits part (sig2bits sig) = false := by
  intro part here
  have length : it.length = (sig2bits sig).length :=
    keeps.represents.sized.length_eq width (mem_reverse.mpr member)
  obtain ⟨i, t, free, care, defined, rfl⟩ := (mem_splits sig2bits_defined length).mp here
  obtain ⟨inside, -⟩ := List.getElem?_eq_some_iff.mp free
  refine matchBits_eq_false_iff.mpr ⟨i, _, t, getElem?_set_self inside, care, by split <;> rfl, defined, ?_⟩
  cases t <;> simp [State.isDef] at defined ⊢

private theorem Keeps.small (keeps : Keeps (bitsPool hash alloc) limit pool S)
    (width : sig.length = pool.width) :
    (MapLoop.run (bitsPool hash alloc) (takeRound (sig2bits sig)) pool.database.data.reverse
      pool.database.data).peak ≤ 3 ^ pool.width := by
  have proper : ∀ it ∈ pool.database.data, Proper pool.width it := fun it member =>
    ⟨keeps.represents.sized it (mem_reverse.mpr member),
      keeps.represents.proper it (mem_reverse.mpr member)⟩
  have start : Small (bitsPool hash alloc) (Proper pool.width) (3 ^ pool.width)
      ⟨pool.database.data, [], [], pool.database.data.length⟩ :=
    ⟨keeps.valid.distinct, proper, patterns_few _ keeps.valid.distinct proper⟩
  refine (start.run patterns_few (by simpa using proper) fun _ it kind e member => ?_).peak
  unfold takeRound at member
  split at member
  · rw [append_nil] at member
    have length : it.length = (sig2bits sig).length := by rw [kind.1, sig2bits, length_map, width]
    obtain ⟨i, t, -, -, -, rfl⟩ := (mem_splits sig2bits_defined length).mp member
    refine ⟨by rw [length_set, kind.1], fun s inIt => ?_⟩
    rcases mem_or_eq_of_mem_set inIt with old | rfl
    · exact kind.2 s old
    · left
      split <;> rfl
  · cases member

theorem Keeps.take (keeps : Keeps (bitsPool hash alloc) limit pool S) (width : sig.length = pool.width)
    (enough : alloc.ratio * 3 ^ pool.width ≤ limit) :
    Returns (TooLarge limit) (take (bitsPool hash alloc) pool sig) (fun r =>
      r.2.width = pool.width ∧ r.1 = pool.view.hasAny sig ∧
      Keeps (bitsPool hash alloc) limit r.2 (fun point => S point ∧ ¬ Fits point sig)) := by
  have peak := (Nat.mul_le_mul_left alloc.ratio (keeps.small width)).trans enough
  refine (returns_loop keeps.valid peak).bind ?_
  rintro s ⟨refines, visited⟩
  refine Returns.ok ⟨rfl, ?_, refines.valid, ?_⟩
  · have flags : ∀ (xs : List Const) (a : MapLoop Const),
        (xs.foldl (MapLoop.visit (bitsPool hash alloc) (takeRound (sig2bits sig))) a).visited.any
          Prod.snd = (a.visited.any Prod.snd || xs.any (matchBits · (sig2bits sig))) := by
      intro xs
      induction xs with
      | nil => simp
      | cons x xs ih =>
        intro a
        rw [foldl_cons, ih, MapLoop.visit_visited]
        cases matched : matchBits x (sig2bits sig) <;> simp [takeRound, matched]
    rw [visited]
    exact flags _ _
  · refine (keeps.represents.take width).congr rfl fun it => ?_
    rw [PatternPool.view, mem_reverse, refines.perm.mem_iff, MapLoop.run,
      mem_visits fun y member => keeps.splits_unmatched _ width (mem_reverse.mp member),
      BitPatternPool.mem_take]
    cases own : matchBits it (sig2bits sig) with
    | false => simp [PatternPool.view]
    | true =>
      have outside : ∀ y ∈ pool.database.data, it ∉ splits y (sig2bits sig) := fun y member part => by
        rw [keeps.splits_unmatched _ width member it part] at own
        cases own
      simp +contextual [PatternPool.view, outside]

private theorem Keeps.takes (keeps : Keeps (bitsPool hash alloc) limit pool S) {taken : List SigSpec}
    (widths : ∀ p ∈ taken, p.length = pool.width) (enough : alloc.ratio * 3 ^ pool.width ≤ limit) :
    Returns (TooLarge limit) (takes (bitsPool hash alloc) pool taken) (fun r =>
      r.width = pool.width ∧
      Keeps (bitsPool hash alloc) limit r (fun point => S point ∧ ∀ p ∈ taken, ¬ Fits point p)) := by
  induction taken generalizing pool S with
  | nil => exact Returns.ok ⟨rfl, by simpa using keeps⟩
  | cons p taken ih =>
    rw [forall_mem_cons] at widths
    have first : Returns (TooLarge limit)
        (do return (← PatternPools.take (bitsPool hash alloc) pool p).2) (fun r =>
        r.width = pool.width ∧
        Keeps (bitsPool hash alloc) limit r (fun point => S point ∧ ¬ Fits point p)) :=
      (keeps.take widths.1 enough).bind fun r taken => Returns.ok ⟨taken.1, taken.2.2⟩
    refine first.bind ?_
    rintro next ⟨width, left⟩
    refine (ih left (width ▸ widths.2) (width ▸ enough)).mono ?_
    rintro last ⟨width', rest⟩
    exact ⟨width'.trans width, by simpa only [forall_mem_cons, and_assoc] using rest⟩

private theorem keeps_ofSig {start : SigSpec} (nonempty : start ≠ [])
    (enough : alloc.ratio * 3 ^ start.length ≤ limit) :
    Returns (TooLarge limit) (ofSig (bitsPool hash alloc) start) (fun pool =>
      pool.width = start.length ∧ Keeps (bitsPool hash alloc) limit pool (Fits · start)) := by
  have one : alloc.ratio * 1 ≤ limit :=
    (Nat.mul_le_mul_left _ (Nat.one_le_pow _ _ (by decide))).trans enough
  have database : (if start.length > 0 then [sig2bits start] else []) = [sig2bits start] :=
    if_pos (length_pos_iff.mpr nonempty)
  have built := returns_insertAll (d := bitsPool hash alloc) [sig2bits start] (a := ⟨[], [], [], 0⟩)
    (refines_cleared (Nat.zero_le limit))
    (by simpa [MapLoop.insert, assocInsert, assocFind, bitsPool, pool] using one)
  rw [ofSig, database]
  refine built.bind fun t made => Returns.ok ⟨rfl, made.1.valid, ?_⟩
  refine (represents_ofSig start nonempty).congr rfl fun it => ?_
  rw [PatternPool.view, mem_reverse, made.1.perm.mem_iff, mem_insertAll, BitPatternPool.ofSig, database]
  simp

/-- The vectors of the start that no taken pattern has. -/
def Left (start : SigSpec) (taken : List SigSpec) (point : List Bool) : Prop :=
  Fits point start ∧ ∀ p ∈ taken, ¬ Fits point p

/-- The patterns are taken one after the other, and then one more. -/
def takeAfter (start : SigSpec) (taken : List SigSpec) (sig : SigSpec) :
    Except Failure (PatternPool × Bool × PatternPool) := do
  let pool ← takes d (← ofSig d start) taken
  return (pool, ← take d pool sig)

end ManticoreFrontend.Kernel.PatternPools
