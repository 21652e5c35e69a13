/- source: backends/cxxrtl/cxxrtl.h (value::bit_not, bit_and, bit_or, update; memory)
   digest: Writes queued by priority are committed bit by bit. -/

import Mathlib.Data.List.Basic
import Mathlib.Data.List.Induction
import Mathlib.Data.List.TakeWhile

namespace ManticoreFrontend.Backends.CxxrtlMemory

def chunks (bits : Nat) : Nat := (bits + 32 - 1) / 32

/-- The chunks of a value, the least significant one first. -/
abbrev Value (bits : Nat) := Vector (BitVec 32) (chunks bits)

open List

variable {width depth : Nat}

def msbMask (bits : Nat) : BitVec 32 :=
  if bits % 32 = 0 then BitVec.allOnes 32 else BitVec.allOnes 32 >>> (32 - bits % 32)

namespace Value

def bitNot (v : Value width) : Value width :=
  .ofFn fun n => if n.val = chunks width - 1 then ~~~v[n] &&& msbMask width else ~~~v[n]

variable (v other : Value width)

def bitAnd : Value width := .ofFn fun n => v[n] &&& other[n]

def bitOr : Value width := .ofFn fun n => v[n] ||| other[n]

def update (v val mask : Value width) : Value width :=
  (v.bitAnd mask.bitNot).bitOr (val.bitAnd mask)

def bit (v : Value width) (i : Fin width) : Bool :=
  have inside : i.val / 32 < chunks width := by unfold chunks; omega
  v[i.val / 32].getLsbD (i.val % 32)

theorem msbMask_bit (i : Fin width) (last : i.val / 32 = chunks width - 1) :
    (msbMask width).getLsbD (i.val % 32) = true := by
  have inside := i.isLt
  have low : i.val % 32 < 32 := Nat.mod_lt _ (by decide)
  unfold chunks at last
  unfold msbMask
  split
  · rw [BitVec.getLsbD_allOnes, decide_eq_true low]
  · rw [BitVec.getLsbD_ushiftRight, BitVec.getLsbD_allOnes, decide_eq_true_eq]
    omega

theorem bit_bitNot (v : Value width) (i : Fin width) : v.bitNot.bit i = !v.bit i := by
  have low : i.val % 32 < 32 := Nat.mod_lt _ (by decide)
  simp only [bit, bitNot, Vector.getElem_ofFn]
  split
  · rename_i last
    simp [msbMask_bit i last, low]
  · simp [low]

theorem bit_bitAnd (i : Fin width) : (v.bitAnd other).bit i = (v.bit i && other.bit i) := by
  simp [bit, bitAnd]

theorem bit_bitOr (i : Fin width) : (v.bitOr other).bit i = (v.bit i || other.bit i) := by
  simp [bit, bitOr]

theorem bit_update (v val mask : Value width) (i : Fin width) :
    (v.update val mask).bit i = if mask.bit i then val.bit i else v.bit i := by
  rw [update, bit_bitOr, bit_bitAnd, bit_bitAnd, bit_bitNot]
  cases mask.bit i <;> simp

end Value

structure Write (width depth : Nat) where
  index : Fin depth
  val : Value width
  mask : Value width
  priority : Int

variable {w c e : Write width depth} {q calls : List (Write width depth)} {a : Fin depth}
  {i : Fin width} {s : (Fin depth → Value width) × Bool} {p : Int}

/-- The queue with `w` before the first entry of a higher priority, where `upper_bound` stops. -/
def insert (q : List (Write width depth)) (w : Write width depth) : List (Write width depth) :=
  q.takeWhile (·.priority ≤ w.priority) ++ w :: q.dropWhile (·.priority ≤ w.priority)

theorem mem_insert : e ∈ insert q w ↔ e = w ∨ e ∈ q := by
  have parts := takeWhile_append_dropWhile (p := (·.priority ≤ w.priority)) (l := q)
  rw [← parts, mem_append, insert, parts, mem_append, mem_cons, or_left_comm]

theorem takeWhile_lower (early : e ∈ q.takeWhile (·.priority ≤ p)) : e.priority ≤ p := by
  simpa using mem_takeWhile_imp early

theorem dropWhile_higher (sorted : q.Pairwise (·.priority ≤ ·.priority))
    (late : e ∈ q.dropWhile (·.priority ≤ p)) : p < e.priority := by
  induction q with
  | nil => cases late
  | cons head q ih =>
    obtain ⟨least, sorted⟩ := pairwise_cons.mp sorted
    rw [dropWhile_cons] at late
    split at late
    · exact ih sorted late
    · rename_i higher
      rw [decide_eq_true_eq, Int.not_le] at higher
      rcases mem_cons.mp late with rfl | later
      · exact higher
      · exact Int.lt_of_lt_of_le higher (least e later)

theorem insert_sorted (sorted : q.Pairwise (·.priority ≤ ·.priority)) (w : Write width depth) :
    (insert q w).Pairwise (·.priority ≤ ·.priority) := by
  refine pairwise_append.mpr ⟨sorted.sublist (takeWhile_sublist _), pairwise_cons.mpr
    ⟨fun e late => Int.le_of_lt (dropWhile_higher sorted late),
      sorted.sublist (dropWhile_sublist _)⟩, fun e early e' rest => ?_⟩
  have low := takeWhile_lower early
  rcases mem_cons.mp rest with rfl | late
  · exact low
  · exact Int.le_trans low (Int.le_of_lt (dropWhile_higher sorted late))

structure Memory (width depth : Nat) where
  data : Fin depth → Value width
  writeQueue : List (Write width depth) := []
  sorted : writeQueue.Pairwise (·.priority ≤ ·.priority) := by simp

def Memory.update (m : Memory width depth) (w : Write width depth) : Memory width depth :=
  ⟨m.data, insert m.writeQueue w, insert_sorted m.sorted w⟩

def commitEntry (s : (Fin depth → Value width) × Bool) (entry : Write width depth) :
    (Fin depth → Value width) × Bool :=
  let elem := (s.1 entry.index).update entry.val entry.mask
  (Function.update s.1 entry.index elem, s.2 || s.1 entry.index != elem)

/-- The new memory, and whether a word has changed. -/
def Memory.commit (m : Memory width depth) : Memory width depth × Bool :=
  let s := m.writeQueue.foldl commitEntry (m.data, false)
  ({ data := s.1 }, s.2)

def Write.covers (w : Write width depth) (a : Fin depth) (i : Fin width) : Bool :=
  w.index = a && w.mask.bit i

theorem commitEntry_bit : ((commitEntry s w).1 a).bit i =
    if w.covers a i then w.val.bit i else (s.1 a).bit i := by
  by_cases here : w.index = a
  · subst here
    simp [commitEntry, Write.covers, Value.bit_update]
  · simp [commitEntry, Write.covers, here, Function.update_of_ne (Ne.symm here)]

def decider (q : List (Write width depth)) (a : Fin depth) (i : Fin width) :
    Option (Write width depth) :=
  q.reverse.find? (·.covers a i)

theorem decider_mem (found : decider q a i = some e) : e ∈ q :=
  mem_reverse.mp (mem_of_find?_eq_some found)

theorem commit_bit (q : List (Write width depth)) : ((q.foldl commitEntry s).1 a).bit i =
    ((decider q a i).map (·.val.bit i)).getD ((s.1 a).bit i) := by
  induction q using reverseRecOn with
  | nil => rfl
  | append_singleton q w ih =>
    rw [foldl_concat, commitEntry_bit, decider, reverse_concat, find?_cons]
    cases w.covers a i with
    | true => rfl
    | false => exact ih

theorem commit_unchanged (still : (q.foldl commitEntry s).2 = false) :
    (q.foldl commitEntry s).1 = s.1 := by
  induction q using reverseRecOn with
  | nil => rfl
  | append_singleton q w ih =>
    rw [foldl_concat] at still ⊢
    obtain ⟨before, same⟩ := Bool.or_eq_false_iff.mp still
    rw [commitEntry, ← bne_eq_false_iff_eq.mp same, Function.update_eq_self, ih before]

/-- A covering write takes over unless the bit is decided by a higher priority. -/
theorem decider_insert (sorted : q.Pairwise (·.priority ≤ ·.priority)) :
    decider (insert q w) a i =
      if w.covers a i ∧ ∀ e, decider q a i = some e → e.priority ≤ w.priority then some w
      else decider q a i := by
  have parts : decider q a i = (decider (q.dropWhile (·.priority ≤ w.priority)) a i).or
      (decider (q.takeWhile (·.priority ≤ w.priority)) a i) := by
    rw [decider, decider, decider, ← find?_append, ← reverse_append, takeWhile_append_dropWhile]
  rw [parts, decider, insert, reverse_append, reverse_cons, append_assoc, find?_append, ← decider]
  cases last : decider (q.dropWhile (·.priority ≤ w.priority)) a i with
  | some e =>
    have higher := dropWhile_higher sorted (decider_mem last)
    simp [Int.not_le.mpr higher]
  | none =>
    rw [Option.none_or, Option.none_or, find?_append, find?_singleton, ← decider]
    cases w.covers a i with
    | true => exact (if_pos ⟨rfl, fun e found => takeWhile_lower (decider_mem found)⟩).symm
    | false => simp

/-- Of the calls that cover the bit, none before `c` has a higher priority, and all after it have
a lower one. -/
structure Wins (before : List (Write width depth)) (c : Write width depth)
    (after : List (Write width depth)) (a : Fin depth) (i : Fin width) : Prop where
  covers : c.covers a i
  before : ∀ e ∈ before, e.covers a i → e.priority ≤ c.priority
  after : ∀ e ∈ after, e.covers a i → e.priority < c.priority

variable {data : Fin depth → Value width}

variable (data) in
theorem updates (calls : List (Write width depth)) :
    (calls.foldl Memory.update { data }).data = data ∧
      ∀ e ∈ (calls.foldl Memory.update { data }).writeQueue, e ∈ calls := by
  induction calls using reverseRecOn with
  | nil => exact ⟨rfl, nofun⟩
  | append_singleton calls w ih =>
    rw [foldl_concat]
    refine ⟨ih.1, fun e member => mem_append.mpr ?_⟩
    rcases mem_insert.mp member with rfl | earlier
    · exact .inr (mem_singleton_self _)
    · exact .inl (ih.2 e earlier)

theorem Wins.decider {before after : List (Write width depth)} (wins : Wins before c after a i) :
    decider ((before ++ c :: after).foldl Memory.update { data }).writeQueue a i = some c := by
  induction after using reverseRecOn with
  | nil =>
    rw [foldl_concat, Memory.update, decider_insert (Memory.sorted _)]
    exact if_pos ⟨wins.covers, fun e found => wins.before e
      ((updates _ before).2 e (decider_mem found)) (find?_some (p := (Write.covers · a i)) found)⟩
  | append_singleton after w ih =>
    have step := ih { wins with after := fun e member => wins.after e (by simp [member]) }
    rw [← cons_append, ← append_assoc, foldl_concat, Memory.update,
      decider_insert (Memory.sorted _), step]
    exact if_neg fun taken => Int.not_le.mpr (wins.after w (by simp) taken.1) (taken.2 c rfl)

theorem commit_updates (data : Fin depth → Value width) (calls : List (Write width depth)) :
    let result := (calls.foldl Memory.update { data }).commit
    (∀ before c after a i, calls = before ++ c :: after → Wins before c after a i →
      (result.1.data a).bit i = c.val.bit i) ∧
    (∀ a i, (∀ c ∈ calls, c.covers a i = false) → (result.1.data a).bit i = (data a).bit i) ∧
    result.1.writeQueue = [] ∧ (result.2 = false → result.1.data = data) := by
  obtain ⟨same, queued⟩ := updates data calls
  refine ⟨?_, ?_, rfl, fun still => (commit_unchanged still).trans same⟩
  · rintro before c after a i rfl wins
    exact (commit_bit _).trans (by rw [wins.decider]; rfl)
  · intro a i untouched
    have none : decider (calls.foldl Memory.update { data }).writeQueue a i = none :=
      find?_eq_none.mpr fun e member => by simp [untouched e (queued e (mem_reverse.mp member))]
    exact (commit_bit _).trans (by rw [none, same]; rfl)

end ManticoreFrontend.Backends.CxxrtlMemory
