/- source: kernel/hashlib.h (dict, pool)
   digest: The hash table behind dict and pool, with its bucket heads, chained entries and lazy
     rehashing, and programs over several such containers. -/

import ManticoreFrontend.Foundation.Outcome

namespace ManticoreFrontend.Kernel.HashTables

open Foundation.Outcome

/-- A hash function and a key equality that is consistent with it. -/
structure HashOps (K : Type) where
  hash : K → UInt32
  cmp : K → K → Bool
  refl : ∀ a, cmp a a = true
  symm : ∀ a b, cmp a b = true → cmp b a = true
  trans : ∀ a b c, cmp a b = true → cmp b c = true → cmp a c = true
  hash_eq : ∀ a b, cmp a b = true → hash a = hash b

/-- The capacity of the entry vector after one more element was added to `size` elements, and after
a vector of `size` elements overwrote it. New memory is for at most `ratio` times the elements. -/
structure Allocator where
  ratio : Nat
  grow : (capacity size : Nat) → Nat
  grow_gt : ∀ capacity size, size < grow capacity size
  grow_le : ∀ capacity size, grow capacity size ≤ max capacity (ratio * (size + 1))
  copied : (capacity size : Nat) → Nat
  copied_ge : ∀ capacity size, size ≤ copied capacity size
  copied_le : ∀ capacity size, copied capacity size ≤ max capacity (ratio * size)

/-- A vector that doubles its memory when it is full. -/
def doubling : Allocator where
  ratio := 2
  grow capacity size := if size < capacity then capacity else size + max size 1
  grow_gt _ _ := by split <;> omega
  grow_le _ _ := by split <;> omega
  copied capacity size := max capacity size
  copied_ge _ _ := by omega
  copied_le _ _ := by omega

/-- What tells `dict` from `pool`: where an entry keeps its key, and whether unlinking asserts that
the head of the chain is an entry. -/
structure Container (K E : Type) where
  ops : HashOps K
  key : E → K
  headAssert : Bool
  alloc : Allocator

def dict {K : Type} (ops : HashOps K) (T : Type) (alloc : Allocator) : Container K (K × T) where
  ops := ops
  key := Prod.fst
  headAssert := true
  alloc := alloc

def pool {K : Type} (ops : HashOps K) (alloc : Allocator) : Container K K where
  ops := ops
  key := id
  headAssert := false
  alloc := alloc

/-- How a call can fail: a failed `do_assert`, an access out of bounds, an endless loop, a table
larger than the largest prime, or a call on no object. -/
inductive Failure
  | assertion
  | bounds
  | endless
  | length (minSize : Nat)
  | misuse

structure Entry (E : Type) where
  udata : E
  next : Int

structure Table (E : Type) where
  hashtable : List Int
  entries : List (Entry E)
  capacity : Nat

def zeroAndSomePrimes : List Nat :=
  [0, 23, 29, 37, 47, 59, 79, 101, 127, 163, 211, 269, 337, 431, 541, 677,
   853, 1069, 1361, 1709, 2137, 2677, 3347, 4201, 5261, 6577, 8231, 10289,
   12889, 16127, 20161, 25219, 31531, 39419, 49277, 61603, 77017, 96281,
   120371, 150473, 188107, 235159, 293957, 367453, 459317, 574157, 717697,
   897133, 1121423, 1401791, 1752239, 2190299, 2737937, 3422429, 4278037,
   5347553, 6684443, 8355563, 10444457, 13055587, 16319519, 20399411,
   25499291, 31874149, 39842687, 49803361, 62254207, 77817767, 97272239,
   121590311, 151987889, 189984863, 237481091, 296851369, 371064217]

/-- The size limit of a table, for an `int` of 32 bits. -/
def maxSize : Nat := 371064217

def hashtableSize (minSize : Nat) : Except Failure Nat :=
  orFail (zeroAndSomePrimes.find? (fun p => decide (minSize ≤ p))) (.length minSize)

def hashtableSizeTrigger : Nat := 2

def hashtableSizeFactor : Nat := 3

namespace Table

variable {K E : Type} (d : Container K E) (t : Table E)

def empty : Table E := { hashtable := [], entries := [], capacity := 0 }

def data : List E := t.entries.map Entry.udata

def entryAt (k : Int) : Except Failure (Entry E) :=
  if k < 0 then .error .bounds else orFail t.entries[k.toNat]? .bounds

def doHash (key : K) : Nat :=
  if t.hashtable.isEmpty then 0 else (d.ops.hash key).toNat % t.hashtable.length

/-- One round of the loop of `do_rehash`: entry `i` becomes the head of its chain. -/
def rehashEntry (t : Table E) (i : Nat) : Except Failure (Table E) := do
  let e ← t.entryAt i
  check (-1 ≤ e.next ∧ e.next < t.entries.length) .assertion
  let hash := t.doHash d (d.key e.udata)
  let head ← orFail t.hashtable[hash]? .bounds
  return { t with
    entries := t.entries.set i { e with next := head }
    hashtable := t.hashtable.set hash i }

def doRehash : Except Failure (Table E) := do
  let size ← hashtableSize (t.capacity * hashtableSizeFactor)
  (List.range t.entries.length).foldlM (rehashEntry d)
    { t with hashtable := List.replicate size (-1) }

def searchChain (key : K) : Nat → Int → Except Failure Int
  | 0, _ => .error .endless
  | fuel + 1, index =>
    if index < 0 then .ok index
    else do
      let e ← t.entryAt index
      if d.ops.cmp (d.key e.udata) key then return index
      else
        check (-1 ≤ e.next ∧ e.next < t.entries.length) .assertion
        searchChain key fuel e.next

/-- What `do_lookup` leaves: the index or -1, the hash, and the table, which it may have rehashed. -/
structure Found (E : Type) where
  index : Int
  hash : Nat
  table : Table E

def doLookup (key : K) (hash : Nat) : Except Failure (Found E) :=
  if t.hashtable.isEmpty then .ok ⟨-1, hash, t⟩
  else do
    let rehashing := decide (t.hashtable.length < t.entries.length * hashtableSizeTrigger)
    let t ← if rehashing then t.doRehash d else .ok t
    let hash := if rehashing then t.doHash d key else hash
    let head ← orFail t.hashtable[hash]? .bounds
    let index ← t.searchChain d key (t.entries.length + 1) head
    return ⟨index, hash, t⟩

def pushEntry (e : Entry E) : Table E :=
  { t with
    entries := t.entries ++ [e]
    capacity := d.alloc.grow t.capacity t.entries.length }

def doInsert (e : E) (hash : Nat) : Except Failure (Nat × Table E) :=
  if t.hashtable.isEmpty then do
    let t ← (t.pushEntry d ⟨e, -1⟩).doRehash d
    return (t.entries.length - 1, t)
  else do
    let head ← orFail t.hashtable[hash]? .bounds
    let grown := t.pushEntry d ⟨e, head⟩
    return (t.entries.length, { grown with hashtable := t.hashtable.set hash t.entries.length })

/-- The loop of `do_erase`: the entry before `index` in its chain, from entry `k` on. -/
def findBefore (index : Nat) : Nat → Int → Except Failure Nat
  | 0, _ => .error .endless
  | fuel + 1, k => do
    let e ← t.entryAt k
    if e.next = index then return k.toNat
    else
      check (0 ≤ e.next ∧ e.next < t.entries.length) .assertion
      findBefore index fuel e.next

def setNext (i : Nat) (next : Int) : Table E :=
  { t with entries := t.entries.modify i ({ · with next := next }) }

/-- Let the pointer to `index` in the chain of a bucket point to `target`; `do_erase` unlinks an
entry this way and lets the one that moves into the hole be found. -/
def redirect (bucket index : Nat) (target : Int) : Except Failure (Table E) := do
  let k ← orFail t.hashtable[bucket]? .bounds
  check (d.headAssert = true → 0 ≤ k ∧ k < t.entries.length) .assertion
  if k = index then return { t with hashtable := t.hashtable.set bucket target }
  else do
    let before ← t.findBefore index (t.entries.length + 1) k
    return t.setNext before target

def fillHole (index : Nat) : Except Failure (Table E) := do
  let back := t.entries.length - 1
  if index ≠ back then do
    let last ← t.entryAt back
    let t ← t.redirect d (t.doHash d (d.key last.udata)) back index
    let last ← t.entryAt back
    return { t with entries := t.entries.set index last }
  else return t

def doErase (index : Int) (hash : Nat) : Except Failure (Nat × Table E) := do
  check (index < t.entries.length) .assertion
  if t.hashtable.isEmpty ∨ index < 0 then return (0, t)
  else do
    let e ← t.entryAt index
    let t ← t.redirect d hash index.toNat e.next
    let t ← t.fillHole d index.toNat
    let entries := t.entries.dropLast
    return (1, { t with
      entries := entries
      hashtable := if entries.isEmpty then [] else t.hashtable })

def lookup (key : K) : Except Failure (Found E) := t.doLookup d key (t.doHash d key)

/-- `insert` and `emplace`: the index of the entry with that key, and whether it is new. -/
def insert (e : E) : Except Failure (Int × Bool × Table E) := do
  let r ← t.lookup d (d.key e)
  if 0 ≤ r.index then return (r.index, false, r.table)
  else do
    let s ← r.table.doInsert d e r.hash
    return (s.1, true, s.2)

def erase (key : K) : Except Failure (Nat × Table E) := do
  let r ← t.lookup d key
  r.table.doErase d r.index r.hash

def eraseIterator (index : Int) : Except Failure (Table E) := do
  let e ← t.entryAt index
  let r ← t.doErase d index (t.doHash d (d.key e.udata))
  return r.2

end Table

/-- A sort of the entries by some order of the keys: for `std::sort` any order is possible between
keys that the comparison does not tell apart. -/
structure Sorter (E : Type) where
  run : List (Entry E) → List (Entry E)
  perm : ∀ entries, (run entries).Perm entries

/-- A write through the reference that `operator[]` returns; it does not reach the key. -/
structure Rewrite {K E : Type} (d : Container K E) where
  run : E → E
  key : ∀ e, d.key (run e) = d.key e

/-- One call on the containers, which numbers name. For a `dict` the entry given to `insert` with a
key alone and to `operator[]` has the default value. -/
inductive Op {K E : Type} (d : Container K E)
  | create
  | insert (self : Nat) (e : E)
  | index (self : Nat) (e : E)
  | assign (self : Nat) (e : E) (value : Rewrite d)
  | erase (self : Nat) (key : K)
  | eraseFound (self : Nat) (key : K)
  | count (self : Nat) (key : K)
  | find (self : Nat) (key : K)
  | at (self : Nat) (key : K)
  | size (self : Nat)
  | sort (self : Nat) (sorter : Sorter E)
  | clear (self : Nat)
  | copy (source : Nat)
  | copyAssign (self source : Nat)
  | swap (self other : Nat)

/-- What a call returns; an iterator or a reference is given as the entry it points to, and the
exception of `at` as the absence of one. -/
inductive Result (E : Type)
  | done
  | inserted (e : E) (new : Bool)
  | entry (e : Option E)
  | number (n : Nat)

namespace Table

variable {K E : Type} (d : Container K E) (t : Table E)

def sort (sorter : Sorter E) : Except Failure (Table E) :=
  doRehash d { t with entries := sorter.run t.entries }

/-- The assignment of another container; the copy constructor starts from the empty one. -/
def copyFrom (source : Table E) : Except Failure (Table E) :=
  doRehash d { t with
    entries := source.entries
    capacity := d.alloc.copied t.capacity source.entries.length }

def clear : Table E := { t with hashtable := [], entries := [] }

def call : Op d → Except Failure (Table E × Result E)
  | .insert _ e => do
    let r ← t.insert d e
    let x ← r.2.2.entryAt r.1
    return (r.2.2, .inserted x.udata r.2.1)
  | .index _ e => do
    let r ← t.insert d e
    let x ← r.2.2.entryAt r.1
    return (r.2.2, .entry x.udata)
  | .assign _ e value => do
    let r ← t.insert d e
    let x ← r.2.2.entryAt r.1
    return ({ r.2.2 with
      entries := r.2.2.entries.set r.1.toNat { x with udata := value.run x.udata } }, .done)
  | .erase _ key => do
    let r ← t.erase d key
    return (r.2, .number r.1)
  | .eraseFound _ key => do
    let r ← t.lookup d key
    if r.index < 0 then .error .misuse
    else do
      let t ← r.table.eraseIterator d r.index
      return (t, .done)
  | .count _ key => do
    let r ← t.lookup d key
    return (r.table, .number (if r.index < 0 then 0 else 1))
  | .find _ key | .at _ key => do
    let r ← t.lookup d key
    if r.index < 0 then return (r.table, .entry none)
    else do
      let x ← r.table.entryAt r.index
      return (r.table, .entry x.udata)
  | .size _ => .ok (t, .number t.entries.length)
  | .sort _ sorter => do
    let t ← t.sort d sorter
    return (t, .done)
  | .clear _ => .ok (t.clear, .done)
  | _ => .error .misuse

end Table

variable {K E : Type} (d : Container K E)

abbrev Store (E : Type) := List (Table E)

def Op.self {d : Container K E} : Op d → Nat
  | .create | .copy _ => 0
  | .insert i _ | .index i _ | .assign i _ _ | .erase i _ | .eraseFound i _ | .count i _
  | .find i _ | .at i _ | .size i | .sort i _ | .clear i | .copyAssign i _ | .swap i _ => i

def callOn (store : Store E) (op : Op d) : Except Failure (Store E × Result E) := do
  let t ← orFail store[op.self]? .misuse
  let r ← t.call d op
  return (store.set op.self r.1, r.2)

def step (store : Store E) : Op d → Except Failure (Store E × Result E)
  | .create => .ok (store ++ [.empty], .done)
  | .copy source => do
    let s ← orFail store[source]? .misuse
    let t ← Table.empty.copyFrom d s
    return (store ++ [t], .done)
  | .copyAssign self source => do
    let t ← orFail store[self]? .misuse
    let s ← orFail store[source]? .misuse
    let t ← t.copyFrom d s
    return (store.set self t, .done)
  | .swap self other => do
    let a ← orFail store[self]? .misuse
    let b ← orFail store[other]? .misuse
    return ((store.set self b).set other a, .done)
  | op => callOn d store op

def run (store : Store E) : List (Op d) → Except Failure (Store E × List (Result E))
  | [] => .ok (store, [])
  | op :: ops => do
    let r ← step d store op
    let rest ← run r.1 ops
    return (rest.1, r.2 :: rest.2)

end ManticoreFrontend.Kernel.HashTables
