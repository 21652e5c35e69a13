/- source: kernel/hashlib.h
   digest: Every entry lies on the chain of its own hash; rehashing, searching, inserting and
     erasing keep that, return, and never fail an assertion. -/

import Mathlib.Data.List.Perm.Subperm
import ManticoreFrontend.Foundation.LinkedPaths
import ManticoreFrontend.Kernel.HashTables

namespace ManticoreFrontend.Kernel.HashChains

open Foundation Outcome LinkedPaths HashTables List

variable {K E : Type} {d : Container K E} {t t' : Table E}

def links (t : Table E) (i : Nat) : Option Int := (t.entries[i]?).map Entry.next

def bucket (d : Container K E) (t : Table E) (i : Nat) : Option Nat :=
  (t.data[i]?).map (fun x => t.doHash d (d.key x))

/-- The chains end in -1, meet no entry twice, and hold exactly the chosen entries, each on the
chain of its own hash. -/
def Linked (d : Container K E) (t : Table E) (chosen : Nat → Prop) : Prop :=
  ∀ b head, t.hashtable[b]? = some head →
    ∃ nodes, Path (links t) head nodes (-1) ∧ nodes.Nodup ∧
      ∀ i, i ∈ nodes ↔ chosen i ∧ bucket d t i = some b

/-- The only failure left: a table beyond the largest prime, for a capacity within the limit. -/
def TooLarge (limit : Nat) (failure : Failure) : Prop :=
  ∃ n, failure = .length n ∧ maxSize < n ∧ n ≤ limit * hashtableSizeFactor

variable {limit i : Nat} {e : Entry E} {x : E} {chosen : Nat → Prop}

@[simp] theorem data_length : t.data.length = t.entries.length := by simp [Table.data]

theorem length_congr (data : t'.data = t.data) : t'.entries.length = t.entries.length := by
  rw [← data_length, data, data_length]

theorem data_get (h : t.entries[i]? = some e) : t.data[i]? = some e.udata := by
  simp [Table.data, h]

theorem entry_of_data (h : t.data[i]? = some x) : ∃ e, t.entries[i]? = some e ∧ e.udata = x := by
  simpa [Table.data] using h

theorem links_get (h : t.entries[i]? = some e) : links t i = some e.next := by
  simp [links, h]

theorem entry_of_links {next : Int} (h : links t i = some next) :
    ∃ e, t.entries[i]? = some e ∧ e.next = next := by
  simpa [links] using h

theorem entryAt_nat (h : t.entries[i]? = some e) : t.entryAt i = .ok e := by
  simp [Table.entryAt, orFail, h]

theorem doHash_lt (some : t.hashtable ≠ []) (key : K) : t.doHash d key < t.hashtable.length := by
  have pos : 0 < t.hashtable.length := List.length_pos_iff.mpr some
  simp only [Table.doHash, List.isEmpty_iff, some, if_false]
  exact Nat.mod_lt _ pos

private theorem exists_head (some : t.hashtable ≠ []) (key : K) :
    ∃ head, t.hashtable[t.doHash d key]? = .some head :=
  ⟨_, getElem?_eq_getElem (doHash_lt some key)⟩

theorem doHash_congr (same : t'.hashtable.length = t.hashtable.length) (key : K) :
    t'.doHash d key = t.doHash d key := by
  simp [Table.doHash, ← List.length_eq_zero_iff, same]

theorem bucket_congr (data : t'.data = t.data) (same : t'.hashtable.length = t.hashtable.length)
    (i : Nat) : bucket d t' i = bucket d t i := by
  simp [bucket, data, doHash_congr same]

theorem bucket_get (h : t.data[i]? = some x) : bucket d t i = some (t.doHash d (d.key x)) := by
  simp [bucket, h]

theorem lt_of_bucket {b : Nat} (h : bucket d t i = some b) : i < t.entries.length := by
  obtain ⟨x, hx, _⟩ := Option.map_eq_some_iff.mp h
  simpa using (List.getElem?_eq_some_iff.mp hx).1

private theorem bucket_none (h : t.entries.length ≤ i) : bucket d t i = none := by
  simp [bucket, h]

variable {nodes : List Nat}

theorem nodes_length (nodup : nodes.Nodup)
    (inside : ∀ i ∈ nodes, i < t.entries.length) : nodes.length ≤ t.entries.length := by
  have sub : nodes ⊆ range t.entries.length := fun i hi => mem_range.mpr (inside i hi)
  simpa using (subperm_of_subset nodup sub).length_le

theorem path_inside {head stop : Int} (path : Path (links t) head nodes stop) :
    ∀ i ∈ nodes, i < t.entries.length := by
  intro i hi
  obtain ⟨next, hnext⟩ := Option.isSome_iff_exists.mp (path.linked i hi)
  obtain ⟨e, he, _⟩ := entry_of_links hnext
  exact (List.getElem?_eq_some_iff.mp he).1

private theorem Linked.next_range (linked : Linked d t (fun _ => True)) (some : t.hashtable ≠ []) :
    ∀ e ∈ t.entries, -1 ≤ e.next ∧ e.next < t.entries.length := by
  intro e he
  obtain ⟨i, hi⟩ := getElem?_of_mem he
  have inBucket := bucket_get (d := d) (data_get hi)
  obtain ⟨head, at_b⟩ := exists_head (d := d) some (d.key e.udata)
  obtain ⟨nodes, path, _, members⟩ := linked _ head at_b
  have member : i ∈ nodes := (members i).mpr ⟨trivial, inBucket⟩
  rcases path.next_mem member (links_get hi) with last | ⟨j, hj, next⟩
  · omega
  · have := path_inside path j hj
    omega

variable {head : Int}

/-- A change to the chain of one bucket: the entries on the other chains, their links and the other
heads stay, and the new chain of the bucket is given. -/
theorem Linked.relink {chosen chosen' : Nat → Prop}
    (linked : Linked d t chosen) (b₀ : Nat) (nodes : List Nat)
    (heads : ∀ b, b ≠ b₀ → t'.hashtable[b]? = t.hashtable[b]?)
    (others : ∀ b, b ≠ b₀ → ∀ i, (chosen' i ∧ bucket d t' i = some b) ↔
      (chosen i ∧ bucket d t i = some b))
    (kept : ∀ b, b ≠ b₀ → ∀ i, chosen i → bucket d t i = some b → links t' i = links t i)
    (at_b : t'.hashtable[b₀]? = some head) (path : Path (links t') head nodes (-1))
    (members : ∀ i, i ∈ nodes ↔ chosen' i ∧ bucket d t' i = some b₀) : Linked d t' chosen' := by
  intro b head' at_b'
  by_cases same : b = b₀
  · subst same
    obtain rfl : head = head' := Option.some.inj (at_b.symm.trans at_b')
    exact ⟨nodes, path, path.nodup (by decide), members⟩
  · rw [heads b same] at at_b'
    obtain ⟨old, oldPath, nodup, oldMembers⟩ := linked b head' at_b'
    refine ⟨old, oldPath.congr fun i hi => ?_, nodup, fun i => ?_⟩
    · have member := (oldMembers i).mp hi
      exact kept b same i member.1 member.2
    · rw [oldMembers, others b same]

private theorem returns_hashtableSize {n : Nat} (fits : n ≤ limit * hashtableSizeFactor) :
    Returns (TooLarge limit) (hashtableSize n) (fun size => n ≤ size) := by
  unfold hashtableSize
  cases h : zeroAndSomePrimes.find? (fun p => decide (n ≤ p)) with
  | some p =>
    have large := find?_some h
    show n ≤ p
    simpa using large
  | none =>
    refine ⟨n, rfl, ?_, fits⟩
    have last := find?_eq_none.mp h maxSize (by decide)
    simpa using last

/-- After `j` rounds the first `j` entries are linked and the others are as they were. -/
structure Rehashed (d : Container K E) (t : Table E) (size j : Nat) (t' : Table E) : Prop where
  size : t'.hashtable.length = size
  data : t'.data = t.data
  capacity : t'.capacity = t.capacity
  later : ∀ i, j ≤ i → t'.entries[i]? = t.entries[i]?
  linked : Linked d t' (· < j)

private theorem Rehashed.start (d : Container K E) (t : Table E) (size : Nat) :
    Rehashed d t size 0 { t with hashtable := List.replicate size (-1) } where
  size := by simp
  data := rfl
  capacity := rfl
  later _ _ := rfl
  linked b head h := by
    obtain ⟨_, rfl⟩ : b < size ∧ head = -1 := by
      simpa [getElem?_replicate, eq_comm] using h
    exact ⟨[], rfl, nodup_nil, by simp⟩

def linkFirst (t : Table E) (i hash : Nat) (e : Entry E) (head : Int) : Table E :=
  { t with
    entries := t.entries.set i { e with next := head }
    hashtable := t.hashtable.set hash i }

theorem linkFirst_data {i : Nat} {e : Entry E} (hash : Nat) (head : Int) (h : t.entries[i]? = some e) :
    (linkFirst t i hash e head).data = t.data := by
  have old : t.data[i]? = some e.udata := data_get h
  apply ext_getElem?
  intro j
  simp only [Table.data, linkFirst, map_set, getElem?_set] at old ⊢
  split
  · rename_i same
    subst same
    rw [old]
    simpa using (List.getElem?_eq_some_iff.mp h).1
  · rfl

private theorem links_linkFirst {i hash : Nat} {e : Entry E} (h : t.entries[i]? = some e)
    (j : Nat) : links (linkFirst t i hash e head) j = if j = i then some head else links t j := by
  have inside : i < t.entries.length := (List.getElem?_eq_some_iff.mp h).1
  by_cases same : j = i
  · subst same
    simp [links, linkFirst, inside]
  · rw [if_neg same]
    simp only [links, linkFirst]
    rw [getElem?_set_ne (Ne.symm same)]

private theorem Rehashed.round {size j : Nat} {e : Entry E} (inv : Rehashed d t size j t')
    (at_j : t'.entries[j]? = some e)
    (at_b : t'.hashtable[t'.doHash d (d.key e.udata)]? = some head) :
    Rehashed d t size (j + 1) (linkFirst t' j (t'.doHash d (d.key e.udata)) e head) := by
  generalize hash : t'.doHash d (d.key e.udata) = h at at_b ⊢
  have data := linkFirst_data h head at_j
  have length : (linkFirst t' j h e head).hashtable.length = t'.hashtable.length := by
    simp [linkFirst]
  have here : bucket d t' j = some h := by rw [bucket_get (data_get at_j), hash]
  refine ⟨length.trans inv.size, data.trans inv.data, inv.capacity, ?_, ?_⟩
  · intro i later
    rw [← inv.later i (by omega)]
    exact List.getElem?_set_ne (by omega)
  · obtain ⟨nodes, path, _, members⟩ := inv.linked h head at_b
    have inside : h < t'.hashtable.length := (List.getElem?_eq_some_iff.mp at_b).1
    have new : j ∉ nodes := fun member => absurd ((members j).mp member).1 (lt_irrefl j)
    have tail : Path (links (linkFirst t' j h e head)) head nodes (-1) := by
      refine path.congr fun i hi => ?_
      have apart : i ≠ j := fun eq => new (eq ▸ hi)
      rw [links_linkFirst at_j, if_neg apart]
    refine inv.linked.relink h (j :: nodes) ?_ ?_ ?_
      (by simp [linkFirst, inside]) ⟨rfl, head, ?_, tail⟩ ?_
    · intro b ne
      exact getElem?_set_ne (Ne.symm ne)
    · intro b ne i
      rw [bucket_congr data length]
      constructor
      · rintro ⟨less, inBucket⟩
        rcases Nat.lt_succ_iff_lt_or_eq.mp less with before | rfl
        · exact ⟨before, inBucket⟩
        · exact absurd (Option.some.inj (inBucket.symm.trans here)) ne
      · exact fun h => ⟨by omega, h.2⟩
    · intro b _ i less _
      rw [links_linkFirst at_j, if_neg (by omega)]
    · rw [links_linkFirst at_j, if_pos rfl]
    · intro i
      rw [mem_cons, members, bucket_congr data length]
      constructor
      · rintro (rfl | ⟨less, inBucket⟩)
        · exact ⟨Nat.lt_succ_self i, here⟩
        · exact ⟨by omega, inBucket⟩
      · rintro ⟨less, inBucket⟩
        rcases Nat.lt_succ_iff_lt_or_eq.mp less with before | rfl
        · exact .inr ⟨before, inBucket⟩
        · exact .inl rfl

/-- Rehashing needs successors in range and nothing else about the old links. -/
private theorem returns_doRehash (room : t.entries.length ≤ t.capacity) (fits : t.capacity ≤ limit)
    (nexts : ∀ e ∈ t.entries, -1 ≤ e.next ∧ e.next < t.entries.length) :
    Returns (TooLarge limit) (t.doRehash d) (fun t' => Linked d t' (fun _ => True) ∧ t'.data = t.data ∧
      t'.capacity = t.capacity ∧ (t'.hashtable = [] → t'.entries = [])) := by
  refine (returns_hashtableSize (Nat.mul_le_mul_right _ fits)).bind fun size enough => ?_
  refine (returns_range (Rehashed d t size) _ (Rehashed.start d t size) ?_).mono ?_
  · intro j t' inside inv
    have size' := length_congr inv.data
    obtain ⟨e, at_j⟩ : ∃ e, t'.entries[j]? = some e :=
      ⟨_, getElem?_eq_getElem (by omega)⟩
    have next := nexts e (mem_of_getElem? ((inv.later j le_rfl).symm.trans at_j))
    have nonempty : t'.hashtable ≠ [] := by
      have := inv.size
      intro none
      simp only [none, length_nil, hashtableSizeFactor] at this enough
      omega
    obtain ⟨head, at_b⟩ := exists_head (d := d) nonempty (d.key e.udata)
    have done : Table.rehashEntry d t' j =
        .ok (linkFirst t' j (t'.doHash d (d.key e.udata)) e head) := by
      rw [Table.rehashEntry, entryAt_nat at_j, ok_bind, check_true (by rw [size']; exact next),
        ok_bind]
      dsimp only
      rw [orFail_some at_b]
      rfl
    exact .of_eq done (inv.round at_j at_b)
  · intro t' inv
    have size' := length_congr inv.data
    refine ⟨?_, inv.data, inv.capacity, ?_⟩
    · intro b head at_b
      obtain ⟨nodes, path, nodup, members⟩ := inv.linked b head at_b
      refine ⟨nodes, path, nodup, fun i => ?_⟩
      rw [members]
      refine and_congr_left fun inBucket => iff_of_true ?_ trivial
      have := lt_of_bucket inBucket
      omega
    · intro none
      have zero := inv.size
      rw [none, length_nil] at zero
      simp only [hashtableSizeFactor] at enough
      exact eq_nil_of_length_eq_zero (by omega)

/-- The invariant of a container: linked chains, no bucket only if there is no entry, no key twice,
room for the entries, and a capacity within the limit. -/
structure Valid (d : Container K E) (limit : Nat) (t : Table E) : Prop where
  linked : Linked d t (fun _ => True)
  buckets : t.hashtable = [] → t.entries = []
  distinct : t.data.Pairwise (fun a b => d.ops.cmp (d.key a) (d.key b) = false)
  room : t.entries.length ≤ t.capacity
  fits : t.capacity ≤ limit

theorem Valid.mono {limit' : Nat} (valid : Valid d limit t) (le : limit ≤ limit') : Valid d limit' t :=
  ⟨valid.linked, valid.buckets, valid.distinct, valid.room, valid.fits.trans le⟩

theorem Valid.next_range (valid : Valid d limit t) :
    ∀ e ∈ t.entries, -1 ≤ e.next ∧ e.next < t.entries.length := by
  rcases eq_or_ne t.hashtable [] with none | some
  · simp [valid.buckets none]
  · exact valid.linked.next_range some

theorem Valid.rehash (distinct : t.data.Pairwise (fun a b => d.ops.cmp (d.key a) (d.key b) = false))
    (room : t.entries.length ≤ t.capacity) (fits : t.capacity ≤ limit)
    (nexts : ∀ e ∈ t.entries, -1 ≤ e.next ∧ e.next < t.entries.length) :
    Returns (TooLarge limit) (t.doRehash d) (fun t' => Valid d limit t' ∧ t'.data = t.data) := by
  refine (returns_doRehash room fits nexts).mono ?_
  rintro t' ⟨linked, data, capacity, buckets⟩
  exact ⟨⟨linked, buckets, by rwa [data], by rwa [length_congr data, capacity], by rwa [capacity]⟩, data⟩

private theorem searchChain_spec (key : K)
    (path : Path (links t) head nodes (-1)) (fuel : Nat) (enough : nodes.length < fuel) :
    (t.searchChain d key fuel head = .ok (-1) ∧
        ∀ i ∈ nodes, ∀ x, t.data[i]? = some x → d.ops.cmp (d.key x) key = false) ∨
      ∃ i ∈ nodes, ∃ x, t.data[i]? = some x ∧ d.ops.cmp (d.key x) key = true ∧
        t.searchChain d key fuel head = .ok i := by
  induction nodes generalizing head fuel with
  | nil =>
    obtain ⟨fuel, rfl⟩ : ∃ n, fuel = n + 1 := ⟨fuel - 1, by simp at enough; omega⟩
    obtain rfl : head = -1 := path
    exact .inl ⟨by simp [Table.searchChain], by simp⟩
  | cons i nodes ih =>
    obtain ⟨fuel, rfl⟩ : ∃ n, fuel = n + 1 := ⟨fuel - 1, by simp at enough; omega⟩
    obtain ⟨rfl, next, hnext, tail⟩ := path
    obtain ⟨e, at_i, rfl⟩ := entry_of_links hnext
    have data := data_get at_i
    have natural : ¬ ((i : Int) < 0) := by omega
    rw [Table.searchChain, if_neg natural, entryAt_nat at_i, ok_bind]
    by_cases equal : d.ops.cmp (d.key e.udata) key = true
    · rw [if_pos equal]
      exact .inr ⟨i, by simp, e.udata, data, equal, rfl⟩
    · have range : -1 ≤ e.next ∧ e.next < t.entries.length := by
        rcases tail.start_mem with ⟨last, -⟩ | ⟨j, member, next⟩
        · omega
        · have := path_inside tail j member
          omega
      rw [if_neg equal, check_true range, ok_bind]
      rcases ih tail fuel (by simpa using enough) with ⟨none, all⟩ | ⟨j, hj, x, hx, found⟩
      · refine .inl ⟨none, fun j hj x hx => ?_⟩
        rcases mem_cons.mp hj with rfl | later
        · obtain rfl : e.udata = x := Option.some.inj (data.symm.trans hx)
          simpa using equal
        · exact all j later x hx
      · exact .inr ⟨j, by simp [hj], x, hx, found⟩

structure Located (d : Container K E) (limit : Nat) (t : Table E) (key : K) (r : Table.Found E) : Prop where
  valid : Valid d limit r.table
  data : r.table.data = t.data
  hash : r.hash = r.table.doHash d key
  found : (r.index = -1 ∧ ∀ x ∈ t.data, d.ops.cmp (d.key x) key = false) ∨
    ∃ (i : Nat) (e : Entry E), r.index = i ∧ r.table.entries[i]? = some e ∧
      d.ops.cmp (d.key e.udata) key = true

theorem doHash_eq {a b : K} (equal : d.ops.cmp a b = true) : t.doHash d a = t.doHash d b := by
  simp only [Table.doHash, d.ops.hash_eq a b equal]

private theorem search_located (key : K) (valid : Valid d limit t) (some : t.hashtable ≠ []) :
    ∃ head index, t.hashtable[t.doHash d key]? = .some head ∧
      t.searchChain d key (t.entries.length + 1) head = .ok index ∧
      Located d limit t key ⟨index, t.doHash d key, t⟩ := by
  obtain ⟨head, at_b⟩ := exists_head (d := d) some key
  obtain ⟨nodes, path, nodup, members⟩ := valid.linked _ head at_b
  have short := nodes_length nodup (path_inside path)
  rcases searchChain_spec (d := d) key path (t.entries.length + 1) (by omega) with
    ⟨none, all⟩ | ⟨i, _, x, hx, equal, found⟩
  · refine ⟨head, -1, at_b, none, valid, rfl, rfl, .inl ⟨rfl, ?_⟩⟩
    intro x hx
    obtain ⟨i, hi⟩ := getElem?_of_mem hx
    by_contra equal
    rw [Bool.not_eq_false] at equal
    have member : i ∈ nodes :=
      (members i).mpr ⟨trivial, by rw [bucket_get hi, doHash_eq equal]⟩
    rw [all i member x hi] at equal
    cases equal
  · obtain ⟨e, he, rfl⟩ := entry_of_data hx
    exact ⟨head, i, at_b, found, valid, rfl, rfl, .inr ⟨i, e, rfl, he, equal⟩⟩

theorem returns_lookup (valid : Valid d limit t) (key : K) :
    Returns (TooLarge limit) (t.lookup d key) (Located d limit t key) := by
  unfold Table.lookup Table.doLookup
  split
  · rename_i empty
    have none := isEmpty_iff.mp empty
    refine Returns.ok ⟨valid, rfl, rfl, .inl ⟨rfl, ?_⟩⟩
    simp [Table.data, valid.buckets none]
  · rename_i nonempty
    have some : t.hashtable ≠ [] := fun none => nonempty (by simp [none])
    by_cases rehash : t.hashtable.length < t.entries.length * hashtableSizeTrigger
    · simp only [rehash, decide_true, if_true]
      refine (Valid.rehash valid.distinct valid.room valid.fits valid.next_range).bind ?_
      rintro t' ⟨valid', data⟩
      have length := length_congr data
      have some' : t'.hashtable ≠ [] := by
        intro none
        rw [valid'.buckets none, length_nil] at length
        simp [← length] at rehash
      obtain ⟨head, index, at_b, found, located⟩ := search_located key valid' some'
      rw [orFail_some at_b, ok_bind, found, ok_bind]
      exact ⟨located.valid, located.data.trans data, located.hash, data ▸ located.found⟩
    · simp only [rehash, decide_false, Bool.false_eq_true, if_false]
      obtain ⟨head, index, at_b, found, located⟩ := search_located key valid some
      rw [ok_bind, orFail_some at_b, ok_bind, found, ok_bind]
      exact located

private theorem Linked.push {e : E} (linked : Linked d t (fun _ => True))
    (at_b : t.hashtable[t.doHash d (d.key e)]? = some head) :
    Linked d { t.pushEntry d ⟨e, head⟩ with
      hashtable := t.hashtable.set (t.doHash d (d.key e)) t.entries.length } (fun _ => True) := by
  generalize hash : t.doHash d (d.key e) = h at at_b ⊢
  generalize new : ({ t.pushEntry d ⟨e, head⟩ with
    hashtable := t.hashtable.set h t.entries.length } : Table E) = t'
  have length : t'.hashtable.length = t.hashtable.length := by simp [← new]
  have table : t'.hashtable = t.hashtable.set h t.entries.length := by rw [← new]
  have entries : t'.entries = t.entries ++ [⟨e, head⟩] := by rw [← new]; rfl
  have old : ∀ i, i < t.entries.length → links t' i = links t i ∧
      bucket d t' i = bucket d t i := by
    intro i hi
    simp [links, bucket, Table.data, entries, getElem?_append_left hi, doHash_congr length]
    rw [getElem?_append_left (by simpa using hi)]
    simp
  have last : links t' t.entries.length = some head ∧
      bucket d t' t.entries.length = some h := by
    simp [links, bucket, Table.data, entries, doHash_congr length, hash]
  have beyond : ∀ i, t.entries.length < i → bucket d t' i = none := by
    intro i more
    refine bucket_none ?_
    rw [entries, length_append, length_singleton]
    omega
  obtain ⟨nodes, path, _, members⟩ := linked h head at_b
  have inside := path_inside path
  have inRange : h < t.hashtable.length := (List.getElem?_eq_some_iff.mp at_b).1
  refine linked.relink h (t.entries.length :: nodes) ?_ ?_ ?_ (by rw [table]; simp [inRange])
    ⟨rfl, head, last.1, path.congr fun i hi => (old i (inside i hi)).1⟩ ?_
  · intro b ne
    rw [table, getElem?_set_ne (Ne.symm ne)]
  · intro b ne i
    rcases lt_trichotomy i t.entries.length with less | rfl | more
    · rw [(old i less).2]
    · simp [bucket_none le_rfl, last.2, Ne.symm ne]
    · simp [bucket_none more.le, beyond i more]
  · intro b _ i _ inBucket
    exact (old i (lt_of_bucket inBucket)).1
  · intro i
    rw [mem_cons, members]
    rcases lt_trichotomy i t.entries.length with less | rfl | more
    · rw [(old i less).2]
      constructor
      · rintro (rfl | h)
        · exact absurd less (lt_irrefl _)
        · exact h
      · exact .inr
    · simp [last.2]
    · have apart : i ≠ t.entries.length := by omega
      simp [apart, bucket_none more.le, beyond i more]

private theorem pushEntry_room (e : Entry E) :
    (t.pushEntry d e).entries.length ≤ (t.pushEntry d e).capacity := by
  have := d.alloc.grow_gt t.capacity t.entries.length
  simp only [Table.pushEntry, length_append, length_singleton]
  omega

private theorem pushEntry_fits (e : Entry E) (fits : t.capacity ≤ limit)
    (enough : d.alloc.ratio * (t.entries.length + 1) ≤ limit) : (t.pushEntry d e).capacity ≤ limit :=
  (d.alloc.grow_le _ _).trans (max_le fits enough)

theorem returns_doInsert {e : E} (valid : Valid d limit t)
    (absent : ∀ x ∈ t.data, d.ops.cmp (d.key x) (d.key e) = false)
    (enough : d.alloc.ratio * (t.entries.length + 1) ≤ limit) :
    Returns (TooLarge limit) (t.doInsert d e (t.doHash d (d.key e)))
      (fun r => r.1 = t.entries.length ∧ Valid d limit r.2 ∧ r.2.data = t.data ++ [e]) := by
  have distinct : (t.data ++ [e]).Pairwise (fun a b => d.ops.cmp (d.key a) (d.key b) = false) :=
    pairwise_append.mpr ⟨valid.distinct, by simp, by simpa using absent⟩
  unfold Table.doInsert
  split
  · rename_i empty
    have none := valid.buckets (isEmpty_iff.mp empty)
    have data : (t.pushEntry d ⟨e, -1⟩).data = t.data ++ [e] := by
      simp [Table.pushEntry, Table.data]
    have rehash := Valid.rehash (d := d) (t := t.pushEntry d ⟨e, -1⟩) (by rw [data]; exact distinct)
      (pushEntry_room _) (pushEntry_fits _ valid.fits enough) (by simp [Table.pushEntry, none])
    refine rehash.bind ?_
    rintro t' ⟨valid', data'⟩
    refine Returns.ok ⟨?_, valid', data'.trans data⟩
    rw [← data_length, data', data]
    simp
  · rename_i nonempty
    have some : t.hashtable ≠ [] := fun none => nonempty (by simp [none])
    obtain ⟨head, at_b⟩ := exists_head (d := d) some (d.key e)
    rw [orFail_some at_b, ok_bind]
    refine Returns.ok ⟨rfl, ⟨valid.linked.push at_b, ?_, ?_, pushEntry_room _,
      pushEntry_fits ⟨e, head⟩ valid.fits enough⟩, ?_⟩
    · intro none
      simp [some] at none
    · simpa [Table.pushEntry, Table.data] using distinct
    · simp [Table.pushEntry, Table.data]

end ManticoreFrontend.Kernel.HashChains
