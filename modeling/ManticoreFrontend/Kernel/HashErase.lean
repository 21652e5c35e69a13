/- source: kernel/hashlib.h
   digest: Erasing an entry: it is unlinked, the last entry moves into the hole under the pointer that
     led to it, and all chains stay as they should be. -/

import ManticoreFrontend.Kernel.HashChains

namespace ManticoreFrontend.Kernel.HashErase

open Foundation Outcome LinkedPaths HashTables HashChains List

variable {K E : Type} {d : Container K E} {t : Table E} {limit index b : Nat} {head target : Int}
  {front : List Nat}

private theorem findBefore_spec {before : Nat} (path : Path (links t) head (front ++ [before]) index)
    (fresh : index ∉ front ++ [before]) (fuel : Nat) (enough : (front ++ [before]).length ≤ fuel) :
    t.findBefore index fuel head = .ok before := by
  induction front generalizing head fuel with
  | nil =>
    obtain ⟨fuel, rfl⟩ : ∃ n, fuel = n + 1 := ⟨fuel - 1, by simp at enough; omega⟩
    obtain ⟨rfl, next, hnext, stop⟩ := path
    obtain ⟨e, at_k, rfl⟩ := entry_of_links hnext
    rw [Table.findBefore, entryAt_nat at_k, ok_bind, if_pos (path_nil.mp stop)]
    rfl
  | cons k front ih =>
    obtain ⟨fuel, rfl⟩ : ∃ n, fuel = n + 1 := ⟨fuel - 1, by simp at enough; omega⟩
    obtain ⟨rfl, next, hnext, tail⟩ := path
    obtain ⟨e, at_k, rfl⟩ := entry_of_links hnext
    -- The next node is one of the chain before `index`.
    obtain ⟨j, member, next⟩ := tail.start_mem.resolve_left (by simp)
    have inside := path_inside tail j member
    have apart : e.next ≠ index := by
      intro eq
      have same : j = index := by omega
      exact fresh (mem_cons_of_mem k (same ▸ member))
    have range : 0 ≤ e.next ∧ e.next < t.entries.length := by omega
    rw [Table.findBefore, entryAt_nat at_k, ok_bind, if_neg apart, check_true range, ok_bind]
    exact ih tail (fun h => fresh (mem_cons_of_mem k h)) fuel (by simpa using enough)

/-- What a redirection changes: the last pointer on the way to the old entry. -/
structure Redirected (t : Table E) (b : Nat) (front : List Nat) (target : Int) (t' : Table E) :
    Prop where
  data : t'.data = t.data
  capacity : t'.capacity = t.capacity
  length : t'.hashtable.length = t.hashtable.length
  path : ∃ head, t'.hashtable[b]? = some head ∧ Path (links t') head front target
  heads : ∀ b', b' ≠ b → t'.hashtable[b']? = t.hashtable[b']?
  links : ∀ i, i ∉ front → links t' i = links t i

private theorem links_setNext {i : Nat} (inside : i < t.entries.length) (j : Nat) :
    links (t.setNext i target) j = if j = i then some target else links t j := by
  simp only [links, Table.setNext, getElem?_modify]
  by_cases same : j = i
  · subst same
    simp [inside]
  · simp [same, Ne.symm same]

private theorem setNext_data {i : Nat} : (t.setNext i target).data = t.data := by
  apply ext_getElem?
  intro j
  simp only [Table.data, Table.setNext, getElem?_map, getElem?_modify]
  by_cases same : i = j
  · subst same
    cases t.entries[i]? <;> simp
  · simp [same]

private theorem redirect_spec (target : Int) (at_b : t.hashtable[b]? = some head)
    (path : Path (links t) head front index) (fresh : index ∉ front) (nodup : front.Nodup)
    (inside : index < t.entries.length) :
    ∃ t', t.redirect d b index target = .ok t' ∧ Redirected t b front target t' := by
  have nodes := path_inside path
  have inRange : 0 ≤ head ∧ head < t.entries.length := by
    rcases path.start_mem with ⟨last, -⟩ | ⟨k, member, first⟩
    · omega
    · have := nodes k member
      omega
  rw [Table.redirect, orFail_some at_b, ok_bind, check_true (fun _ => inRange), ok_bind]
  have bucketInside : b < t.hashtable.length := (List.getElem?_eq_some_iff.mp at_b).1
  cases front using reverseRecOn with
  | nil =>
    rw [if_pos (path_nil.mp path)]
    refine ⟨_, rfl, rfl, rfl, by simp, ⟨target, by simp [bucketInside], rfl⟩, ?_, fun _ _ => rfl⟩
    intro b' ne
    exact getElem?_set_ne (Ne.symm ne)
  | append_singleton front before =>
    have first : head ≠ index := by
      intro eq
      obtain ⟨k, member, first⟩ := path.start_mem.resolve_left (by simp)
      obtain rfl : k = index := by omega
      exact fresh member
    have short := nodes_length nodup nodes
    have found := findBefore_spec path fresh (t.entries.length + 1) (by omega)
    have last : before < t.entries.length := nodes before (by simp)
    have new : before ∉ front := fun member =>
      (nodup_append.mp nodup).2.2 before member before (by simp) rfl
    rw [if_neg first, found, ok_bind]
    refine ⟨_, rfl, setNext_data, rfl, rfl, ⟨head, at_b, ?_⟩, fun _ _ => rfl, ?_⟩
    · refine path.redirect ?_ ?_
      · rw [links_setNext last, if_pos rfl]
      · intro j hj
        have apart : j ≠ before := fun eq => new (eq ▸ hj)
        rw [links_setNext last, if_neg apart]
    · intro i outside
      have apart : i ≠ before := fun eq => outside (by simp [eq])
      rw [links_setNext last, if_neg apart]

variable {e : Entry E}

theorem redirect_linked {chosen : Nat → Prop} (linked : Linked d t chosen) (some : t.hashtable ≠ [])
    (at_i : t.entries[index]? = .some e) (member : chosen index) (target : Int) :
    ∃ t' front rest, t.redirect d (t.doHash d (d.key e.udata)) index target = .ok t' ∧
      Redirected t (t.doHash d (d.key e.udata)) front target t' ∧ Path (links t) e.next rest (-1) ∧
      (front ++ index :: rest).Nodup ∧ ∀ i, i ∈ front ++ index :: rest ↔
        chosen i ∧ bucket d t i = .some (t.doHash d (d.key e.udata)) := by
  have at_b := getElem?_eq_getElem (doHash_lt (d := d) some (d.key e.udata))
  obtain ⟨nodes, path, nodup, members⟩ := linked _ _ at_b
  obtain ⟨front, rest, rfl⟩ := append_of_mem ((members index).mpr ⟨member, bucket_get (data_get at_i)⟩)
  obtain ⟨middle, before, rfl, next, hnext, after⟩ := path_append.mp path
  obtain rfl : e.next = next := Option.some.inj ((links_get at_i).symm.trans hnext)
  have parts := nodup_append.mp nodup
  have fresh : index ∉ front := fun h => parts.2.2 index h index (by simp) rfl
  obtain ⟨t', done, change⟩ := redirect_spec (d := d) target at_b before fresh parts.1
    (List.getElem?_eq_some_iff.mp at_i).1
  exact ⟨t', front, rest, done, change, after, nodup, members⟩

private theorem unlink_spec (linked : Linked d t (fun _ => True))
    (some : t.hashtable ≠ []) (at_i : t.entries[index]? = .some e) :
    ∃ t', t.redirect d (t.doHash d (d.key e.udata)) index e.next = .ok t' ∧
      Linked d t' (· ≠ index) ∧ t'.data = t.data ∧ t'.capacity = t.capacity ∧
      t'.hashtable.length = t.hashtable.length := by
  have own := bucket_get (d := d) (data_get at_i)
  obtain ⟨t', front, rest, done, change, after, nodup, members⟩ :=
    redirect_linked linked some at_i trivial e.next
  have parts := nodup_append.mp nodup
  have fresh : index ∉ front := fun h => parts.2.2 index h index (by simp) rfl
  have apart : ∀ i ∈ rest, i ∉ front := fun i hi h => parts.2.2 i h i (by simp [hi]) rfl
  refine ⟨t', done, ?_, change.data, change.capacity, change.length⟩
  have sameBucket := bucket_congr (d := d) change.data change.length
  obtain ⟨head', at_b', path⟩ := change.path
  have whole : Path (links t') head' (front ++ rest) (-1) :=
    path_append.mpr ⟨e.next, path, after.congr fun i hi => change.links i (apart i hi)⟩
  refine linked.relink _ _ change.heads ?_ ?_ at_b' whole ?_
  · intro b ne i
    rw [sameBucket]
    constructor
    · exact fun h => ⟨trivial, h.2⟩
    · rintro ⟨_, inBucket⟩
      refine ⟨?_, inBucket⟩
      rintro rfl
      exact ne (Option.some.inj (inBucket.symm.trans own))
  · intro b ne i _ inBucket
    refine change.links i fun member => ?_
    have := ((members i).mp (by simp [member])).2
    exact ne (Option.some.inj (inBucket.symm.trans this))
  · intro i
    rw [sameBucket]
    have old := members i
    simp only [mem_append, mem_cons, true_and] at old ⊢
    have out : index ∉ rest := (nodup_cons.mp parts.2.1).1
    constructor
    · rintro (h | h)
      · exact ⟨fun eq => fresh (eq ▸ h), old.mp (.inl h)⟩
      · exact ⟨fun eq => out (eq ▸ h), old.mp (.inr (.inr h))⟩
    · rintro ⟨ne, inBucket⟩
      rcases old.mpr inBucket with h | rfl | h
      · exact .inl h
      · exact absurd rfl ne
      · exact .inr h

def shrink (t : Table E) : Table E := { t with entries := t.entries.dropLast }

private theorem links_shrink (i : Nat) :
    links (shrink t) i = if i < t.entries.length - 1 then links t i else none := by
  simp only [links, shrink, getElem?_dropLast]
  split <;> simp

private theorem bucket_shrink (i : Nat) :
    bucket d (shrink t) i = if i < t.entries.length - 1 then bucket d t i else none := by
  simp only [bucket, Table.data, shrink, map_dropLast, getElem?_dropLast, length_map]
  split <;> simp [Table.doHash]

def overwrite (t : Table E) (index : Nat) (e : Entry E) : Table E :=
  { t with entries := t.entries.set index e }

private theorem links_overwrite (inside : index < t.entries.length) (i : Nat) :
    links (overwrite t index e) i = if i = index then some e.next else links t i := by
  by_cases same : i = index
  · subst same
    simp [links, overwrite, inside]
  · rw [if_neg same]
    simp only [links, overwrite]
    rw [getElem?_set_ne (Ne.symm same)]

private theorem bucket_overwrite (inside : index < t.entries.length) (i : Nat) :
    bucket d (overwrite t index e) i =
      if i = index then some (t.doHash d (d.key e.udata)) else bucket d t i := by
  by_cases same : i = index
  · subst same
    simp [bucket, overwrite, Table.data, inside, Table.doHash]
  · rw [if_neg same]
    simp only [bucket, overwrite, Table.data, map_set]
    rw [getElem?_set_ne (Ne.symm same)]
    simp [Table.doHash]

private theorem linked_drop_last (linked : Linked d t (· ≠ t.entries.length - 1)) :
    Linked d (shrink t) (fun _ => True) := by
  intro b head at_b
  obtain ⟨nodes, path, nodup, members⟩ := linked b head at_b
  have inside : ∀ i ∈ nodes, i < t.entries.length - 1 := by
    intro i hi
    have := ((members i).mp hi).1
    have := path_inside path i hi
    omega
  refine ⟨nodes, path.congr fun i hi => ?_, nodup, fun i => ?_⟩
  · rw [links_shrink, if_pos (inside i hi)]
  · rw [bucket_shrink]
    constructor
    · intro hi
      rw [if_pos (inside i hi)]
      exact ⟨trivial, ((members i).mp hi).2⟩
    · rintro ⟨_, inBucket⟩
      split at inBucket
      · exact (members i).mpr ⟨by omega, inBucket⟩
      · cases inBucket

private theorem overwrite_dropLast {l : List E} {x y : E} (at_i : l[index]? = some x)
    (at_last : l[l.length - 1]? = some y) :
    (x :: (l.set index y).dropLast).Perm l ∧ (l.set index y).dropLast.take index = l.take index := by
  obtain ⟨front, last, rfl⟩ : ∃ front last, l = front ++ [last] := by
    cases l using reverseRecOn with
    | nil => simp at at_i
    | append_singleton front last => exact ⟨front, last, rfl⟩
  obtain rfl : last = y := by simpa using at_last
  have bound := (List.getElem?_eq_some_iff.mp at_i).1
  rw [length_append, length_singleton] at bound
  rcases Nat.lt_or_ge index front.length with inside | past
  · have at_front : front[index]? = some x := by
      rwa [List.getElem?_append_left inside] at at_i
    have before : front = front.take index ++ x :: front.drop (index + 1) := by
      rw [← (List.getElem?_eq_some_iff.mp at_front).2, List.getElem_cons_drop,
        List.take_append_drop]
    rw [set_append_left _ _ inside, dropLast_concat, set_eq_take_append_cons_drop, if_pos inside,
      take_append_of_le_length inside.le, take_left' (by simp [inside.le])]
    refine ⟨?_, rfl⟩
    conv_rhs => rw [before]
    rw [append_assoc]
    have moved := List.Perm.append_left (front.take index)
      (perm_append_singleton last (front.drop (index + 1))).symm
    exact (moved.cons x).trans perm_middle.symm
  · obtain rfl : index = front.length := by omega
    obtain rfl : last = x := by simpa using at_i
    simp [Perm.symm]

theorem moveLast_spec {last : Entry E} (linked : Linked d t (· ≠ index)) (some : t.hashtable ≠ [])
    (at_k : t.entries[t.entries.length - 1]? = .some last) (inside : index < t.entries.length)
    (isLast : index ≠ t.entries.length - 1) :
    ∃ t' last' front, t.redirect d (t.doHash d (d.key last.udata)) (t.entries.length - 1) index =
        .ok t' ∧ t'.entries[t.entries.length - 1]? = .some last' ∧
      Linked d (shrink (overwrite t' index last')) (fun _ => True) ∧
      Redirected t (t.doHash d (d.key last.udata)) front index t' := by
  generalize back : t.entries.length - 1 = k at at_k isLast ⊢
  have own := bucket_get (d := d) (data_get at_k)
  obtain ⟨t', front, rest, done, change, after, nodup, members⟩ :=
    redirect_linked linked some at_k (Ne.symm isLast) index
  generalize hash : t.doHash d (d.key last.udata) = h at own done change members ⊢
  have parts := nodup_append.mp nodup
  have fresh : k ∉ front := fun h => parts.2.2 k h k (by simp) rfl
  have length := length_congr change.data
  obtain ⟨last', at_k'⟩ : ∃ last', t'.entries[k]? = .some last' :=
    ⟨_, getElem?_eq_getElem (by omega)⟩
  have sameData : last'.udata = last.udata := by
    have new := data_get at_k'
    rw [change.data, data_get at_k] at new
    exact (Option.some.inj new).symm
  have sameNext : last'.next = last.next := by
    have new := links_get at_k'
    rw [change.links k fresh, links_get at_k] at new
    exact (Option.some.inj new).symm
  refine ⟨t', last', front, done, at_k', ?_, change⟩
  have size : (overwrite t' index last').entries.length = t'.entries.length := by
    simp [overwrite]
  have links' : ∀ i, i < k → links (shrink (overwrite t' index last')) i =
      if i = index then .some last.next else links t' i := by
    intro i hi
    rw [links_shrink, if_pos (by omega), links_overwrite (by omega), sameNext]
  have bucket' : ∀ i, bucket d (shrink (overwrite t' index last')) i =
      if i < k then if i = index then .some h else bucket d t i else none := by
    intro i
    rw [bucket_shrink, size, length, back, bucket_overwrite (by omega),
      bucket_congr change.data change.length, doHash_congr change.length, sameData, hash]
  -- No node of the chain but the last entry itself is the hole or the last entry.
  have other : ∀ i, i ∈ front ∨ i ∈ rest → i ≠ index ∧ i < k := by
    intro i hi
    have member := (members i).mp (mem_append.mpr (hi.imp_right (mem_cons_of_mem k)))
    have ne : i ≠ k := by
      rintro rfl
      rcases hi with h | h
      · exact fresh h
      · exact (nodup_cons.mp parts.2.1).1 h
    have := lt_of_bucket member.2
    exact ⟨member.1, by omega⟩
  have below {i b : Nat} (ne : b ≠ h) (inBucket : bucket d t i = .some b) : i < k := by
    have := lt_of_bucket inBucket
    have apart : i ≠ k := by
      rintro rfl
      exact ne (Option.some.inj (inBucket.symm.trans own))
    omega
  obtain ⟨head', at_b', path⟩ := change.path
  have frontPath : Path (links (shrink (overwrite t' index last'))) head' front index := by
    refine path.congr fun i hi => ?_
    have := other i (.inl hi)
    rw [links' i this.2, if_neg this.1]
  have restPath : Path (links (shrink (overwrite t' index last'))) last.next rest (-1) := by
    refine after.congr fun i hi => ?_
    have := other i (.inr hi)
    have apart : i ∉ front := fun h => parts.2.2 i h i (by simp [hi]) rfl
    rw [links' i this.2, if_neg this.1, change.links i apart]
  have whole : Path (links (shrink (overwrite t' index last'))) head'
      (front ++ index :: rest) (-1) := by
    refine path_append.mpr ⟨index, frontPath, rfl, last.next, ?_, restPath⟩
    rw [links' index (by omega), if_pos rfl]
  refine linked.relink _ _ change.heads ?_ ?_ at_b' whole ?_
  · intro b ne i
    rw [bucket' i]
    by_cases hole : i = index
    · simp [hole, Ne.symm ne]
    · rw [if_neg hole]
      constructor
      · rintro ⟨_, inBucket⟩
        split at inBucket
        · exact ⟨hole, inBucket⟩
        · cases inBucket
      · rintro ⟨_, inBucket⟩
        rw [if_pos (below ne inBucket)]
        exact ⟨trivial, inBucket⟩
  · intro b ne i hole inBucket
    rw [links' i (below ne inBucket), if_neg hole]
    refine change.links i fun member => ?_
    have := ((members i).mp (by simp [member])).2
    exact ne (Option.some.inj (inBucket.symm.trans this))
  · intro i
    rw [bucket' i]
    have old := members i
    simp only [mem_append, mem_cons, true_and] at old ⊢
    by_cases hole : i = index
    · subst hole
      simp [show i < k by omega]
    · rw [if_neg hole]
      constructor
      · intro member
        have kept : i ∈ front ∨ i ∈ rest := member.imp_right (fun h => h.resolve_left hole)
        rw [if_pos (other i kept).2]
        exact (old.mp (kept.imp_right .inr)).2
      · intro inBucket
        split at inBucket
        · rcases old.mpr ⟨hole, inBucket⟩ with h | rfl | h
          · exact .inl h
          · omega
          · exact .inr (.inr h)
        · cases inBucket

private theorem fillHole_spec {x : E} (linked : Linked d t (· ≠ index)) (some : t.hashtable ≠ [])
    (at_i : t.data[index]? = .some x) :
    ∃ t', t.fillHole d index = .ok t' ∧ Linked d (shrink t') (fun _ => True) ∧
      t'.hashtable.length = t.hashtable.length ∧ t'.capacity = t.capacity ∧
      t'.entries.length = t.entries.length ∧ (x :: (shrink t').data).Perm t.data ∧
      (shrink t').data.take index = t.data.take index := by
  have inside : index < t.entries.length := by
    simpa using (List.getElem?_eq_some_iff.mp at_i).1
  unfold Table.fillHole
  by_cases isLast : index = t.entries.length - 1
  · rw [if_neg (not_not.mpr isLast)]
    refine ⟨t, rfl, linked_drop_last (isLast ▸ linked), rfl, rfl, rfl, ?_⟩
    have size : t.data.length - 1 = index := by simp [isLast]
    have same : t.data.set index x = t.data := by
      rw [← (List.getElem?_eq_some_iff.mp at_i).2, set_getElem_self]
    have dropped : (shrink t).data = (t.data.set index x).dropLast := by
      rw [same]
      simp [shrink, Table.data]
    rw [dropped]
    exact overwrite_dropLast at_i (size ▸ at_i)
  · rw [if_pos isLast]
    obtain ⟨last, at_k⟩ : ∃ last, t.entries[t.entries.length - 1]? = .some last :=
      ⟨_, getElem?_eq_getElem (by omega)⟩
    obtain ⟨t', last', front, done, at_k', filled, kept⟩ :=
      moveLast_spec linked some at_k inside isLast
    rw [entryAt_nat at_k, ok_bind, done, ok_bind, entryAt_nat at_k', ok_bind]
    have length := length_congr kept.data
    refine ⟨overwrite t' index last', rfl, filled, kept.length, kept.capacity, by
      simpa [overwrite] using length, ?_⟩
    have at_last : t.data[t.data.length - 1]? = .some last'.udata := by
      rw [data_length, ← kept.data]
      exact data_get at_k'
    have data : (shrink (overwrite t' index last')).data =
        (t.data.set index last'.udata).dropLast := by
      rw [← kept.data]
      simp [shrink, overwrite, Table.data]
    rw [data]
    exact overwrite_dropLast at_i at_last

theorem cmp_comm {a b : K} (h : d.ops.cmp a b = false) : d.ops.cmp b a = false := by
  rw [← Bool.not_eq_true] at h ⊢
  exact fun equal => h (d.ops.symm _ _ equal)

theorem distinct_perm {l m : List E} (perm : l.Perm m)
    (distinct : m.Pairwise (fun a b => d.ops.cmp (d.key a) (d.key b) = false)) :
    l.Pairwise (fun a b => d.ops.cmp (d.key a) (d.key b) = false) :=
  (perm.pairwise_iff cmp_comm).mpr distinct

theorem doErase_spec (valid : Valid d limit t) (at_i : t.entries[index]? = some e) :
    ∃ t', t.doErase d index (t.doHash d (d.key e.udata)) = .ok (1, t') ∧ Valid d limit t' ∧
      (e.udata :: t'.data).Perm t.data ∧ t'.data.take index = t.data.take index := by
  have inside : index < t.entries.length := (List.getElem?_eq_some_iff.mp at_i).1
  have nonempty : t.hashtable ≠ [] := by
    intro none
    rw [valid.buckets none] at inside
    simp at inside
  obtain ⟨t₁, unlinked, linked₁, data₁, capacity₁, length₁⟩ :=
    unlink_spec valid.linked nonempty at_i
  have nonempty₁ : t₁.hashtable ≠ [] := by
    rw [← length_pos_iff, length₁]
    exact length_pos_iff.mpr nonempty
  have entries₁ := length_congr data₁
  obtain ⟨t₂, filled, linked₂, length₂, capacity₂, entries₂, perm, front⟩ :=
    fillHole_spec (x := e.udata) linked₁ nonempty₁ (by rw [data₁]; exact data_get at_i)
  rw [data₁] at perm front
  refine ⟨{ t₂ with
    entries := t₂.entries.dropLast
    hashtable := if t₂.entries.dropLast.isEmpty then [] else t₂.hashtable }, ?_, ?_, perm, front⟩
  · have range : (index : Int) < t.entries.length := by omega
    have some : ¬ (t.hashtable.isEmpty = true ∨ (index : Int) < 0) := by
      simp [nonempty]
    rw [Table.doErase, check_true range, ok_bind, if_neg some, entryAt_nat at_i, ok_bind,
      Int.toNat_natCast, unlinked, ok_bind, filled, ok_bind]
    rfl
  · have kept := (pairwise_cons.mp (distinct_perm perm valid.distinct)).2
    have room : t₂.entries.dropLast.length ≤ t₂.capacity := by
      have := valid.room
      rw [length_dropLast, entries₂, entries₁, capacity₂, capacity₁]
      omega
    have fits : t₂.capacity ≤ limit := by
      rw [capacity₂, capacity₁]
      exact valid.fits
    by_cases none : t₂.entries.dropLast = []
    · refine ⟨?_, fun _ => none, kept, room, fits⟩
      intro b head at_b
      simp [none] at at_b
    · have bucketsKept : (if t₂.entries.dropLast.isEmpty then [] else t₂.hashtable) =
          t₂.hashtable := by simp [none]
      refine ⟨?_, ?_, kept, room, fits⟩
      · rw [bucketsKept]
        exact linked₂
      · intro empty
        rw [bucketsKept] at empty
        rw [empty, length₁] at length₂
        exact absurd (eq_nil_of_length_eq_zero length₂.symm) nonempty

end ManticoreFrontend.Kernel.HashErase
