/- source: kernel/hashlib.h
   digest: Programs over hash tables return what the same programs over association lists return,
     and keep the chains of every table. -/

import ManticoreFrontend.Kernel.HashErase

namespace ManticoreFrontend.Kernel.HashMaps

open Foundation.Outcome HashTables HashChains HashErase List

variable {K E : Type} (d : Container K E)

abbrev AssocMap (E : Type) := List E

variable (m : AssocMap E)

def assocFind (key : K) : Option E := m.find? (fun x => d.ops.cmp (d.key x) key)

def assocErase (key : K) : AssocMap E :=
  m.filter (fun x => !d.ops.cmp (d.key x) key)

/-- The map with the entry, and the entry that has its key then. -/
def assocInsert (e : E) : AssocMap E × E :=
  match assocFind d m (d.key e) with
  | some x => (m, x)
  | none => (m ++ [e], e)

def assocAssign (key : K) (value : Rewrite d) : AssocMap E :=
  m.map (fun x => if d.ops.cmp (d.key x) key then value.run x else x)

/-- A call on a map. An iterator that points to no entry cannot be erased. -/
def assocCall : Op d → Option (AssocMap E × Result E)
  | .insert _ e =>
    some ((assocInsert d m e).1, .inserted (assocInsert d m e).2 (assocFind d m (d.key e)).isNone)
  | .index _ e => some ((assocInsert d m e).1, .entry (assocInsert d m e).2)
  | .assign _ e value => some (assocAssign d (assocInsert d m e).1 (d.key e) value, .done)
  | .erase _ key => some (assocErase d m key, .number (if (assocFind d m key).isSome then 1 else 0))
  | .eraseFound _ key =>
    if (assocFind d m key).isSome then some (assocErase d m key, .done) else none
  | .count _ key => some (m, .number (if (assocFind d m key).isSome then 1 else 0))
  | .find _ key | .at _ key => some (m, .entry (assocFind d m key))
  | .size _ => some (m, .number m.length)
  | .sort _ _ => some (m, .done)
  | .clear _ => some ([], .done)
  | _ => none

def assocCallOn (maps : List (AssocMap E)) (op : Op d) :
    Option (List (AssocMap E) × Result E) := do
  let m ← maps[op.self]?
  let r ← assocCall d m op
  return (maps.set op.self r.1, r.2)

def assocStep (maps : List (AssocMap E)) : Op d → Option (List (AssocMap E) × Result E)
  | .create => some (maps ++ [[]], .done)
  | .copy source => do
    let m ← maps[source]?
    return (maps ++ [m], .done)
  | .copyAssign self source => do
    let _ ← maps[self]?
    let m ← maps[source]?
    return (maps.set self m, .done)
  | .swap self other => do
    let a ← maps[self]?
    let b ← maps[other]?
    return ((maps.set self b).set other a, .done)
  | op => assocCallOn d maps op

def assocRun (maps : List (AssocMap E)) : List (Op d) →
    Option (List (AssocMap E) × List (Result E))
  | [] => some (maps, [])
  | op :: ops => do
    let r ← assocStep d maps op
    let rest ← assocRun r.1 ops
    return (rest.1, r.2 :: rest.2)

variable {d : Container K E} {limit : Nat} {t : Table E} {m : AssocMap E}

/-- A valid table whose entries are those of the map in some order. -/
structure Refines (d : Container K E) (limit : Nat) (t : Table E) (m : AssocMap E) : Prop where
  valid : Valid d limit t
  perm : t.data.Perm m

/-- A call ends too large, or it is refused where the map refuses it. -/
def Allowed {α : Type} (limit : Nat) (spec : Option α) (failure : Failure) : Prop :=
  TooLarge limit failure ∨ (failure = .misuse ∧ spec = none)

/-- The same answer, and states that stay related; or a failure that is allowed. -/
def Agrees {α β γ : Type} (limit : Nat) (related : α → β → Prop) (x : Except Failure (α × γ))
    (spec : Option (β × γ)) : Prop :=
  Returns (Allowed limit spec) x (fun r => ∃ b, spec = some (b, r.2) ∧ related r.1 b)

theorem Agrees.bind {α β γ α' β' γ' : Type} {related : α → β → Prop} {related' : α' → β' → Prop}
    {x : Except Failure (α × γ)} {spec : Option (β × γ)} {f : α × γ → Except Failure (α' × γ')}
    {g : β × γ → Option (β' × γ')} (first : Agrees limit related x spec)
    (next : ∀ a b r, related a b → spec = some (b, r) → Agrees limit related' (f (a, r)) (g (b, r))) :
    Agrees limit related' (x >>= f) (spec >>= g) := by
  cases x with
  | ok p =>
    obtain ⟨b, rfl, pair⟩ := first
    exact next p.1 b p.2 pair rfl
  | error e =>
    rcases first with large | ⟨misuse, rfl⟩
    · exact .inl large
    · exact .inr ⟨misuse, rfl⟩

private theorem returns_allowed {α β : Type} {x : Except Failure α} {P : α → Prop} {spec : Option β}
    (h : Returns (TooLarge limit) x P) : Returns (Allowed limit spec) x P := by
  cases x with
  | ok a => exact h
  | error e => exact .inl h

theorem assocFind_of_mem (distinct : m.Pairwise (fun a b => d.ops.cmp (d.key a) (d.key b) = false))
    {x : E} {key : K} (member : x ∈ m) (equal : d.ops.cmp (d.key x) key = true) :
    assocFind d m key = some x := by
  have symm : Std.Symm (fun a b : E => d.ops.cmp (d.key a) (d.key b) = false) :=
    ⟨fun _ _ => cmp_comm⟩
  cases found : assocFind d m key with
  | none =>
    have := find?_eq_none.mp found x member
    exact absurd equal this
  | some y =>
    have equal' := find?_some found
    by_contra apart
    have ne : x ≠ y := fun eq => apart (by rw [eq])
    have different := distinct.forall member (mem_of_find?_eq_some found) ne
    rw [d.ops.trans _ _ _ equal (d.ops.symm _ _ equal')] at different
    cases different

private theorem assocFind_none {key : K} (absent : ∀ x ∈ m, d.ops.cmp (d.key x) key = false) :
    assocFind d m key = none := by
  refine find?_eq_none.mpr fun x hx => ?_
  rw [absent x hx]
  exact Bool.false_ne_true

theorem Refines.distinct (refines : Refines d limit t m) :
    m.Pairwise (fun a b => d.ops.cmp (d.key a) (d.key b) = false) :=
  distinct_perm refines.perm.symm refines.valid.distinct

theorem Refines.lookup (refines : Refines d limit t m) (key : K) :
    Returns (TooLarge limit) (t.lookup d key) (fun r => r.hash = r.table.doHash d key ∧
      Refines d limit r.table m ∧ r.table.data = t.data ∧
      ((r.index = -1 ∧ assocFind d m key = none ∧
          ∀ x ∈ r.table.data, d.ops.cmp (d.key x) key = false) ∨
        ∃ (i : Nat) (e : Entry E), r.index = i ∧ r.table.entries[i]? = some e ∧
          d.ops.cmp (d.key e.udata) key = true ∧ assocFind d m key = some e.udata)) := by
  refine (returns_lookup refines.valid key).mono fun r located => ?_
  have perm : r.table.data.Perm m := located.data ▸ refines.perm
  refine ⟨located.hash, ⟨located.valid, perm⟩, located.data, ?_⟩
  rcases located.found with ⟨none, absent⟩ | ⟨i, e, index, at_i, equal⟩
  · refine .inl ⟨none, assocFind_none fun x hx => absent x ?_, located.data.symm ▸ absent⟩
    exact refines.perm.mem_iff.mpr hx
  · have member : e.udata ∈ m := perm.mem_iff.mp (mem_of_getElem? (data_get at_i))
    exact .inr ⟨i, e, index, at_i, equal, assocFind_of_mem refines.distinct member equal⟩

theorem Refines.insert (refines : Refines d limit t m) (e : E)
    (enough : d.alloc.ratio * (assocInsert d m e).1.length ≤ limit) :
    Returns (TooLarge limit) (t.insert d e) (fun r => Refines d limit r.2.2 (assocInsert d m e).1 ∧
      r.2.1 = (assocFind d m (d.key e)).isNone ∧ t.data <+: r.2.2.data ∧
      ∃ (i : Nat) (x : Entry E), r.1 = i ∧ r.2.2.entries[i]? = some x ∧
        d.ops.cmp (d.key x.udata) (d.key e) = true ∧ x.udata = (assocInsert d m e).2) := by
  refine (refines.lookup (d.key e)).bind ?_
  rintro r ⟨hash, refines', old, ⟨none, absent, all⟩ | ⟨i, x, index, at_i, equal, found⟩⟩
  · have negative : ¬ (0 ≤ r.index) := by omega
    have size : r.table.entries.length = m.length := by rw [← data_length, refines'.perm.length_eq]
    rw [if_neg negative, hash]
    refine (returns_doInsert refines'.valid all
      (by simpa [assocInsert, absent, size] using enough)).bind ?_
    rintro s ⟨last, valid, data⟩
    have added : s.2.data[s.1]? = some e := by
      rw [data, last, ← data_length, getElem?_concat_length]
    obtain ⟨x, at_s, rfl⟩ := entry_of_data added
    have grown : assocInsert d m x.udata = (m ++ [x.udata], x.udata) := by
      simp [assocInsert, absent]
    rw [grown, absent]
    refine Returns.ok ⟨⟨valid, ?_⟩, rfl, ?_, s.1, x, rfl, at_s, d.ops.refl _, rfl⟩
    · rw [data]
      exact refines'.perm.append_right _
    · rw [data, old]
      exact prefix_append _ _
  · have natural : 0 ≤ r.index := by omega
    have kept : assocInsert d m e = (m, x.udata) := by simp [assocInsert, found]
    rw [if_pos natural, kept, found]
    exact Returns.ok ⟨refines', rfl, old ▸ prefix_rfl, i, x, index, at_i, equal, rfl⟩

private theorem assocInsert_length_le (e : E) : (assocInsert d m e).1.length ≤ m.length + 1 := by
  unfold assocInsert
  split <;> simp

variable {key : K} {i : Nat} {x : Entry E}

theorem perm_assocErase {l : List E} {x : E} (perm : (x :: l).Perm m)
    (distinct : m.Pairwise (fun a b => d.ops.cmp (d.key a) (d.key b) = false))
    (equal : d.ops.cmp (d.key x) key = true) : l.Perm (assocErase d m key) := by
  have others := (pairwise_cons.mp (distinct_perm perm distinct)).1
  have filtered := perm.filter (fun y => !d.ops.cmp (d.key y) key)
  have kept : l.filter (fun y => !d.ops.cmp (d.key y) key) = l := by
    refine filter_eq_self.mpr fun y hy => ?_
    cases different : d.ops.cmp (d.key y) key with
    | false => rfl
    | true =>
      have same := d.ops.trans _ _ _ equal (d.ops.symm _ _ different)
      rw [others y hy] at same
      cases same
  rwa [filter_cons_of_neg (by simp [equal]), kept] at filtered

private theorem assocErase_absent (absent : assocFind d m key = none) : assocErase d m key = m := by
  refine filter_eq_self.mpr fun x hx => ?_
  simpa using find?_eq_none.mp absent x hx

theorem Refines.doErase {e : Entry E} (refines : Refines d limit t m) (at_i : t.entries[i]? = some e)
    (equal : d.ops.cmp (d.key e.udata) key = true) :
    ∃ t', t.doErase d i (t.doHash d (d.key e.udata)) = .ok (1, t') ∧
      Refines d limit t' (assocErase d m key) := by
  obtain ⟨t', done, valid, perm, -⟩ := doErase_spec refines.valid at_i
  exact ⟨t', done, valid, perm_assocErase (perm.trans refines.perm) refines.distinct equal⟩

private theorem Refines.erase (refines : Refines d limit t m) (key : K) :
    Returns (TooLarge limit) (t.erase d key) (fun r => Refines d limit r.2 (assocErase d m key) ∧
      r.1 = if (assocFind d m key).isSome then 1 else 0) := by
  refine (refines.lookup key).bind ?_
  rintro r ⟨hash, refines', -, ⟨none, absent, _⟩ | ⟨i, e, index, at_i, equal, found⟩⟩
  · have skipped : r.table.doErase d r.index r.hash = .ok (0, r.table) := by
      have range : r.index < r.table.entries.length := by omega
      have negative : r.index < 0 := by omega
      rw [Table.doErase, check_true range, ok_bind, if_pos (.inr negative)]
      rfl
    rw [skipped, absent, assocErase_absent absent]
    exact Returns.ok ⟨refines', rfl⟩
  · obtain ⟨t', done, erased⟩ := refines'.doErase at_i equal
    rw [index, hash, ← doHash_eq equal, done, found]
    exact Returns.ok ⟨erased, rfl⟩

theorem same_position {j : Nat} {x y : E} (valid : Valid d limit t) (at_i : t.data[i]? = some x)
    (at_j : t.data[j]? = some y) (equal : d.ops.cmp (d.key x) key = true)
    (equal' : d.ops.cmp (d.key y) key = true) : i = j := by
  have same := d.ops.trans _ _ _ equal (d.ops.symm _ _ equal')
  have pairs := List.pairwise_iff_getElem.mp valid.distinct
  obtain ⟨hi, rfl⟩ := List.getElem?_eq_some_iff.mp at_i
  obtain ⟨hj, rfl⟩ := List.getElem?_eq_some_iff.mp at_j
  rcases lt_trichotomy i j with less | eq | more
  · rw [pairs i j hi hj less] at same
    cases same
  · exact eq
  · rw [cmp_comm (pairs j i hj hi more)] at same
    cases same

def rewriteAt (t : Table E) (i : Nat) (x : Entry E) (value : Rewrite d) : Table E :=
  { t with entries := t.entries.set i { x with udata := value.run x.udata } }

private theorem links_rewriteAt {value : Rewrite d} (at_i : t.entries[i]? = some x) (j : Nat) :
    links (rewriteAt t i x value) j = links t j := by
  have inside := (List.getElem?_eq_some_iff.mp at_i).1
  simp only [links, rewriteAt, getElem?_set, inside, if_true]
  split
  · rename_i same
    rw [← same, at_i]
    rfl
  · rfl

theorem data_rewriteAt (value : Rewrite d) (valid : Valid d limit t) (at_i : t.entries[i]? = some x)
    (equal : d.ops.cmp (d.key x.udata) key = true) :
    (rewriteAt t i x value).data = assocAssign d t.data key value := by
  have inside := (List.getElem?_eq_some_iff.mp at_i).1
  have at_data := data_get at_i
  apply ext_getElem?
  intro j
  rw [assocAssign, getElem?_map, Table.data, rewriteAt, map_set, getElem?_set]
  split
  · rename_i same
    rw [← same, at_data, if_pos (by simpa using inside), Option.map_some, if_pos equal]
  · rename_i apart
    show t.data[j]? = _
    cases at_j : t.data[j]? with
    | none => rfl
    | some y =>
      have different : d.ops.cmp (d.key y) key = false := by
        by_contra equal'
        rw [Bool.not_eq_false] at equal'
        exact apart (same_position valid at_data at_j equal equal')
      simp [different]

private theorem Refines.assign (refines : Refines d limit t m) (value : Rewrite d)
    (at_i : t.entries[i]? = some x) (equal : d.ops.cmp (d.key x.udata) key = true) :
    Refines d limit (rewriteAt t i x value) (assocAssign d m key value) := by
  have data := data_rewriteAt value refines.valid at_i equal
  have keys : (rewriteAt t i x value).data.map d.key = t.data.map d.key := by
    rw [data, assocAssign, map_map]
    refine map_congr_left fun y _ => ?_
    simp only [Function.comp]
    split
    · exact value.key y
    · rfl
  have buckets : ∀ j, bucket d (rewriteAt t i x value) j = bucket d t j := by
    intro j
    have byKey : ∀ s : Table E, bucket d s j = ((s.data.map d.key)[j]?).map (s.doHash d) := by
      simp [bucket, Function.comp_def]
    rw [byKey, byKey, keys]
    rfl
  refine ⟨⟨?_, ?_, ?_, ?_, refines.valid.fits⟩, ?_⟩
  · intro b head at_b
    obtain ⟨nodes, path, nodup, members⟩ := refines.valid.linked b head at_b
    refine ⟨nodes, path.congr fun j _ => links_rewriteAt at_i j, nodup, fun j => ?_⟩
    rw [buckets]
    exact members j
  · intro none
    simp [rewriteAt, refines.valid.buckets none]
  · have distinct : (t.data.map d.key).Pairwise (fun a b => d.ops.cmp a b = false) :=
      pairwise_map.mpr refines.valid.distinct
    rw [← keys] at distinct
    exact pairwise_map.mp distinct
  · simpa [rewriteAt] using refines.valid.room
  · rw [data]
    exact refines.perm.map _

private theorem Refines.rehash {s : Table E} (refines : Refines d limit t m)
    (entries : s.entries.Perm t.entries) (room : s.entries.length ≤ s.capacity)
    (fits : s.capacity ≤ limit) :
    Returns (TooLarge limit) (s.doRehash d) (fun t' => Refines d limit t' m) := by
  have data : s.data.Perm t.data := entries.map _
  have nexts : ∀ e ∈ s.entries, -1 ≤ e.next ∧ e.next < s.entries.length := by
    intro e he
    rw [entries.length_eq]
    exact refines.valid.next_range e (entries.mem_iff.mp he)
  refine (Valid.rehash (distinct_perm data refines.valid.distinct) room fits nexts).mono ?_
  rintro t' ⟨valid, same⟩
  exact ⟨valid, same ▸ data.trans refines.perm⟩

private theorem Refines.sort (refines : Refines d limit t m) (sorter : Sorter E) :
    Returns (TooLarge limit) (t.sort d sorter) (fun t' => Refines d limit t' m) := by
  refine refines.rehash (sorter.perm _) ?_ refines.valid.fits
  rw [(sorter.perm t.entries).length_eq]
  exact refines.valid.room

theorem Refines.copyFrom {s : Table E} (refines : Refines d limit t m) (fits : s.capacity ≤ limit)
    (enough : d.alloc.ratio * m.length ≤ limit) :
    Returns (TooLarge limit) (s.copyFrom d t) (fun t' => Refines d limit t' m) := by
  refine refines.rehash (List.Perm.refl _) (d.alloc.copied_ge _ _) ?_
  refine (d.alloc.copied_le _ _).trans (max_le fits ?_)
  rwa [← data_length, refines.perm.length_eq]

theorem refines_cleared {capacity : Nat} (fits : capacity ≤ limit) :
    Refines d limit { hashtable := [], entries := [], capacity := capacity } [] := by
  refine ⟨⟨?_, fun _ => rfl, List.Pairwise.nil, Nat.zero_le _, fits⟩, List.Perm.refl _⟩
  intro b head at_b
  simp at at_b

theorem Refines.find (refines : Refines d limit t m) (key : K) {spec : Option (AssocMap E × Result E)}
    (means : spec = some (m, .entry (assocFind d m key))) :
    Agrees limit (Refines d limit) (t.call d (.find 0 key)) spec := by
  refine (returns_allowed (refines.lookup key)).bind ?_
  rintro r ⟨_, after, _, ⟨none, absent, _⟩ | ⟨i, e, index, at_i, _, found⟩⟩
  · have negative : r.index < 0 := by omega
    rw [if_pos negative]
    exact Returns.ok ⟨m, by rw [means, absent], after⟩
  · have natural : ¬ (r.index < 0) := by omega
    rw [if_neg natural, index, entryAt_nat at_i, ok_bind]
    exact Returns.ok ⟨m, by rw [means, found], after⟩

private theorem Refines.call (refines : Refines d limit t m)
    (enough : d.alloc.ratio * (m.length + 1) ≤ limit) (op : Op d) :
    Agrees limit (Refines d limit) (t.call d op) (assocCall d m op) := by
  have grown : ∀ e, d.alloc.ratio * (assocInsert d m e).1.length ≤ limit := fun e =>
    (Nat.mul_le_mul_left _ (assocInsert_length_le e)).trans enough
  cases op with
  | insert self e =>
    refine (returns_allowed (refines.insert e (grown e))).bind ?_
    rintro r ⟨after, new, _, i, x, index, at_i, _, same⟩
    rw [index, entryAt_nat at_i, ok_bind]
    refine Returns.ok ⟨_, ?_, after⟩
    rw [assocCall, ← same, ← new]
  | index self e =>
    refine (returns_allowed (refines.insert e (grown e))).bind ?_
    rintro r ⟨after, _, _, i, x, index, at_i, _, same⟩
    rw [index, entryAt_nat at_i, ok_bind]
    refine Returns.ok ⟨_, ?_, after⟩
    rw [assocCall, ← same]
  | assign self e value =>
    refine (returns_allowed (refines.insert e (grown e))).bind ?_
    rintro r ⟨after, _, _, i, x, index, at_i, equal, _⟩
    rw [index, entryAt_nat at_i, ok_bind]
    exact Returns.ok ⟨_, rfl, after.assign value at_i equal⟩
  | erase self key =>
    refine (returns_allowed (refines.erase key)).bind ?_
    rintro r ⟨after, number⟩
    refine Returns.ok ⟨_, ?_, after⟩
    rw [assocCall, ← number]
  | eraseFound self key =>
    refine (returns_allowed (refines.lookup key)).bind ?_
    rintro r ⟨_, after, _, ⟨none, absent, _⟩ | ⟨i, e, index, at_i, equal, found⟩⟩
    · have negative : r.index < 0 := by omega
      rw [if_pos negative]
      exact .inr ⟨rfl, by simp [assocCall, absent]⟩
    · have natural : ¬ (r.index < 0) := by omega
      obtain ⟨t', done, erased⟩ := after.doErase at_i equal
      rw [if_neg natural, Table.eraseIterator, index, entryAt_nat at_i, ok_bind, done, ok_bind]
      refine Returns.ok ⟨assocErase d m key, ?_, erased⟩
      simp [assocCall, found]
  | count self key =>
    refine (returns_allowed (refines.lookup key)).bind ?_
    rintro r ⟨_, after, _, ⟨none, absent, _⟩ | ⟨i, e, index, _, _, found⟩⟩
    · refine Returns.ok ⟨m, ?_, after⟩
      simp [assocCall, absent, none]
    · refine Returns.ok ⟨m, ?_, after⟩
      have natural : ¬ (r.index < 0) := by omega
      simp [assocCall, found, natural]
  | find self key => exact refines.find key rfl
  | «at» self key => exact refines.find key rfl
  | size self =>
    refine Returns.ok ⟨m, ?_, refines⟩
    rw [assocCall, ← data_length, refines.perm.length_eq]
  | sort self sorter =>
    refine (returns_allowed (refines.sort sorter)).bind fun t' after => ?_
    exact Returns.ok ⟨m, rfl, after⟩
  | clear self => exact Returns.ok ⟨[], rfl, refines_cleared refines.valid.fits⟩
  | create => exact .inr ⟨rfl, rfl⟩
  | copy source => exact .inr ⟨rfl, rfl⟩
  | copyAssign self source => exact .inr ⟨rfl, rfl⟩
  | swap self other => exact .inr ⟨rfl, rfl⟩

private theorem assocCall_length_le {op : Op d} {m' : AssocMap E} {r : Result E}
    (call : assocCall d m op = some (m', r)) : m'.length ≤ m.length + 1 := by
  have inserted := assocInsert_length_le (d := d) (m := m)
  have erased : ∀ key, (assocErase d m key).length ≤ m.length := fun key => length_filter_le _ _
  cases op <;> simp only [assocCall, Option.some.injEq, Prod.mk.injEq, reduceCtorEq] at call
  case insert e | index e => exact call.1 ▸ inserted e
  case assign e value =>
    rw [← call.1, assocAssign, length_map]
    exact inserted e
  case erase key => exact call.1 ▸ (erased key).trans (Nat.le_succ _)
  case eraseFound key =>
    split at call
    · obtain ⟨rfl, -⟩ := Prod.mk.inj (Option.some.inj call)
      exact (erased key).trans (Nat.le_succ _)
    · cases call
  all_goals simp [← call.1]

structure StoreRefines (d : Container K E) (limit : Nat) (store : Store E)
    (maps : List (AssocMap E)) : Prop where
  length : store.length = maps.length
  each : ∀ (i : Nat) (t : Table E) (m : AssocMap E), store[i]? = some t → maps[i]? = some m →
    Refines d limit t m

variable {store : Store E} {maps : List (AssocMap E)}

theorem assocStep_length_le {op : Op d} {maps' : List (AssocMap E)} {r : Result E} {size : Nat}
    (small : ∀ m ∈ maps, m.length ≤ size) (next : assocStep d maps op = some (maps', r)) :
    ∀ m ∈ maps', m.length ≤ size + 1 := by
  have kept : ∀ m ∈ maps, m.length ≤ size + 1 := fun m hm => (small m hm).trans (Nat.le_succ _)
  have set {maps : List (AssocMap E)} (i : Nat) (one : AssocMap E)
      (kept : ∀ m ∈ maps, m.length ≤ size + 1) (fits : one.length ≤ size + 1) :
      ∀ m ∈ maps.set i one, m.length ≤ size + 1 := by
    intro m hm
    rcases mem_or_eq_of_mem_set hm with old | rfl
    · exact kept m old
    · exact fits
  have called (op : Op d) (next : assocCallOn d maps op = some (maps', r)) :
      ∀ m ∈ maps', m.length ≤ size + 1 := by
    simp only [assocCallOn, Option.bind_eq_bind, Option.bind_eq_some_iff, Option.pure_def,
      Option.some.injEq, Prod.mk.injEq] at next
    obtain ⟨m, at_i, ⟨m', r'⟩, call, rfl, -⟩ := next
    refine set _ _ kept ((assocCall_length_le call).trans ?_)
    exact Nat.succ_le_succ (small m (mem_of_getElem? at_i))
  cases op
  case create =>
    obtain ⟨rfl, -⟩ := Prod.mk.inj (Option.some.inj next)
    exact forall_mem_append.mpr ⟨kept, by simp⟩
  case copy source =>
    simp only [assocStep, Option.bind_eq_bind, Option.bind_eq_some_iff, Option.pure_def,
      Option.some.injEq, Prod.mk.injEq] at next
    obtain ⟨m, at_i, rfl, -⟩ := next
    exact forall_mem_append.mpr ⟨kept, by simpa using kept m (mem_of_getElem? at_i)⟩
  case copyAssign self source =>
    simp only [assocStep, Option.bind_eq_bind, Option.bind_eq_some_iff, Option.pure_def,
      Option.some.injEq, Prod.mk.injEq] at next
    obtain ⟨-, -, m, at_i, rfl, -⟩ := next
    exact set _ _ kept (kept m (mem_of_getElem? at_i))
  case swap self other =>
    simp only [assocStep, Option.bind_eq_bind, Option.bind_eq_some_iff, Option.pure_def,
      Option.some.injEq, Prod.mk.injEq] at next
    obtain ⟨a, at_a, b, at_b, rfl, -⟩ := next
    exact set _ _ (set _ _ kept (kept b (mem_of_getElem? at_b))) (kept a (mem_of_getElem? at_a))
  all_goals exact called _ next

section

variable (refines : StoreRefines d limit store maps)

include refines

private theorem StoreRefines.get (i : Nat) :
    (∃ t m, store[i]? = some t ∧ maps[i]? = some m ∧ Refines d limit t m) ∨
      (store[i]? = none ∧ maps[i]? = none) := by
  have length := refines.length
  by_cases inside : i < store.length
  · have inside' : i < maps.length := by omega
    exact .inl ⟨_, _, getElem?_eq_getElem inside, getElem?_eq_getElem inside',
      refines.each i _ _ (getElem?_eq_getElem inside) (getElem?_eq_getElem inside')⟩
  · exact .inr ⟨getElem?_eq_none (by omega), getElem?_eq_none (by omega)⟩

private theorem StoreRefines.set (i : Nat) (one : Refines d limit t m) :
    StoreRefines d limit (store.set i t) (maps.set i m) := by
  refine ⟨by simpa using refines.length, ?_⟩
  intro j t' m' at_j at_j'
  by_cases same : i = j
  · obtain rfl : t = t' := by simp_all [getElem?_set]
    obtain rfl : m = m' := by simp_all [getElem?_set]
    exact one
  · rw [getElem?_set_ne same] at at_j at_j'
    exact refines.each j t' m' at_j at_j'

theorem StoreRefines.push (one : Refines d limit t m) :
    StoreRefines d limit (store ++ [t]) (maps ++ [m]) := by
  have length := refines.length
  refine ⟨by simp [length], ?_⟩
  intro j t' m' at_j at_j'
  rcases Nat.lt_or_ge j store.length with old | new
  · rw [getElem?_append_left old] at at_j
    rw [getElem?_append_left (by omega)] at at_j'
    exact refines.each j t' m' at_j at_j'
  · rw [getElem?_append_right new] at at_j
    rw [getElem?_append_right (by omega)] at at_j'
    obtain rfl := mem_singleton.mp (mem_of_getElem? at_j)
    obtain rfl := mem_singleton.mp (mem_of_getElem? at_j')
    exact one

private theorem StoreRefines.fetch {α β γ : Type} {related : α → β → Prop}
    {f : Table E → Except Failure (α × γ)} {g : AssocMap E → Option (β × γ)} (i : Nat)
    (next : ∀ t m, Refines d limit t m → m ∈ maps → Agrees limit related (f t) (g m)) :
    Agrees limit related (orFail store[i]? .misuse >>= f) (maps[i]? >>= g) := by
  rcases refines.get i with ⟨t, m, at_i, at_i', one⟩ | ⟨none, none'⟩
  · rw [orFail_some at_i, at_i']
    exact next t m one (mem_of_getElem? at_i')
  · rw [none, none']
    exact .inr ⟨rfl, rfl⟩

private theorem StoreRefines.step {size : Nat} (small : ∀ m ∈ maps, m.length ≤ size)
    (enough : d.alloc.ratio * (size + 1) ≤ limit) (op : Op d) :
    Agrees limit (StoreRefines d limit) (step d store op) (assocStep d maps op) := by
  have room (m : AssocMap E) (member : m ∈ maps) : d.alloc.ratio * (m.length + 1) ≤ limit :=
    (Nat.mul_le_mul_left _ (Nat.succ_le_succ (small m member))).trans enough
  have copied (m : AssocMap E) (member : m ∈ maps) : d.alloc.ratio * m.length ≤ limit :=
    (Nat.mul_le_mul_left _ (Nat.le_succ _)).trans (room m member)
  have called : ∀ op : Op d, Agrees limit (StoreRefines d limit) (callOn d store op)
      (assocCallOn d maps op) := by
    intro op
    refine refines.fetch op.self fun t m one member => ?_
    refine (one.call (room m member) op).bind fun t' m' r after _ => ?_
    exact Returns.ok ⟨_, rfl, refines.set _ after⟩
  cases op with
  | create => exact Returns.ok ⟨_, rfl, refines.push (refines_cleared (Nat.zero_le _))⟩
  | copy source =>
    refine refines.fetch source fun t m one member => ?_
    refine (returns_allowed (one.copyFrom (Nat.zero_le _) (copied m member))).bind fun t' after => ?_
    exact Returns.ok ⟨_, rfl, refines.push after⟩
  | copyAssign self source =>
    refine refines.fetch self fun s _ old _ => ?_
    refine refines.fetch source fun t m one member => ?_
    refine (returns_allowed (one.copyFrom old.valid.fits (copied m member))).bind fun t' after => ?_
    exact Returns.ok ⟨_, rfl, refines.set _ after⟩
  | swap self other =>
    refine refines.fetch self fun s l first _ => ?_
    refine refines.fetch other fun t m second _ => ?_
    exact Returns.ok ⟨_, rfl, (refines.set _ second).set _ first⟩
  | _ => exact called _

theorem StoreRefines.run {size : Nat} (small : ∀ m ∈ maps, m.length ≤ size) (ops : List (Op d))
    (enough : d.alloc.ratio * (size + ops.length) ≤ limit) :
    Agrees limit (StoreRefines d limit) (run d store ops) (assocRun d maps ops) := by
  induction ops generalizing store maps size with
  | nil => exact Returns.ok ⟨maps, rfl, refines⟩
  | cons op ops ih =>
    have first : d.alloc.ratio * (size + 1) ≤ limit :=
      (Nat.mul_le_mul_left _ (by simp)).trans enough
    have rest : d.alloc.ratio * (size + 1 + ops.length) ≤ limit := by
      rwa [length_cons, Nat.add_comm ops.length, ← Nat.add_assoc] at enough
    refine (refines.step small first op).bind fun store' maps' r after spec => ?_
    refine (ih after (assocStep_length_le small spec) rest).bind fun store'' maps'' rs final _ => ?_
    exact Returns.ok ⟨maps'', rfl, final⟩

end

/-- A program over hash tables gives the answers of the same program over association lists and ends
with valid tables that hold their entries; or both programs are refused, for a missing object or
entry; or a table would exceed the largest size, which no program does that makes few calls. No
assertion fails, no access is out of bounds and every loop ends. -/
theorem hash_tables_refine_maps (d : Container K E) (ops : List (Op d)) :
    (∃ store maps results, run d [] ops = .ok (store, results) ∧
        assocRun d [] ops = some (maps, results) ∧
        StoreRefines d (d.alloc.ratio * ops.length) store maps) ∨
      (∃ n, run d [] ops = .error (.length n) ∧ maxSize < n ∧
        n ≤ d.alloc.ratio * ops.length * hashtableSizeFactor) ∨
      (run d [] ops = .error .misuse ∧ assocRun d [] ops = none) := by
  have start : StoreRefines d (d.alloc.ratio * ops.length) ([] : Store E) [] := ⟨rfl, by simp⟩
  have none : ∀ m ∈ ([] : List (List E)), m.length ≤ 0 := by simp
  have agrees := start.run none ops (by simp)
  cases result : run d [] ops with
  | ok r =>
    rw [result] at agrees
    obtain ⟨maps, spec, refines⟩ := agrees
    exact .inl ⟨r.1, maps, r.2, rfl, spec, refines⟩
  | error e =>
    rw [result] at agrees
    rcases agrees with ⟨n, rfl, large⟩ | ⟨rfl, spec⟩
    · exact .inr (.inl ⟨n, rfl, large⟩)
    · exact .inr (.inr ⟨rfl, spec⟩)

def natOps : HashOps Nat :=
  ⟨.ofNat, (· == ·), by simp, by simp +contextual, by simp +contextual, by simp +contextual⟩

def natDict : Container Nat (Nat × Nat) := dict natOps Nat doubling

/-- The keys 3 and 26 share a bucket, and 3 is erased behind 26. -/
def dictProgram : List (Op natDict) :=
  [.create, .insert 0 (3, 30), .insert 0 (26, 7), .insert 0 (3, 99), .erase 0 3, .find 0 26,
    .count 0 3, .assign 0 (4, 0) ⟨fun e => (e.1, 5), fun _ => rfl⟩, .copy 0, .at 1 4, .size 1]

def dictAnswers : List (Result (Nat × Nat)) :=
  [.done, .inserted (3, 30) true, .inserted (26, 7) true, .inserted (3, 30) false, .number 1,
    .entry (some (26, 7)), .number 0, .done, .done, .entry (some (4, 5)), .number 2]

theorem hash_tables_refine_maps_dict : ∃ store maps,
    run natDict [] dictProgram = .ok (store, dictAnswers) ∧
      assocRun natDict [] dictProgram = some (maps, dictAnswers) ∧
      StoreRefines natDict 22 store maps := by
  obtain ⟨store, ran⟩ : ∃ store, run natDict [] dictProgram = .ok (store, dictAnswers) := ⟨_, rfl⟩
  rcases hash_tables_refine_maps natDict dictProgram with
    ⟨_, maps, _, again, spec, refines⟩ | ⟨n, failed, -⟩ | ⟨failed, -⟩
  · rw [ran] at again
    obtain ⟨rfl, rfl⟩ := Prod.mk.inj (Except.ok.inj again)
    exact ⟨store, maps, ran, spec, refines⟩
  · cases ran.symm.trans failed
  · cases ran.symm.trans failed

end ManticoreFrontend.Kernel.HashMaps
