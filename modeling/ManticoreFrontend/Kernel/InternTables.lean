/- source: kernel/rtlil.h
   digest: Each access to the global tables keeps them consistent with the references held. -/

import Mathlib.Data.List.Nodup
import Mathlib.Data.Option.Basic
import ManticoreFrontend.Kernel.IdStrings

namespace ManticoreFrontend.Kernel.InternTables

open IdStrings List Option

variable {t t' : Tables} {held : Nat → Nat} {i : Nat} {p : CString}

/-- The tables agree with each other and with the number of references held on each index. Index 0,
the empty string, is not counted. -/
structure Consistent (t : Tables) (held : Nat → Nat) : Prop where
  guardOk : t.guardOk = true
  sizes : t.globalRefcountStorage.length = t.globalIdStorage.length
  counts : ∀ i, 0 < i → i < t.globalIdStorage.length →
    t.globalRefcountStorage[i]? = some (held i : Int)
  bounded : ∀ i, 0 < i → 0 < held i → i < t.globalIdStorage.length
  stored : ∀ i, 0 < i → i < t.globalIdStorage.length →
    (t.globalIdStorage[i]? = some none ↔ held i = 0)
  nonempty : ∀ i, 0 < i → t.globalIdStorage[i]? ≠ some (some [])
  index : ∀ p, p ≠ [] → ∀ i, t.globalIdIndex p = some i ↔ 0 < i ∧ t.globalIdStorage[i]? = some (some p)
  nodup : t.globalFreeIdxList.Nodup
  free : ∀ i, i ∈ t.globalFreeIdxList ↔ 0 < i ∧ i < t.globalIdStorage.length ∧ held i = 0

theorem consistent_initial : Consistent Tables.initial (fun _ => 0) := by
  constructor <;> simp [Tables.initial]

/-- Index 0 may be held any number of times. -/
theorem Consistent.congr {held' : Nat → Nat} (c : Consistent t held)
    (same : ∀ i, 0 < i → held' i = held i) : Consistent t held' where
  guardOk := c.guardOk
  sizes := c.sizes
  counts := fun i pos inside => by rw [same i pos]; exact c.counts i pos inside
  bounded := fun i pos used => c.bounded i pos (by rw [← same i pos]; exact used)
  stored := fun i pos inside => by rw [same i pos]; exact c.stored i pos inside
  nonempty := c.nonempty
  index := c.index
  nodup := c.nodup
  free := fun i => by
    rw [c.free i]
    refine and_congr_right fun pos => ?_
    rw [same i pos]

theorem Consistent.count (c : Consistent t held) (pos : 0 < i) (used : 0 < held i) :
    t.globalRefcountStorage[i]? = some (held i : Int) :=
  c.counts i pos (c.bounded i pos used)

theorem Consistent.held_pos (c : Consistent t held) (pos : 0 < i)
    (stored : t.globalIdStorage[i]? = some (some p)) : 0 < held i := by
  have inside : i < t.globalIdStorage.length := (List.getElem?_eq_some_iff.mp stored).1
  have unused := c.stored i pos inside
  rw [stored] at unused
  by_contra zero
  cases unused.mpr (by omega)

theorem Consistent.exists_name (c : Consistent t held) (pos : 0 < i) (used : 0 < held i) :
    ∃ p, p ≠ [] ∧ t.globalIdStorage[i]? = some (some p) ∧ t.globalIdIndex p = some i := by
  have inside := c.bounded i pos used
  have full : t.globalIdStorage[i]? ≠ some none := by
    rw [Ne, c.stored i pos inside]
    omega
  obtain ⟨o, ho⟩ : ∃ o, t.globalIdStorage[i]? = some o := ⟨_, getElem?_eq_getElem inside⟩
  cases o with
  | none => exact absurd ho full
  | some p =>
    have ne : p ≠ [] := by
      rintro rfl
      exact c.nonempty i pos ho
    exact ⟨p, ne, ho, (c.index p ne i).mpr ⟨pos, ho⟩⟩

theorem increment_eq_some {n : Int} (old : t.globalRefcountStorage[i]? = some n)
    (done : increment t i = some t') :
    t' = { t with globalRefcountStorage := t.globalRefcountStorage.set i (n + 1) } := by
  have shape : increment t i = if n < maxInt then
      some { t with globalRefcountStorage := t.globalRefcountStorage.set i (n + 1) }
      else none := by
    rw [increment, old]
    rfl
  rw [shape] at done
  exact (some.inj (ite_none_right_eq_some.mp done).2).symm

/-- All four tables change at one index only. -/
structure ChangedAt (t t' : Tables) (i n : Nat) (entry : Option CString) : Prop where
  guardOk : t'.guardOk = t.guardOk
  refcounts : t'.globalRefcountStorage = t.globalRefcountStorage.set i n
  storage : t'.globalIdStorage = t.globalIdStorage.set i entry
  index : ∀ p, p ≠ [] → ∀ k, t'.globalIdIndex p = some k ↔
    if k = i then entry = some p else t.globalIdIndex p = some k
  nodup : t'.globalFreeIdxList.Nodup
  free : ∀ k, k ∈ t'.globalFreeIdxList ↔ if k = i then n = 0 else k ∈ t.globalFreeIdxList

/-- The tables stay consistent when the changed index is in use exactly if it has a string. -/
theorem Consistent.change {n : Nat} {entry : Option CString} (c : Consistent t held)
    (change : ChangedAt t t' i n entry) (pos : 0 < i) (inside : i < t.globalIdStorage.length)
    (used : entry = none ↔ n = 0) (nonempty : entry ≠ some []) :
    Consistent t' (Function.update held i n) := by
  have own : t'.globalIdStorage[i]? = some entry := by simp [change.storage, inside]
  have other : ∀ k, k ≠ i → t'.globalIdStorage[k]? = t.globalIdStorage[k]? := by
    intro k different
    rw [change.storage, getElem?_set_ne (Ne.symm different)]
  have size : t'.globalIdStorage.length = t.globalIdStorage.length := by simp [change.storage]
  constructor
  case guardOk => rw [change.guardOk, c.guardOk]
  case sizes => simpa [change.refcounts, size] using c.sizes
  case counts =>
    intro k posk insidek
    rw [change.refcounts]
    by_cases same : k = i
    · have bound : k < t.globalRefcountStorage.length := by rw [c.sizes, same]; exact inside
      subst same
      simp [bound]
    · rw [Function.update_of_ne same, getElem?_set_ne (Ne.symm same)]
      exact c.counts k posk (by omega)
  case bounded =>
    intro k posk usedk
    rw [size]
    by_cases same : k = i
    · exact same ▸ inside
    · rw [Function.update_of_ne same] at usedk
      exact c.bounded k posk usedk
  case stored =>
    intro k posk insidek
    by_cases same : k = i
    · rw [same, own, Function.update_self, some.injEq, used]
    · rw [Function.update_of_ne same, other k same]
      exact c.stored k posk (by omega)
  case nonempty =>
    intro k posk
    by_cases same : k = i
    · rw [same, own]
      simpa using nonempty
    · rw [other k same]
      exact c.nonempty k posk
  case index =>
    intro p ne k
    rw [change.index p ne]
    by_cases same : k = i
    · rw [if_pos same, same, own]
      simp [pos]
    · rw [if_neg same, other k same, c.index p ne]
  case nodup => exact change.nodup
  case free =>
    intro k
    rw [change.free]
    by_cases same : k = i
    · rw [if_pos same, same, Function.update_self, size]
      simp [pos, inside]
    · rw [if_neg same, Function.update_of_ne same, size, c.free]

section

variable (c : Consistent t held)

include c

theorem Consistent.changedAt_count (pos : 0 < i) (used : 0 < held i) {n : Nat} (more : 0 < n)
    (stored : t.globalIdStorage[i]? = some (some p)) :
    ChangedAt t { t with globalRefcountStorage := t.globalRefcountStorage.set i n } i n (some p) where
  guardOk := rfl
  refcounts := rfl
  storage := by
    obtain ⟨inside, entry⟩ := List.getElem?_eq_some_iff.mp stored
    rw [← entry, set_getElem_self]
  index := by
    intro q ne k
    by_cases same : k = i
    · rw [if_pos same, same]
      rw [c.index q ne, stored]
      simp [pos]
    · rw [if_neg same]
  nodup := c.nodup
  free := by
    intro k
    by_cases same : k = i
    · rw [if_pos same, same]
      rw [c.free]
      omega
    · rw [if_neg same]

theorem increment_spec (pos : 0 < i) (used : 0 < held i) (done : increment t i = some t') :
    Consistent t' (Function.update held i (held i + 1)) ∧
      t'.globalIdStorage = t.globalIdStorage := by
  obtain rfl := increment_eq_some (c.count pos used) done
  obtain ⟨p, ne, stored, -⟩ := c.exists_name pos used
  have change := c.changedAt_count pos used (Nat.succ_pos (held i)) stored
  exact ⟨c.change change pos (c.bounded i pos used) (by simp) (by simpa using ne), rfl⟩

theorem reserveEmpty_spec :
    Consistent (reserveEmpty t) held ∧ 0 < (reserveEmpty t).globalIdStorage.length ∧
      ∀ k, 0 < k → (reserveEmpty t).globalIdStorage[k]? = t.globalIdStorage[k]? := by
  by_cases fresh : t.globalIdStorage = []
  · have noRefs : t.globalRefcountStorage = [] := eq_nil_of_length_eq_zero (by simp [c.sizes, fresh])
    have unused : ∀ k, 0 < k → held k = 0 := by
      intro k pos
      by_contra used
      have := c.bounded k pos (by omega)
      simp [fresh] at this
    have outside : ∀ k, 0 < k → ([some []] : List (Option CString))[k]? = none := by
      intro k pos
      exact getElem?_eq_none pos
    rw [reserveEmpty, if_pos fresh, fresh, noRefs]
    refine ⟨?_, by simp, fun k pos => by simpa using outside k pos⟩
    constructor
    case guardOk => exact c.guardOk
    case sizes => rfl
    case counts =>
      intro k pos inside
      simp at inside
      omega
    case bounded =>
      intro k pos used
      rw [unused k pos] at used
      omega
    case stored =>
      intro k pos inside
      simp at inside
      omega
    case nonempty =>
      intro k pos
      simp [outside k pos]
    case index =>
      intro p ne k
      dsimp only
      rw [Function.update_of_ne ne, c.index p ne, fresh]
      refine and_congr_right fun pos => ?_
      simp [outside k pos]
    case nodup => exact c.nodup
    case free =>
      intro k
      rw [c.free k, fresh]
      simp
      omega
  · rw [reserveEmpty, if_neg fresh]
    exact ⟨c, length_pos_of_ne_nil fresh, fun _ _ => rfl⟩

theorem growTables_spec (done : growTables t = some t') :
    Consistent t' held ∧
      ∀ k, 0 < k → 0 < held k → t'.globalIdStorage[k]? = t.globalIdStorage[k]? := by
  obtain ⟨c', size, kept⟩ := reserveEmpty_spec c
  rw [growTables] at done
  generalize reserveEmpty t = r at c' size kept done
  simp only [bind_eq_bind, bind_eq_some_iff, some.injEq] at done
  obtain ⟨-, -, rfl⟩ := done
  have unused : held r.globalIdStorage.length = 0 := by
    by_contra used
    have := c'.bounded _ size (by omega)
    omega
  have before : ∀ k, k ≠ r.globalIdStorage.length →
      (r.globalIdStorage ++ [none])[k]? = r.globalIdStorage[k]? := by
    intro k ne
    simp only [getElem?_append, getElem?_singleton]
    split_ifs with below at_end
    · rfl
    · omega
    · exact (getElem?_eq_none (by omega)).symm
  have last : (r.globalIdStorage ++ [none])[r.globalIdStorage.length]? = some none := by simp
  refine ⟨?_, ?_⟩
  · constructor
    case guardOk => exact c'.guardOk
    case sizes => simp [c'.sizes]
    case counts =>
      intro k pos inside
      simp only [length_append, length_singleton] at inside
      by_cases same : k = r.globalIdStorage.length
      · subst same
        rw [unused, ← c'.sizes]
        simp
      · have below : k < r.globalIdStorage.length := by omega
        rw [getElem?_append_left (by rw [c'.sizes]; exact below)]
        exact c'.counts k pos below
    case bounded =>
      intro k pos used
      have := c'.bounded k pos used
      simp only [length_append, length_singleton]
      omega
    case stored =>
      intro k pos inside
      simp only [length_append, length_singleton] at inside
      by_cases same : k = r.globalIdStorage.length
      · subst same
        simp [unused]
      · rw [before k same]
        exact c'.stored k pos (by omega)
    case nonempty =>
      intro k pos
      by_cases same : k = r.globalIdStorage.length
      · rw [same, last]
        simp
      · rw [before k same]
        exact c'.nonempty k pos
    case index =>
      intro p ne k
      rw [c'.index p ne k]
      by_cases same : k = r.globalIdStorage.length
      · rw [same, last]
        simp
      · rw [before k same]
    case nodup =>
      refine nodup_cons.mpr ⟨?_, c'.nodup⟩
      intro member
      have := ((c'.free _).mp member).2.1
      omega
    case free =>
      intro k
      simp only [mem_cons, length_append, length_singleton]
      rw [c'.free k]
      by_cases same : k = r.globalIdStorage.length
      · subst same
        simp [unused, size]
      · simp only [same, false_or]
        exact and_congr_right fun _ => and_congr_left fun _ => by omega
  · intro k pos used
    have inside := c'.bounded k pos used
    rw [before k (by omega), kept k pos]

theorem takeIndex_spec (ne : p ≠ []) (absent : t.globalIdIndex p = none)
    (done : takeIndex t p = some (i, t')) :
    0 < i ∧ held i = 0 ∧ Consistent t' (Function.update held i 1) ∧
      t'.globalIdStorage = t.globalIdStorage.set i (some p) := by
  cases split : t.globalFreeIdxList with
  | nil => simp [takeIndex, split] at done
  | cons idx rest =>
    obtain ⟨pos, inside, unused⟩ := (c.free idx).mp (by simp [split])
    simp only [takeIndex, split, bind_eq_bind, bind_eq_some_iff, some.injEq, Prod.mk.injEq] at done
    obtain ⟨-, -, t₁, raised, rfl, rfl⟩ := done
    have old : t.globalRefcountStorage[idx]? = some (0 : Int) := by
      rw [c.counts idx pos inside, unused]
      rfl
    obtain rfl := increment_eq_some (by exact old) raised
    have empty : t.globalIdStorage[idx]? = some none := (c.stored idx pos inside).mpr unused
    have nodup := c.nodup
    rw [split, nodup_cons] at nodup
    refine ⟨pos, unused, c.change (i := idx) ⟨rfl, rfl, rfl, ?_, nodup.2, ?_⟩ pos inside
      (by simp) (by simpa using ne), rfl⟩
    · intro q neq k
      dsimp only
      by_cases named : q = p
      · rw [named, Function.update_self, absent]
        by_cases same : k = idx
        · simp [same]
        · simp [same, Ne.symm same]
      · rw [Function.update_of_ne named]
        by_cases same : k = idx
        · rw [if_pos same, same, c.index q neq, empty]
          simp [Ne.symm named]
        · rw [if_neg same]
    · intro k
      by_cases same : k = idx
      · simp [same, nodup.1]
      · simp [same, split]

theorem putReference_spec (pos : 0 < i) (used : 0 < held i) :
    ∃ t', putReference t i = some t' ∧ Consistent t' (Function.update held i (held i - 1)) ∧
      (∀ k, (k = i → 1 < held i) → t'.globalIdStorage[k]? = t.globalIdStorage[k]?) ∧
      (held i = 1 → t'.globalIdStorage[i]? = some none) := by
  have inside := c.bounded i pos used
  have old := c.count pos used
  obtain ⟨p, ne, stored, indexed⟩ := c.exists_name pos used
  have less : (held i : Int) - 1 = ((held i - 1 : Nat) : Int) := by omega
  have enter : putReference t i = (if 0 < ((held i - 1 : Nat) : Int) then
        some { t with globalRefcountStorage := t.globalRefcountStorage.set i ((held i - 1 : Nat) : Int) }
      else do
        guard (((held i - 1 : Nat) : Int) = 0)
        freeReference { t with
          globalRefcountStorage := t.globalRefcountStorage.set i ((held i - 1 : Nat) : Int) } i) := by
    rw [putReference, if_neg (by simp [c.guardOk]; omega), old, ← less]
    rfl
  by_cases last : held i = 1
  · -- the last reference: the string is forgotten and the index becomes free
    have none_left : held i - 1 = 0 := by omega
    rw [none_left] at enter ⊢
    have unused : i ∉ t.globalFreeIdxList := by
      rw [c.free]
      omega
    refine ⟨{ t with
        globalRefcountStorage := t.globalRefcountStorage.set i ((0 : Nat) : Int)
        globalIdIndex := Function.update t.globalIdIndex p none
        globalIdStorage := t.globalIdStorage.set i none
        globalFreeIdxList := i :: t.globalFreeIdxList },
      by rw [enter]; simp [freeReference, stored],
      c.change (i := i) ⟨rfl, rfl, rfl, ?_, nodup_cons.mpr ⟨unused, c.nodup⟩, ?_⟩ pos inside
        (by simp) (by simp), ?_, fun _ => by simp [inside]⟩
    · intro q neq k
      dsimp only
      by_cases named : q = p
      · rw [named, Function.update_self, indexed]
        by_cases same : k = i
        · simp [same]
        · simp [Ne.symm same]
      · rw [Function.update_of_ne named]
        by_cases same : k = i
        · rw [if_pos same, same, c.index q neq, stored]
          simp [Ne.symm named]
        · rw [if_neg same]
    · intro k
      by_cases same : k = i
      · simp [same]
      · simp [same]
    · intro k kept
      have different : k ≠ i := by
        omega
      exact getElem?_set_ne (Ne.symm different)
  · have more : 0 < held i - 1 := by omega
    have change := c.changedAt_count pos used more stored
    refine ⟨{ t with globalRefcountStorage := t.globalRefcountStorage.set i ((held i - 1 : Nat) : Int) },
      ?_, c.change change pos inside (by simp; omega) (by simpa using ne), fun _ _ => rfl,
      fun one => absurd one last⟩
    rw [enter, if_pos (by omega)]

end

def added (held : Nat → Nat) (i k : Nat) : Nat := held k + if i = k then 1 else 0

theorem added_eq_update (held : Nat → Nat) (i : Nat) :
    added held i = Function.update held i (held i + 1) := by
  funext k
  by_cases same : k = i
  · simp [added, same]
  · simp [added, same, Ne.symm same]

theorem Consistent.added_zero (c : Consistent t held) : Consistent t (added held 0) := by
  refine c.congr fun k pos => ?_
  rw [added, if_neg (by omega), Nat.add_zero]

def Retains (t t' : Tables) (held : Nat → Nat) : Prop :=
  ∀ k, 0 < k → 0 < held k → t'.globalIdStorage[k]? = t.globalIdStorage[k]?

theorem getReferenceByIndex_spec (c : Consistent t held) (used : i ≠ 0 → 0 < held i)
    (done : getReferenceByIndex t i = some t') :
    Consistent t' (added held i) ∧ Retains t t' held := by
  by_cases zero : i = 0
  · rw [getReferenceByIndex, if_neg (by simpa using zero)] at done
    obtain rfl := some.inj done
    exact ⟨zero ▸ c.added_zero, fun _ _ _ => rfl⟩
  · rw [getReferenceByIndex, if_pos zero] at done
    obtain ⟨c', kept⟩ := increment_spec c (by omega) (used zero) done
    rw [added_eq_update]
    exact ⟨c', fun k _ _ => by rw [kept]⟩

theorem ensureFree_spec (c : Consistent t held) (done : ensureFree t = some t') :
    Consistent t' held ∧ Retains t t' held := by
  rw [ensureFree] at done
  split at done
  · obtain ⟨c', kept⟩ := growTables_spec c done
    exact ⟨c', kept⟩
  · obtain rfl := some.inj done
    exact ⟨c, fun _ _ _ => rfl⟩

def Stands (t : Tables) (i : Nat) (p : CString) : Prop :=
  if i = 0 then p = [] else t.globalIdStorage[i]? = some (some p)

theorem getReferenceByName_spec (c : Consistent t held)
    (done : getReferenceByName t p = some (i, t')) :
    Consistent t' (added held i) ∧ Retains t t' held ∧ Stands t' i p := by
  simp only [getReferenceByName, bind_eq_bind, bind_eq_some_iff] at done
  obtain ⟨-, -, done⟩ := done
  by_cases empty : p = []
  · rw [if_pos empty, some.injEq, Prod.mk.injEq] at done
    obtain ⟨rfl, rfl⟩ := done
    exact ⟨c.added_zero, fun _ _ _ => rfl, by simpa [Stands] using empty⟩
  · rw [if_neg empty] at done
    cases known : t.globalIdIndex p with
    | some idx =>
      simp only [known, bind_eq_some_iff, some.injEq, Prod.mk.injEq] at done
      obtain ⟨t₁, raised, rfl, rfl⟩ := done
      obtain ⟨pos, stored⟩ := (c.index p empty idx).mp known
      obtain ⟨c', kept⟩ := increment_spec c pos (c.held_pos pos stored) raised
      rw [added_eq_update]
      refine ⟨c', fun k _ _ => by rw [kept], ?_⟩
      rw [Stands, if_neg (by omega), kept, stored]
    | none =>
      simp only [known, bind_eq_some_iff] at done
      obtain ⟨-, -, t₁, grown, taken⟩ := done
      obtain ⟨c₁, kept⟩ := ensureFree_spec c grown
      have absent : t₁.globalIdIndex p = none := by
        by_contra some_index
        obtain ⟨k, found⟩ := ne_none_iff_exists'.mp some_index
        obtain ⟨pos, stored⟩ := (c₁.index p empty k).mp found
        rw [kept k pos (c₁.held_pos pos stored)] at stored
        rw [(c.index p empty k).mpr ⟨pos, stored⟩] at known
        cases known
      obtain ⟨pos, unused, c', storage⟩ := takeIndex_spec c₁ empty absent taken
      have inside : i < t₁.globalIdStorage.length := by
        have := c'.bounded i pos (by simp)
        simpa [storage] using this
      refine ⟨?_, ?_, ?_⟩
      · rwa [added_eq_update, unused]
      · intro k posk usedk
        have different : i ≠ k := by
          rintro rfl
          omega
        rw [storage, getElem?_set_ne different, kept k posk usedk]
      · rw [Stands, if_neg (by omega), storage]
        simp [inside]

end ManticoreFrontend.Kernel.InternTables
