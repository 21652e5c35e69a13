/- source: kernel/rtlil.h
   digest: Which programs keep the interned identifiers sound: all that never assign to itself an
     object holding the last reference. -/

import ManticoreFrontend.Foundation.Outcome
import ManticoreFrontend.Kernel.InternTables

namespace ManticoreFrontend.Kernel.Interning

open Foundation.Outcome IdStrings InternTables List Option

variable {s s' : State} {names : List (Option CString)}

def Named (t : Tables) : Option Nat → Option CString → Prop
  | none, none => True
  | some i, some p => Stands t i p
  | _, _ => False

/-- The tables account for all live objects, and each holds its string. -/
structure Sound (s : State) (names : List (Option CString)) : Prop where
  tables : Consistent s.tables s.held
  sizes : names.length = s.objects.length
  named : ∀ k, Named s.tables (s.live k) (slot names k)

theorem Sound.initial : Sound State.initial [] :=
  ⟨consistent_initial.congr fun _ _ => rfl, rfl, fun _ => trivial⟩

variable {i k : Nat} {α : Type} {objects : List (Option α)}

theorem slot_eq_some {a : α} : slot objects k = some a ↔ objects[k]? = some (some a) := by
  simp [slot, join_eq_some_iff]

theorem slot_lt {a : α} (full : slot objects k = some a) : k < objects.length :=
  (List.getElem?_eq_some_iff.mp (slot_eq_some.mp full)).1

theorem slot_set (o : Option α) (inside : k < objects.length) (j : Nat) :
    slot (objects.set k o) j = if j = k then o else slot objects j := by
  by_cases same : j = k
  · subst same
    simp [slot, inside]
  · rw [if_neg same, slot, slot, getElem?_set_ne (Ne.symm same)]

theorem slot_append (objects : List (Option α)) (o : Option α) (j : Nat) :
    slot (objects ++ [o]) j = if j = objects.length then o else slot objects j := by
  by_cases same : j = objects.length
  · subst same
    simp [slot]
  · rw [if_neg same, slot, slot]
    rcases Nat.lt_or_gt_of_ne same with below | above
    · rw [getElem?_append_left below]
    · rw [getElem?_eq_none (by simp; omega), getElem?_eq_none (by omega)]

theorem held_pos (at_k : s.live k = some i) : 0 < s.held i :=
  count_pos_iff.mpr (mem_of_getElem? (slot_eq_some.mp at_k))

theorem held_set (at_k : s.live k = some i) (o : Option Nat) (j : Nat) :
    (s.objects.set k o).count (some j) + (if i = j then 1 else 0) =
      s.held j + (if o = some j then 1 else 0) := by
  have inside := slot_lt at_k
  have entry : s.objects[k] = some i := (List.getElem?_eq_some_iff.mp (slot_eq_some.mp at_k)).2
  have present : i = j → 0 < s.held j := fun same => same ▸ held_pos at_k
  rw [count_set inside, entry, State.held]
  simp only [beq_iff_eq, some.injEq]
  rw [State.held] at present
  split_ifs <;> omega

variable {name : Option CString}

theorem Named.kept {t t' : Tables} {held : Nat → Nat} {o : Option Nat} (named : Named t o name)
    (kept : Retains t t' held) (used : ∀ i, o = some i → i ≠ 0 → 0 < held i) : Named t' o name := by
  match o, name with
  | none, none => trivial
  | some i, some p =>
    by_cases zero : i = 0
    · simpa only [Named, Stands, if_pos zero] using named
    · simp only [Named, Stands, if_neg zero] at named ⊢
      rw [kept i (by omega) (used i rfl zero), named]

section

variable (sound : Sound s names)

include sound

theorem Sound.named_set {t : Tables} {o : Option Nat} (inside : k < s.objects.length)
    (own : Named t o name) (others : ∀ j, j ≠ k → Named t (s.live j) (slot names j)) (j : Nat) :
    Named t (slot (s.objects.set k o) j) (slot (names.set k name) j) := by
  rw [slot_set _ inside, slot_set _ (sound.sizes ▸ inside)]
  by_cases same : j = k
  · rwa [if_pos same, if_pos same]
  · rw [if_neg same, if_neg same]
    exact others j same

theorem Sound.append {t : Tables} (tables : Consistent t (added s.held i))
    (kept : Retains s.tables t s.held) (named : Named t (some i) name) :
    Sound { tables := t, objects := s.objects ++ [some i] } (names ++ [name]) := by
  refine ⟨tables.congr ?_, by simp [sound.sizes], ?_⟩
  · simp [State.held, added, count_singleton]
  · intro k
    rw [State.live, slot_append, slot_append, sound.sizes]
    by_cases last : k = s.objects.length
    · rwa [if_pos last, if_pos last]
    · rw [if_neg last, if_neg last]
      exact (sound.named k).kept kept fun i at_k _ => held_pos at_k

theorem Sound.fill {t : Tables} (dead : s.objects[k]? = some none)
    (tables : Consistent t (added s.held i)) (kept : Retains s.tables t s.held)
    (named : Named t (some i) name) :
    Sound { tables := t, objects := s.objects.set k (some i) } (names.set k name) := by
  obtain ⟨inside, entry⟩ := List.getElem?_eq_some_iff.mp dead
  refine ⟨tables.congr ?_, by simp [sound.sizes], sound.named_set inside named fun j _ => ?_⟩
  · simp [State.held, added, count_set inside, entry]
  · exact (sound.named j).kept kept fun i at_j _ => held_pos at_j

theorem Sound.drop (at_k : s.live k = some i) :
    ∃ t, putReference s.tables i = some t ∧
      Sound { tables := t, objects := s.objects.set k none } (names.set k none) ∧
      Retains s.tables t (fun j => (s.objects.set k none).count (some j)) := by
  have inside := slot_lt at_k
  have counted := held_set at_k none
  have transfer : ∀ t, Consistent t (fun j => (s.objects.set k none).count (some j)) →
      Retains s.tables t (fun j => (s.objects.set k none).count (some j)) →
      Sound { tables := t, objects := s.objects.set k none } (names.set k none) := by
    intro t tables kept
    refine ⟨tables, by simp [sound.sizes], sound.named_set inside trivial fun j other => ?_⟩
    refine (sound.named j).kept kept fun i' at_j _ => ?_
    have still : slot (s.objects.set k none) j = some i' := by rwa [slot_set _ inside, if_neg other]
    exact count_pos_iff.mpr (mem_of_getElem? (slot_eq_some.mp still))
  by_cases zero : i = 0
  · have same : ∀ j, 0 < j → (s.objects.set k none).count (some j) = s.held j := by
      intro j pos
      have := counted j
      rw [if_neg (by omega)] at this
      simpa using this
    have kept : Retains s.tables s.tables (fun j => (s.objects.set k none).count (some j)) :=
      fun _ _ _ => rfl
    refine ⟨s.tables, by simp [putReference, zero], ?_, kept⟩
    exact transfer _ (sound.tables.congr same) kept
  · obtain ⟨t, put, c, kept, -⟩ := putReference_spec sound.tables (by omega) (held_pos at_k)
    have remaining : ∀ j, (s.objects.set k none).count (some j) =
        Function.update s.held i (s.held i - 1) j := by
      intro j
      have := counted j
      by_cases same : j = i
      · subst same
        rw [Function.update_self]
        simp at this
        omega
      · rw [Function.update_of_ne same]
        simpa [Ne.symm same] using this
    have kept' : Retains s.tables t (fun j => (s.objects.set k none).count (some j)) := by
      intro j pos used
      apply kept
      intro same
      dsimp only at used
      rw [remaining j, same, Function.update_self] at used
      omega
    exact ⟨t, put, transfer t (c.congr fun j _ => remaining j) kept', kept'⟩

theorem construct_sound {str : List UInt8} (done : construct s str = some s') :
    Sound s' (names ++ [some (cStr str)]) := by
  simp only [construct, bind_eq_bind, bind_eq_some_iff, Prod.exists, some.injEq] at done
  obtain ⟨idx, t, taken, rfl⟩ := done
  obtain ⟨tables, kept, stands⟩ := getReferenceByName_spec sound.tables taken
  exact sound.append tables kept stands

theorem destroy_sound {self : Nat} (done : destroy s self = some s') :
    Sound s' (names.set self none) := by
  simp only [destroy, bind_eq_bind, bind_eq_some_iff, some.injEq] at done
  obtain ⟨idx, at_self, t, put, rfl⟩ := done
  obtain ⟨t', put', dropped, -⟩ := sound.drop at_self
  obtain rfl := some.inj (put.symm.trans put')
  exact dropped

/-- An object that holds the only reference to its identifier is assigned to itself. -/
def SelfAssignsLast (s : State) : Op → Prop
  | .assign self rhs => self = rhs ∧ ∃ i, s.live self = some i ∧ i ≠ 0 ∧ s.held i = 1
  | _ => False

theorem assign_sound {self rhs : Nat} (safe : ¬ SelfAssignsLast s (.assign self rhs))
    (done : assign s self rhs = some s') : Sound s' (names.set self (slot names rhs)) := by
  simp only [assign, bind_eq_bind, bind_eq_some_iff, some.injEq] at done
  obtain ⟨old, at_self, t₁, put, idx, at_rhs, t₂, taken, rfl⟩ := done
  obtain ⟨t, put', dropped, kept⟩ := sound.drop at_self
  obtain rfl := some.inj (put.symm.trans put')
  have inside := slot_lt at_self
  -- after the old reference is gone, the new one is still held by someone
  have used : idx ≠ 0 → 0 < (s.objects.set self none).count (some idx) := by
    intro nonzero
    by_cases same : self = rhs
    · subst same
      obtain rfl : old = idx := some.inj (at_self.symm.trans at_rhs)
      have several : s.held old ≠ 1 := fun one => safe ⟨rfl, old, at_self, nonzero, one⟩
      have counted := held_set at_self none old
      simp at counted
      omega
    · have still : slot (s.objects.set self none) rhs = some idx := by
        rw [slot_set _ inside, if_neg (Ne.symm same)]
        exact at_rhs
      exact count_pos_iff.mpr (mem_of_getElem? (slot_eq_some.mp still))
  obtain ⟨tables, kept'⟩ := getReferenceByIndex_spec dropped.tables used taken
  have still : ∀ i, some idx = some i → i ≠ 0 → 0 < (s.objects.set self none).count (some i) := by
    rintro i ⟨rfl⟩
    exact used
  have named : Named t₂ (some idx) (slot names rhs) := by
    have before := sound.named rhs
    rw [at_rhs] at before
    exact (before.kept kept still).kept kept' still
  have dead : (s.objects.set self none)[self]? = some none := by simp [inside]
  have filled := dropped.fill dead tables kept' named
  simpa only [set_set] using filled

theorem step_sound {op : Op} (safe : ¬ SelfAssignsLast s op) (done : step s op = some s') :
    Sound s' (stepNames names op) := by
  cases op with
  | default =>
    obtain rfl := some.inj done
    exact sound.append sound.tables.added_zero (fun _ _ _ => rfl) rfl
  | construct str => exact construct_sound sound done
  | copy str =>
    simp only [step, bind_eq_bind, bind_eq_some_iff, some.injEq] at done
    obtain ⟨idx, at_str, t, taken, rfl⟩ := done
    obtain ⟨tables, kept⟩ :=
      getReferenceByIndex_spec sound.tables (fun _ => held_pos at_str) taken
    have named := sound.named str
    rw [at_str] at named
    refine sound.append tables kept (named.kept kept ?_)
    rintro i ⟨rfl⟩ -
    exact held_pos at_str
  | move str =>
    simp only [step, bind_eq_bind, bind_eq_some_iff, some.injEq] at done
    obtain ⟨idx, at_str, rfl⟩ := done
    have inside := slot_lt at_str
    refine ⟨sound.tables.congr ?_, by simp [stepNames, sound.sizes], ?_⟩
    · intro k pos
      have counted := held_set at_str (some 0) k
      have zero : (0 : Nat) ≠ k := by omega
      simp [zero] at counted
      simp [State.held, count_singleton] at counted ⊢
      exact counted
    · intro k
      rw [State.live, stepNames, slot_append, slot_append]
      simp only [length_set, sound.sizes]
      by_cases last : k = s.objects.length
      · rw [if_pos last, if_pos last]
        have named := sound.named str
        rwa [at_str] at named
      · rw [if_neg last, if_neg last]
        exact sound.named_set inside (by exact rfl) (fun j _ => sound.named j) k
  | destroy self => exact destroy_sound sound done
  | assign self rhs => exact assign_sound sound safe done
  | assignString self rhs =>
    simp only [step, bind_eq_bind, bind_eq_some_iff] at done
    obtain ⟨idx, at_self, s₁, built, s₂, assigned, finished⟩ := done
    have sound₁ := construct_sound sound built
    have inside := slot_lt at_self
    have distinct : ¬ SelfAssignsLast s₁ (.assign self s.objects.length) := by
      rintro ⟨same, -⟩
      omega
    have sound₂ := assign_sound sound₁ distinct assigned
    have sound₃ := destroy_sound sound₂ finished
    have below : self < names.length := by rw [sound.sizes]; exact inside
    have result : stepNames names (.assignString self rhs) = ((names ++ [some (cStr rhs)]).set self
          (slot (names ++ [some (cStr rhs)]) s.objects.length)).set s.objects.length none := by
      rw [slot_append, if_pos sound.sizes.symm, stepNames, set_append_left _ _ below,
        set_append_right _ _ (by simp [sound.sizes])]
      simp [sound.sizes]
    rw [result]
    exact sound₃

end

/-- Each live identifier finds its string, each string its index, and the counts and the free list
agree with the objects in use. Index 0 is the empty string, which is not counted. -/
structure Interned (s : State) (names : List (Option CString)) : Prop where
  live : ∀ k, s.live k = none ↔ slot names k = none
  string : ∀ k i p, s.live k = some i → slot names k = some p →
    if i = 0 then p = [] else p ≠ [] ∧ s.tables.globalIdStorage[i]? = some (some p)
  index : ∀ p i, p ≠ [] →
    (s.tables.globalIdIndex p = some i ↔ ∃ k, s.live k = some i ∧ slot names k = some p)
  equal : ∀ k l i j, s.live k = some i → s.live l = some j →
    (i = j ↔ slot names k = slot names l)
  refcount : ∀ i, 0 < i → i < s.tables.globalIdStorage.length →
    s.tables.globalRefcountStorage[i]? = some (s.held i : Int)
  free_nodup : s.tables.globalFreeIdxList.Nodup
  free : ∀ i, i ∈ s.tables.globalFreeIdxList ↔
    0 < i ∧ s.tables.globalRefcountStorage[i]? = some 0
  unused : ∀ i, i ∈ s.tables.globalFreeIdxList → ∀ k, s.live k ≠ some i

theorem exists_live (used : 0 < s.held i) : ∃ k, s.live k = some i := by
  obtain ⟨k, at_k⟩ := mem_iff_getElem?.mp (count_pos_iff.mp used)
  exact ⟨k, slot_eq_some.mpr at_k⟩

section

variable (sound : Sound s names)

include sound

theorem Sound.stands (at_k : s.live k = some i) :
    ∃ p, slot names k = some p ∧ Stands s.tables i p := by
  have named := sound.named k
  rw [at_k] at named
  match name : slot names k with
  | none => rw [name] at named; exact named.elim
  | some p => rw [name] at named; exact ⟨p, rfl, named⟩

theorem Sound.nonempty {p : CString} (nonzero : i ≠ 0) (stands : Stands s.tables i p) : p ≠ [] := by
  rintro rfl
  rw [Stands, if_neg nonzero] at stands
  exact sound.tables.nonempty i (by omega) stands

theorem Sound.eq_iff {j : Nat} {p q : CString} (left : Stands s.tables i p)
    (right : Stands s.tables j q) : i = j ↔ p = q := by
  by_cases zero : i = 0 <;> by_cases zero' : j = 0
  · rw [Stands, if_pos zero] at left
    rw [Stands, if_pos zero'] at right
    simp [zero, zero', left, right]
  · have := sound.nonempty zero' right
    rw [Stands, if_pos zero] at left
    exact iff_of_false (by omega) (by rw [left]; exact Ne.symm this)
  · have := sound.nonempty zero left
    rw [Stands, if_pos zero'] at right
    exact iff_of_false (by omega) (by rw [right]; exact this)
  · have ne := sound.nonempty zero left
    have ne' := sound.nonempty zero' right
    rw [Stands, if_neg zero] at left
    rw [Stands, if_neg zero'] at right
    have found := (sound.tables.index p ne i).mpr ⟨by omega, left⟩
    have found' := (sound.tables.index q ne' j).mpr ⟨by omega, right⟩
    constructor
    · rintro rfl
      rw [left] at right
      exact some.inj (some.inj right)
    · rintro rfl
      rw [found] at found'
      exact some.inj found'

theorem Sound.interned : Interned s names := by
  constructor
  case live =>
    intro k
    have named := sound.named k
    cases at_k : s.live k <;> cases name : slot names k <;> rw [at_k, name] at named
    · simp
    · exact named.elim
    · exact named.elim
    · simp
  case string =>
    intro k i p at_k name
    obtain ⟨q, name', stands⟩ := sound.stands at_k
    obtain rfl : q = p := some.inj (name'.symm.trans name)
    by_cases zero : i = 0
    · rw [Stands, if_pos zero] at stands
      rwa [if_pos zero]
    · have ne := sound.nonempty zero stands
      rw [Stands, if_neg zero] at stands
      rw [if_neg zero]
      exact ⟨ne, stands⟩
  case index =>
    intro p i ne
    rw [sound.tables.index p ne]
    constructor
    · rintro ⟨pos, stored⟩
      obtain ⟨k, at_k⟩ := exists_live (sound.tables.held_pos pos stored)
      obtain ⟨q, name, stands⟩ := sound.stands at_k
      rw [Stands, if_neg (by omega), stored] at stands
      obtain rfl := some.inj (some.inj stands)
      exact ⟨k, at_k, name⟩
    · rintro ⟨k, at_k, name⟩
      obtain ⟨q, name', stands⟩ := sound.stands at_k
      obtain rfl : q = p := some.inj (name'.symm.trans name)
      have nonzero : i ≠ 0 := by
        intro zero
        rw [Stands, if_pos zero] at stands
        exact ne stands
      rw [Stands, if_neg nonzero] at stands
      exact ⟨by omega, stands⟩
  case equal =>
    intro k l i j at_k at_l
    obtain ⟨p, name, stands⟩ := sound.stands at_k
    obtain ⟨q, name', stands'⟩ := sound.stands at_l
    rw [name, name', sound.eq_iff stands stands', some.injEq]
  case refcount => exact sound.tables.counts
  case free_nodup => exact sound.tables.nodup
  case free =>
    intro i
    rw [sound.tables.free]
    refine and_congr_right fun pos => ?_
    constructor
    · rintro ⟨inside, zero⟩
      rw [sound.tables.counts i pos inside, zero]
      rfl
    · intro count
      have inside : i < s.tables.globalIdStorage.length := by
        rw [← sound.tables.sizes]
        exact (List.getElem?_eq_some_iff.mp count).1
      rw [sound.tables.counts i pos inside] at count
      exact ⟨inside, by simpa using count⟩
  case unused =>
    intro i free k at_k
    have := held_pos at_k
    have := ((sound.tables.free i).mp free).2.2
    omega

/-- The last reference is given back before it is taken again: the object keeps an index whose
string is gone. -/
theorem selfAssignsLast_breaks {op : Op} (last : SelfAssignsLast s op) :
    ∃ s', step s op = some s' ∧ ¬ Interned s' (stepNames names op) := by
  match op, last with
  | .assign self _, ⟨rfl, i, at_self, nonzero, one⟩ =>
    have pos : 0 < i := by omega
    have inside := slot_lt at_self
    obtain ⟨t, put, c, -, gone⟩ := putReference_spec sound.tables pos (held_pos at_self)
    have size : i < t.globalIdStorage.length := (List.getElem?_eq_some_iff.mp (gone one)).1
    have count : t.globalRefcountStorage[i]? = some (0 : Int) := by
      rw [c.counts i pos size, Function.update_self, one]
      rfl
    have taken : getReferenceByIndex t i =
        some { t with globalRefcountStorage := t.globalRefcountStorage.set i 1 } := by
      rw [getReferenceByIndex, if_pos nonzero, increment, count]
      rfl
    refine ⟨_, by simp [step, assign, at_self, put, taken]; rfl, ?_⟩
    intro interned
    obtain ⟨p, name, -⟩ := sound.stands at_self
    have held : slot (names.set self (slot names self)) self = some p := by
      rw [slot_set _ (slot_lt name), if_pos rfl, name]
    have string := interned.string self i p (by simp [State.live, slot_set _ inside]) held
    rw [if_neg nonzero] at string
    rw [gone one] at string
    cases string.2

end

theorem runNames_append_one (ops : List Op) (op : Op) :
    runNames (ops ++ [op]) = stepNames (runNames ops) op := by
  simp [runNames]

/-- The tables are sound throughout a program if and only if it never assigns to itself an object
that holds the only reference to a nonempty identifier. -/
theorem interning_sound_iff (ops : List Op) :
    (∀ before, before <+: ops → ∀ s, run .initial before = some s →
        Interned s (runNames before)) ↔
      ∀ before op, before ++ [op] <+: ops → ∀ s, run .initial before = some s →
        ¬ SelfAssignsLast s op := by
  refine foldlM_good_iff (fun before s => Sound s (runNames before)) Sound.initial ?_ ?_
    (fun sound => sound.interned) ops
  · intro before s op s' sound safe done
    rw [runNames_append_one]
    exact step_sound sound safe done
  · intro before s op sound last
    rw [runNames_append_one]
    exact selfAssignsLast_breaks sound last

/-- The program `IdString a("\\x"); a = a;`. -/
def selfAssignment : List Op := [.construct [92, 120], .assign 0 0]

theorem self_assignment_loses_string :
    ∃ s, run .initial selfAssignment = some s ∧ s.live 0 = some 1 ∧
      slot (runNames selfAssignment) 0 = some [92, 120] ∧
      s.tables.globalIdStorage[1]? = some none ∧ s.tables.globalIdIndex [92, 120] = none ∧
      s.tables.globalRefcountStorage[1]? = some 1 ∧ s.tables.globalFreeIdxList = [1] ∧
      ¬ Interned s (runNames selfAssignment) := by
  refine ⟨_, rfl, rfl, rfl, rfl, rfl, rfl, rfl, ?_⟩
  intro interned
  exact interned.unused 1 (by decide) 0 rfl

end ManticoreFrontend.Kernel.Interning
