/- source: kernel/utils.h (stackmap)
   digest: Maps with nested save and restore. A level records the first change of a key; `reset`
     records nothing, so a restore is exact when no reset changes a key its level has not recorded. -/

import Mathlib.Logic.Function.Basic

namespace ManticoreFrontend.Kernel.StackMaps

open Function

/-- The contents of a `dict`; nothing here depends on the order of its entries. -/
abbrev Dict (K V : Type) := K → Option V

/-- The innermost level of backups comes first. A backup is the old value, or `none` for the null
pointer of a key that was absent. -/
structure StackMap (K V : Type) where
  backups : List (Dict K (Option V))
  current : Dict K V

inductive Op (K V : Type)
  | set (k : K) (v : V)
  | unset (k : K)
  | reset (k : K)
  | assign (other : List (K × V))

/-- Calls with properly nested `save` and `restore`: a scope is what stands between the two. -/
inductive Program (K V : Type)
  | done
  | step (op : Op K V) (rest : Program K V)
  | scope (body rest : Program K V)

variable {K V : Type}

namespace StackMap

variable [DecidableEq K] (st : StackMap K V)

/-- The backup that `set` and `unset` make of a key that the innermost level has not recorded. -/
def record (k : K) : StackMap K V :=
  match st.backups with
  | [] => st
  | top :: rest =>
    if (top k).isSome then st
    else { st with backups := update top k (some (st.current k)) :: rest }

def set (k : K) (v : V) : StackMap K V :=
  { st.record k with current := update st.current k (some v) }

def unset (k : K) : StackMap K V := { st.record k with current := update st.current k none }

def resetValue : List (Dict K (Option V)) → K → Option V
  | [], _ => none
  | top :: rest, k => (top k).getD (resetValue rest k)

def reset (k : K) : StackMap K V :=
  { st with current := update st.current k (resetValue st.backups k) }

/-- The first loop of `operator=`, over the keys of the map. -/
def recordAll : List (Dict K (Option V)) :=
  match st.backups with
  | [] => []
  | top :: rest =>
    (fun k => if (top k).isNone ∧ (st.current k).isSome then some (st.current k) else top k) :: rest

def assign (other : List (K × V)) : StackMap K V :=
  other.foldl (fun st e => st.set e.1 e.2) { backups := st.recordAll, current := fun _ => none }

def save : StackMap K V := { st with backups := (fun _ => none) :: st.backups }

def restored : Dict K V :=
  match st.backups with
  | [] => st.current -- the assertion of `restore` fails; nested calls do not come here
  | top :: _ => fun k => (top k).getD (st.current k)

def restore : StackMap K V := { backups := st.backups.tail, current := st.restored }

def apply : Op K V → StackMap K V
  | .set k v => st.set k v
  | .unset k => st.unset k
  | .reset k => st.reset k
  | .assign other => st.assign other

def recorded (k : K) : Bool := st.backups.head?.any (fun top => (top k).isSome)

/-- A reset of a key without a backup in the innermost level leaves its value. -/
def Backed : Op K V → Prop
  | .reset k => st.recorded k = true ∨ resetValue st.backups k = st.current k
  | _ => True

end StackMap

open StackMap

variable {st : StackMap K V} {k : K}

/-- The levels below the innermost one are left alone, and so is what that one restores. -/
structure Keeps (st st' : StackMap K V) : Prop where
  tail : st'.backups.tail = st.backups.tail
  nested : st.backups ≠ [] → st'.backups ≠ []
  restored : st.backups ≠ [] → st'.restored = st.restored

theorem Keeps.trans {st' st'' : StackMap K V} (first : Keeps st st') (second : Keeps st' st'') :
    Keeps st st'' where
  tail := second.tail.trans first.tail
  nested h := second.nested (first.nested h)
  restored h := (second.restored (first.nested h)).trans (first.restored h)

theorem level_cases (nested : st.backups ≠ []) (k : K) :
    (resetValue st.backups k = st.restored k ∧
        ∀ d, restored { st with current := d } k = st.restored k) ∨
      (resetValue st.backups k = resetValue st.backups.tail k ∧
        ∀ d, restored { st with current := d } k = d k) := by
  obtain ⟨_ | ⟨top, rest⟩, current⟩ := st
  · exact absurd rfl nested
  · cases found : top k <;> simp [resetValue, StackMap.restored, found]

theorem backed_reset (nested : st.backups ≠ []) :
    st.Backed (.reset k) ↔ resetValue st.backups k = st.restored k := by
  obtain ⟨_ | ⟨top, rest⟩, current⟩ := st
  · exact absurd rfl nested
  · cases found : top k <;> simp [Backed, recorded, resetValue, StackMap.restored, found]

variable [DecidableEq K]

def run : StackMap K V → Program K V → StackMap K V
  | st, .done => st
  | st, .step op rest => run (st.apply op) rest
  | st, .scope body rest => run (run st.save body).restore rest

/-- After each `restore` the contents are those at the matching `save`. -/
def Exact : StackMap K V → Program K V → Prop
  | _, .done => True
  | st, .step op rest => Exact (st.apply op) rest
  | st, .scope body rest => Exact st.save body ∧
      (run st.save body).restore.current = st.current ∧ Exact (run st.save body).restore rest

/-- Every reset between a `save` and its `restore` is backed. -/
def Careful (inside : Bool) : StackMap K V → Program K V → Prop
  | _, .done => True
  | st, .step op rest => (inside = true → st.Backed op) ∧ Careful inside (st.apply op) rest
  | st, .scope body rest =>
    Careful true st.save body ∧ Careful inside (run st.save body).restore rest

theorem record_keeps (st : StackMap K V) (k : K) (v : Option V) :
    Keeps st { st.record k with current := update st.current k v } := by
  obtain ⟨_ | ⟨top, rest⟩, current⟩ := st
  · exact ⟨rfl, id, fun nested => absurd rfl nested⟩
  · cases found : top k <;>
      refine ⟨by simp [record, found], by simp [record, found], fun _ => funext fun j => ?_⟩ <;>
      by_cases same : j = k <;> simp [StackMap.restored, record, same, found]

theorem assign_keeps (st : StackMap K V) (other : List (K × V)) : Keeps st (st.assign other) := by
  have cleared : Keeps st { backups := st.recordAll, current := fun _ => none } := by
    obtain ⟨_ | ⟨top, rest⟩, current⟩ := st
    · exact ⟨rfl, id, fun nested => absurd rfl nested⟩
    · refine ⟨rfl, fun _ => List.cons_ne_nil _ _, fun _ => funext fun j => ?_⟩
      cases found : top j <;> cases value : current j <;>
        simp [StackMap.restored, recordAll, found, value]
  rw [assign]
  generalize StackMap.mk st.recordAll _ = st' at cleared ⊢
  induction other generalizing st' with
  | nil => exact cleared
  | cons e other ih => exact ih _ (cleared.trans (record_keeps st' e.1 (some e.2)))

theorem reset_restored (nested : st.backups ≠ []) (k : K) :
    (st.reset k).restored = update st.restored k (resetValue st.backups k) := by
  obtain ⟨_ | ⟨top, rest⟩, current⟩ := st
  · exact absurd rfl nested
  · funext j
    cases found : top k <;> by_cases same : j = k <;>
      simp [StackMap.restored, reset, resetValue, same, found]

theorem apply_keeps (st : StackMap K V) {op : Op K V} (backed : st.Backed op) :
    Keeps st (st.apply op) := by
  cases op with
  | set k v => exact record_keeps st k (some v)
  | unset k => exact record_keeps st k none
  | assign other => exact assign_keeps st other
  | reset k =>
    refine ⟨rfl, id, fun nested => (reset_restored nested k).trans ?_⟩
    rw [(backed_reset nested).mp backed, update_eq_self]

theorem apply_cases (st : StackMap K V) (op : Op K V) :
    (st.Backed op ∧ Keeps st (st.apply op)) ∨ ∃ k, op = .reset k ∧ ¬ st.Backed op := by
  by_cases backed : st.Backed op
  · exact .inl ⟨backed, apply_keeps st backed⟩
  · cases op with
    | reset k => exact .inr ⟨k, rfl, backed⟩
    | _ => exact absurd trivial backed

theorem run_levels (st : StackMap K V) (p : Program K V) :
    (run st p).backups.tail = st.backups.tail := by
  induction p generalizing st with
  | done => rfl
  | step op p ih =>
    refine (ih (st.apply op)).trans ?_
    rcases apply_cases st op with ⟨-, keeps⟩ | ⟨k, rfl, -⟩
    · exact keeps.tail
    · rfl
  | scope body p body_ih ih =>
    have closed : (run st.save body).restore.backups = st.backups := body_ih st.save
    exact (ih _).trans (by rw [closed])

theorem restore_eq (st : StackMap K V) (body : Program K V) :
    (run st.save body).restore = { st with current := (run st.save body).restored } := by
  rw [restore, run_levels st.save body]
  rfl

/-- A level that restores a key to the backup of an outer level does so to the end: the outer levels
stay, so every reset gives the same value. -/
theorem run_stuck (p : Program K V) (st : StackMap K V) (nested : st.backups ≠ [])
    (stuck : st.restored k = resetValue st.backups.tail k) :
    (run st p).restored k = resetValue st.backups.tail k := by
  induction p generalizing st with
  | done => exact stuck
  | step op p ih =>
    rcases apply_cases st op with ⟨-, keeps⟩ | ⟨j, rfl, -⟩
    · rw [← keeps.tail] at stuck ⊢
      exact ih _ (keeps.nested nested) (by rw [keeps.restored nested, stuck])
    · refine ih (st.reset j) nested ((congrFun (reset_restored nested j) k).trans ?_)
      by_cases same : k = j
      · subst same
        rw [update_self]
        rcases level_cases nested k with ⟨own, -⟩ | ⟨outer, -⟩
        · exact own.trans stuck
        · exact outer
      · rw [update_of_ne same, stuck]
        rfl
  | scope body p body_ih ih =>
    rw [run, restore_eq]
    refine ih _ nested ?_
    rcases level_cases nested k with ⟨-, own⟩ | ⟨outer, now⟩
    · exact (own _).trans stuck
    · have inner := body_ih st.save (List.cons_ne_nil _ _)
        ((now st.current).symm.trans (stuck.trans outer.symm))
      exact (now _).trans (inner.trans outer)

theorem careful_iff (p : Program K V) (st : StackMap K V) (inside : Bool)
    (nested : inside = true → st.backups ≠ []) :
    Careful inside st p ↔ Exact st p ∧ (inside = true → (run st p).restored = st.restored) := by
  induction p generalizing st inside with
  | done => simp [Careful, Exact, run]
  | step op p ih =>
    rcases apply_cases st op with ⟨backed, keeps⟩ | ⟨k, rfl, unbacked⟩
    · rw [Careful, Exact, ih _ inside (fun yes => keeps.nested (nested yes)), run]
      constructor
      · rintro ⟨-, exact', same⟩
        exact ⟨exact', fun yes => (same yes).trans (keeps.restored (nested yes))⟩
      · rintro ⟨exact', same⟩
        exact ⟨fun _ => backed, exact', fun yes =>
          (same yes).trans (keeps.restored (nested yes)).symm⟩
    · cases inside with
      | false => simpa [Careful, Exact, StackMap.apply] using ih (st.reset k) false
      | true =>
        -- the level never gets the value of the key back
        have differs := (not_congr (backed_reset (nested rfl))).mp unbacked
        have outer := (level_cases (nested rfl) k).resolve_left (fun own => differs own.1)
        have stuck := run_stuck p (st.reset k) (nested rfl)
          ((congrFun (reset_restored (nested rfl) k) k).trans ((update_self ..).trans outer.1))
        refine iff_of_false (fun careful => unbacked (careful.1 rfl)) fun kept => differs ?_
        rw [outer.1, ← kept.2 rfl]
        exact stuck.symm
  | scope body p body_ih ih =>
    rw [Careful, Exact, body_ih st.save true (fun _ => List.cons_ne_nil _ _), run, restore_eq]
    constructor
    · rintro ⟨⟨inner, same⟩, careful⟩
      rw [show (run st.save body).restored = st.current from same rfl] at careful ⊢
      have rest := (ih st inside nested).mp careful
      exact ⟨⟨inner, rfl, rest.1⟩, rest.2⟩
    · rintro ⟨⟨inner, same, rest⟩, kept⟩
      rw [show (run st.save body).restored = st.current from same] at rest kept ⊢
      exact ⟨⟨inner, fun _ => rfl⟩, (ih st inside nested).mpr ⟨rest, kept⟩⟩

/-- Restores are exact when no reset between a save and its restore changes a key that the
innermost level has no backup of. -/
theorem restores_exact_iff (st : StackMap K V) (p : Program K V) :
    Exact st p ↔ Careful false st p := by
  simp [careful_iff p st false]

/-- A key set before the save and reset after it is gone after the restore. -/
theorem restore_misses_reset :
    ¬ Exact (StackMap.mk [] (fun _ => none) : StackMap Nat Nat)
      (.step (.set 0 1) (.scope (.step (.reset 0) .done) .done)) := by
  rintro ⟨-, same, -⟩
  exact absurd (congrFun same 0) (by decide)

end ManticoreFrontend.Kernel.StackMaps
