/- source: kernel/hashlib.h (mfp)
   digest: The merge-find-promote structure: the loops over parent pointers, and what each operation
     does to the representative of a key. -/

import ManticoreFrontend.Foundation.ParentForest

namespace ManticoreFrontend.Kernel.MergeFind

open Foundation.ParentForest List

/-- `mfp`: the keys by index, and a parent index for each. The parent `-1` is `none`. -/
structure Mfp (K : Type) where
  database : List K := []
  parents : List (Option Nat) := []

def parentOf (parents : List (Option Nat)) (i : Nat) : Option Nat := parents.getD i none

def rootLoop (parents : List (Option Nat)) : (fuel p : Nat) → Nat
  | 0, p => p
  | fuel + 1, p =>
    match parentOf parents p with
    | none => p
    | some q => rootLoop parents fuel q

/-- The second loop of `ifind`, which points the nodes on the way at `p`. -/
def compressLoop (p : Nat) : (fuel k : Nat) → List (Option Nat) → List (Option Nat)
  | 0, _, parents => parents
  | fuel + 1, k, parents =>
    if k = p then parents
    else
      match parentOf parents k with
      | none => parents
      | some next => compressLoop p fuel next (parents.set k (some p))

def promoteLoop (i : Nat) : (fuel : Nat) → Option Nat → List (Option Nat) → List (Option Nat)
  | fuel + 1, some k, parents => promoteLoop i fuel (parentOf parents k) (parents.set k (some i))
  | _, _, parents => parents

namespace Mfp

variable {K : Type} [DecidableEq K]

variable (m : Mfp K)

def ifind (i : Nat) : Nat × Mfp K :=
  let p := rootLoop m.parents m.parents.length i
  (p, { m with parents := compressLoop p m.parents.length i m.parents })

def imerge (i j : Nat) : Mfp K :=
  let (i, m) := m.ifind i
  let (j, m) := m.ifind j
  if i ≠ j then { m with parents := m.parents.set i (some j) } else m

def ipromote (i : Nat) : Mfp K :=
  { m with parents := (promoteLoop i (m.parents.length + 1) (some i) m.parents).set i none }

/-- `operator()`: the index of a key, which is added when it is new. -/
def index (key : K) : Nat × Mfp K :=
  match m.database.idxOf? key with
  | some i => (i, m)
  | none => (m.database.length, ⟨m.database ++ [key], m.parents ++ [none]⟩)

def lookup (a : K) : Nat × Mfp K :=
  let (i, m) := m.index a
  m.ifind i

/-- `find`; the path compression of this `const` method is left out, since no result depends on it. -/
def find (a : K) : K :=
  match m.database.idxOf? a with
  | none => a
  | some i => m.database.getD (m.ifind i).1 a

/-- The parent pointers stay inside the database and lead to a root from every node. -/
structure Valid : Prop where
  length : m.parents.length = m.database.length
  nodup : m.database.Nodup
  inside : ∀ i p, parentOf m.parents i = some p → p < m.database.length
  forest : Forest (parentOf m.parents)

end Mfp

variable {parents : List (Option Nat)} {i j k p r : Nat}

theorem parentOf_set (parents : List (Option Nat)) (h : k < parents.length) (a : Option Nat) :
    parentOf (parents.set k a) = Function.update (parentOf parents) k a := by
  funext x
  unfold parentOf
  by_cases same : x = k
  · subst same
    simp [h]
  · rw [Function.update_of_ne same]
    simp [Ne.symm same]

theorem parentOf_bounded (parents : List (Option Nat)) (i : Nat) (h : parentOf parents i ≠ none) :
    i < parents.length := by
  by_contra past
  exact h (by simp [parentOf, Nat.le_of_not_lt past])

theorem rootLoop_eq {fuel : Nat} (climb : Climbs (parentOf parents) i k r) (enough : k ≤ fuel) :
    rootLoop parents fuel i = r := by
  induction climb generalizing fuel with
  | here root =>
    cases fuel with
    | zero => rfl
    | succ fuel => simp [rootLoop, root]
  | up parent rest ih =>
    obtain ⟨fuel, rfl⟩ : ∃ f, fuel = f + 1 := ⟨fuel - 1, by omega⟩
    simp only [rootLoop, parent]
    exact ih (by omega)

theorem rootLoop_root (above : Root (parentOf parents) i r) :
    rootLoop parents parents.length i = r := by
  obtain ⟨k, climb⟩ := above
  exact rootLoop_eq climb (climb.le_of_bounded (parentOf_bounded parents))

theorem compressLoop_redirected (fuel : Nat) (forest : Forest (parentOf parents))
    (above : Root (parentOf parents) k p) :
    Redirected (parentOf parents) (parentOf (compressLoop p fuel k parents)) ∧
      (compressLoop p fuel k parents).length = parents.length := by
  induction fuel generalizing k parents with
  | zero => exact ⟨.refl _, rfl⟩
  | succ fuel ih =>
    unfold compressLoop
    split
    · exact ⟨.refl _, rfl⟩
    · rename_i differ
      cases pointer : parentOf parents k with
      | none => exact ⟨.refl _, rfl⟩
      | some next =>
        have here : k < parents.length := parentOf_bounded parents k (by simp [pointer])
        have step : Redirected (parentOf parents) (parentOf (parents.set k (some p))) := by
          intro x
          rw [parentOf_set parents here]
          by_cases same : x = k
          · subst same
            exact Or.inr ⟨p, Function.update_self _ _ _, differ, above⟩
          · exact Or.inl (Function.update_of_ne same _ _)
        obtain ⟨rest, length⟩ := ih (step.forest forest) (step.root (above.of_parent pointer))
        exact ⟨step.trans rest forest, by simpa using length⟩

/-- What lies ahead of a loop is unchanged by the pointers it sets behind itself. -/
theorem ahead_set {original : List (Option Nat)} {q : Nat} {a : Option Nat}
    (parent : parentOf original k = some q) (climb : Root (parentOf original) q p)
    (ahead : ∀ x, OnPath (parentOf original) k x → parentOf parents x = parentOf original x) :
    ∀ x, OnPath (parentOf original) q x → parentOf (parents.set k a) x = parentOf original x := by
  intro x path
  have next : parentOf parents k = some q := by rw [ahead k (.here k), parent]
  have inside : k < parents.length := parentOf_bounded parents k (by simp [next])
  have other : x ≠ k := path.ne_child parent climb
  rw [parentOf_set parents inside, Function.update_of_ne other]
  exact ahead x (.up parent path)

/-- The loop of a promotion points the whole way at `i`. The nodes ahead are unchanged when it comes
to them, since the way meets no node twice. -/
theorem promoteLoop_path {original : List (Option Nat)} {fuel : Nat}
    (climb : Climbs (parentOf original) k j r) (enough : j < fuel)
    (ahead : ∀ x, OnPath (parentOf original) k x → parentOf parents x = parentOf original x)
    (length : parents.length = original.length) (inside : r < original.length) :
    (promoteLoop i fuel (some k) parents).length = original.length ∧
      ∀ x, (OnPath (parentOf original) k x →
          parentOf (promoteLoop i fuel (some k) parents) x = some i) ∧
        (¬ OnPath (parentOf original) k x →
          parentOf (promoteLoop i fuel (some k) parents) x = parentOf parents x) := by
  induction climb generalizing fuel parents with
  | @here k root =>
    obtain ⟨fuel, rfl⟩ : ∃ f, fuel = f + 1 := ⟨fuel - 1, by omega⟩
    have stop : parentOf parents k = none := by rw [ahead k (.here k), root]
    have done : promoteLoop i (fuel + 1) (some k) parents = parents.set k (some i) := by
      rw [promoteLoop, stop]
      cases fuel <;> rfl
    have only : ∀ x, OnPath (parentOf original) k x → x = k := by
      intro x path
      cases path with
      | here => rfl
      | up parent => simp [root] at parent
    rw [done, parentOf_set parents (by omega)]
    refine ⟨by simpa using length, fun x => ⟨fun path => ?_, fun apart => ?_⟩⟩
    · rw [only x path, Function.update_self]
    · rw [Function.update_of_ne]
      rintro rfl
      exact apart (.here x)
  | @up k q j r parent rest ih =>
    obtain ⟨fuel, rfl⟩ : ∃ f, fuel = f + 1 := ⟨fuel - 1, by omega⟩
    have next : parentOf parents k = some q := by rw [ahead k (.here k), parent]
    have here : k < parents.length := parentOf_bounded parents k (by simp [next])
    rw [promoteLoop, next]
    have enough' : j < fuel := by omega
    have apart : ¬ OnPath (parentOf original) q k := fun path => path.ne_child parent ⟨j, rest⟩ rfl
    obtain ⟨size, rest⟩ := ih enough' (ahead_set parent ⟨j, rest⟩ ahead) (by simpa using length)
      inside
    refine ⟨size, fun x => ⟨fun path => ?_, fun apart => ?_⟩⟩
    · cases path with
      | here => rw [(rest k).2 apart, parentOf_set parents here, Function.update_self]
      | up parent' path =>
        obtain rfl := Option.some.inj (parent.symm.trans parent')
        exact (rest x).1 path
    · have other : x ≠ k := by
        rintro rfl
        exact apart (.here x)
      rw [(rest x).2 (fun path => apart (.up parent path)), parentOf_set parents here,
        Function.update_of_ne other]

namespace Mfp

variable {K : Type} {m : Mfp K} {i r : Nat}

theorem Valid.root_lt (valid : m.Valid) (h : i < m.database.length)
    (above : Root (parentOf m.parents) i r) : r < m.database.length := by
  obtain ⟨k, climb⟩ := above
  induction climb with
  | here => exact h
  | up parent _ ih => exact ih (valid.inside _ _ parent)

theorem Valid.root_lt_of_ne (valid : m.Valid) (above : Root (parentOf m.parents) i r)
    (differ : i ≠ r) : r < m.database.length := by
  cases parent : parentOf m.parents i with
  | none => exact absurd (above.eq_self parent).symm differ
  | some p => exact valid.root_lt (valid.inside i p parent) (above.of_parent parent)

theorem Valid.ifind (valid : m.Valid) (i : Nat) :
    Root (parentOf m.parents) i (m.ifind i).1 ∧ (m.ifind i).2.Valid ∧
      (m.ifind i).2.database = m.database ∧
      ∀ x r, Root (parentOf (m.ifind i).2.parents) x r ↔ Root (parentOf m.parents) x r := by
  obtain ⟨r, above⟩ := valid.forest i
  have found : (m.ifind i).1 = r := rootLoop_root above
  obtain ⟨redirected, length⟩ :=
    compressLoop_redirected m.parents.length valid.forest (found.symm ▸ above)
  refine ⟨found.symm ▸ above, ⟨?_, valid.nodup, ?_, ?_⟩, rfl, ?_⟩
  · exact length.trans valid.length
  · intro x p pointer
    rcases redirected x with same | ⟨q, pointer', differ, root⟩
    · exact valid.inside x p (same.symm.trans pointer)
    · obtain rfl := Option.some.inj (pointer.symm.trans pointer')
      exact valid.root_lt_of_ne root differ
  · exact redirected.forest valid.forest
  · exact fun x r => redirected.root_iff valid.forest

theorem Valid.imerge {j p q : Nat} (valid : m.Valid) (hi : i < m.database.length)
    (hj : j < m.database.length) (rootI : Root (parentOf m.parents) i p)
    (rootJ : Root (parentOf m.parents) j q) :
    (m.imerge i j).Valid ∧ (m.imerge i j).database = m.database ∧
      ∀ x r, Root (parentOf m.parents) x r →
        Root (parentOf (m.imerge i j).parents) x (if r = p then q else r) := by
  obtain ⟨foundI, valid₁, database₁, roots₁⟩ := valid.ifind i
  obtain ⟨foundJ, valid₂, database₂, roots₂⟩ := valid₁.ifind j
  have atI : (m.ifind i).1 = p := foundI.unique rootI
  have atJ : ((m.ifind i).2.ifind j).1 = q := ((roots₁ _ _).mp foundJ).unique rootJ
  have roots : ∀ x r, Root (parentOf ((m.ifind i).2.ifind j).2.parents) x r ↔
      Root (parentOf m.parents) x r := fun x r => (roots₂ x r).trans (roots₁ x r)
  have database : ((m.ifind i).2.ifind j).2.database = m.database := database₂.trans database₁
  simp only [Mfp.imerge, atI, atJ]
  by_cases same : p = q
  · rw [if_neg (not_not.mpr same)]
    refine ⟨valid₂, database, fun x r above => ?_⟩
    have unchanged : (if r = p then q else r) = r := by
      split
      · omega
      · rfl
    rw [unchanged]
    exact (roots x r).mpr above
  · rw [if_pos same]
    have here : p < ((m.ifind i).2.ifind j).2.parents.length := by
      rw [valid₂.length, database]
      exact valid.root_lt hi rootI
    have linked : ∀ x r, Root (parentOf m.parents) x r →
        Root (parentOf (((m.ifind i).2.ifind j).2.parents.set p (some q))) x
          (if r = p then q else r) := by
      intro x r above
      rw [parentOf_set _ here]
      exact ((roots x r).mpr above).link ((roots i p).mpr rootI).root_none
        ((roots j q).mpr rootJ).root_none same
    refine ⟨⟨?_, valid₂.nodup, ?_, ?_⟩, database, linked⟩
    · simpa using valid₂.length
    · intro x y pointer
      rw [parentOf_set _ here] at pointer
      by_cases own : x = p
      · subst own
        rw [Function.update_self] at pointer
        obtain rfl := Option.some.inj pointer
        exact database.symm ▸ valid.root_lt hj rootJ
      · rw [Function.update_of_ne own] at pointer
        exact valid₂.inside x y pointer
    · intro x
      obtain ⟨r, above⟩ := valid.forest x
      exact ⟨_, linked x r above⟩

theorem Valid.ipromote {top : Nat} (valid : m.Valid) (hi : i < m.database.length)
    (own : Root (parentOf m.parents) i top) :
    (m.ipromote i).Valid ∧ (m.ipromote i).database = m.database ∧
      ∀ x r, Root (parentOf m.parents) x r →
        Root (parentOf (m.ipromote i).parents) x (if r = top then i else r) := by
  obtain ⟨k, climb⟩ := own
  have enough : k < m.parents.length + 1 :=
    Nat.lt_succ_of_le (climb.le_of_bounded (parentOf_bounded m.parents))
  have top_lt : top < m.parents.length := by
    rw [valid.length]
    exact valid.root_lt hi ⟨k, climb⟩
  obtain ⟨length, path⟩ := promoteLoop_path (i := i) climb enough (fun _ _ => rfl) rfl top_lt
  have here : i < (promoteLoop i (m.parents.length + 1) (some i) m.parents).length := by
    rw [length, valid.length]
    exact hi
  have promoted : Promoted (parentOf m.parents) (parentOf (m.ipromote i).parents) i := by
    refine ⟨?_, fun x other => ?_⟩
    · simp [Mfp.ipromote, parentOf_set _ here]
    · simp only [Mfp.ipromote, parentOf_set _ here, Function.update_of_ne other]
      exact path x
  have roots : ∀ x r, Root (parentOf m.parents) x r →
      Root (parentOf (m.ipromote i).parents) x (if r = top then i else r) := fun x r above =>
    promoted.root ⟨k, climb⟩ above
  refine ⟨⟨?_, valid.nodup, ?_, ?_⟩, rfl, roots⟩
  · simpa [Mfp.ipromote] using length.trans valid.length
  · intro x p pointer
    by_cases own : x = i
    · subst own
      rw [promoted.1] at pointer
      cases pointer
    · by_cases on : OnPath (parentOf m.parents) i x
      · rw [(promoted.2 x own).1 on] at pointer
        obtain rfl := Option.some.inj pointer
        exact hi
      · rw [(promoted.2 x own).2 on] at pointer
        exact valid.inside x p pointer
  · intro x
    obtain ⟨r, above⟩ := valid.forest x
    exact ⟨_, roots x r above⟩

section Keys

variable {m m' : Mfp K} {a b : K}

variable {l : List K}

theorem index_unique (nodup : l.Nodup) {j : Nat} (h : l[i]? = some a)
    (h' : l[j]? = some a) : i = j := by
  obtain ⟨hi, rfl⟩ := List.getElem?_eq_some_iff.mp h
  obtain ⟨hj, same⟩ := List.getElem?_eq_some_iff.mp h'
  exact ((nodup.getElem_inj_iff).mp same).symm

/-- `b` stands at the root of `a`; a key that is not stored stands for itself. -/
def Rep (m : Mfp K) (a b : K) : Prop :=
  (a ∉ m.database ∧ b = a) ∨
    ∃ i r, m.database[i]? = some a ∧ Root (parentOf m.parents) i r ∧ m.database[r]? = some b

theorem Rep.unique (valid : m.Valid) {b' : K} (rep : Rep m a b) (rep' : Rep m a b') : b = b' := by
  rcases rep with ⟨absent, rfl⟩ | ⟨i, r, key, above, value⟩ <;>
    rcases rep' with ⟨absent', rfl⟩ | ⟨i', r', key', above', value'⟩
  · rfl
  · exact absurd (mem_of_getElem? key') absent
  · exact absurd (mem_of_getElem? key) absent'
  · obtain rfl := index_unique valid.nodup key key'
    obtain rfl := above.unique above'
    exact Option.some.inj (value.symm.trans value')

theorem valid_empty : (⟨[], []⟩ : Mfp K).Valid :=
  ⟨rfl, nodup_nil, by simp [parentOf], fun i => ⟨i, .self (by simp [parentOf])⟩⟩

variable [DecidableEq K]

section

variable (valid : m.Valid)

include valid

theorem Valid.find_rep (a : K) : Rep m a (m.find a) := by
  unfold Mfp.find
  cases found : m.database.idxOf? a with
  | none => exact Or.inl ⟨idxOf?_eq_none_iff.mp found, rfl⟩
  | some i =>
    obtain ⟨inside, key, -⟩ := List.idxOf?_eq_some_iff.mp found
    obtain ⟨above, -, -, -⟩ := valid.ifind i
    have root := valid.root_lt inside above
    refine Or.inr ⟨i, _, List.getElem?_eq_some_iff.mpr ⟨inside, key⟩, above, ?_⟩
    simp [root]

theorem Rep.find_eq (rep : Rep m a b) : m.find a = b :=
  (valid.find_rep a).unique valid rep

theorem Valid.find_map {f : Nat → Nat} {g : K → K} (valid' : m'.Valid)
    (database : m'.database = m.database)
    (roots : ∀ x r, Root (parentOf m.parents) x r → Root (parentOf m'.parents) x (f r))
    (keys : ∀ r c, m.database[r]? = some c → m.database[f r]? = some (g c))
    (fixed : ∀ c, c ∉ m.database → g c = c) (a : K) : m'.find a = g (m.find a) := by
  apply Rep.find_eq valid'
  rcases valid.find_rep a with ⟨absent, same⟩ | ⟨i, r, key, above, value⟩
  · rw [same, fixed a absent]
    exact Or.inl ⟨database ▸ absent, rfl⟩
  · refine Or.inr ⟨i, f r, database ▸ key, roots i r above, ?_⟩
    rw [database]
    exact keys r _ value

theorem Valid.index (a : K) :
    (m.index a).2.Valid ∧ (m.index a).2.database[(m.index a).1]? = some a ∧
      m.database <+: (m.index a).2.database ∧ ∀ b, (m.index a).2.find b = m.find b := by
  unfold Mfp.index
  cases found : m.database.idxOf? a with
  | some i =>
    obtain ⟨inside, key, -⟩ := List.idxOf?_eq_some_iff.mp found
    exact ⟨valid, List.getElem?_eq_some_iff.mpr ⟨inside, key⟩, List.prefix_refl _, fun _ => rfl⟩
  | none =>
    have absent := idxOf?_eq_none_iff.mp found
    have same : parentOf (m.parents ++ [none]) = parentOf m.parents := by
      funext x
      by_cases h : x < m.parents.length
      · simp [parentOf, getElem?_append_left h]
      · rw [parentOf, parentOf, getD, getD, getElem?_append_right (not_lt.mp h),
          getElem?_eq_none (not_lt.mp h)]
        cases x - m.parents.length <;> rfl
    have valid' : (⟨m.database ++ [a], m.parents ++ [none]⟩ : Mfp K).Valid := by
      refine ⟨by simp [valid.length], ?_, ?_, ?_⟩
      · exact (perm_append_singleton a _).nodup_iff.mpr (nodup_cons.mpr ⟨absent, valid.nodup⟩)
      · intro x p pointer
        have := valid.inside x p (same ▸ pointer)
        simp only [length_append, length_singleton]
        omega
      · simpa [same] using valid.forest
    refine ⟨valid', by simp, prefix_append _ _, fun b => ?_⟩
    apply Rep.find_eq valid'
    rcases valid.find_rep b with ⟨missing, eq⟩ | ⟨i, r, key, above, value⟩
    · by_cases own : b = a
      · subst own
        have root : parentOf m.parents m.database.length = none := by
          rw [← valid.length]
          simp [parentOf]
        rw [eq]
        refine Or.inr ⟨m.database.length, m.database.length, by simp, ?_, by simp⟩
        exact .self (by rw [same, root])
      · exact Or.inl ⟨by simp [missing, own], eq⟩
    · have grow : ∀ {x : Nat} {c : K}, m.database[x]? = some c →
          (m.database ++ [a])[x]? = some c := fun {x c} h => by
        rw [List.getElem?_append_left (List.getElem?_eq_some_iff.mp h).1]
        exact h
      exact Or.inr ⟨i, r, grow key, same.symm ▸ above, grow value⟩

theorem Valid.find_of_root (key : m.database[i]? = some a)
    (above : Root (parentOf m.parents) i r) : m.database[r]? = some (m.find a) := by
  obtain ⟨inside, -⟩ := List.getElem?_eq_some_iff.mp key
  have root : r < m.database.length := valid.root_lt inside above
  have value : m.database[r]? = some m.database[r] := getElem?_eq_getElem root
  have rep : Rep m a m.database[r] := Or.inr ⟨i, r, key, above, value⟩
  rw [value, rep.find_eq valid]

theorem Valid.find_idempotent (a : K) : m.find (m.find a) = m.find a := by
  rcases valid.find_rep a with ⟨absent, same⟩ | ⟨i, r, key, above, value⟩
  · rw [same, same]
  · have rep : Rep m (m.find a) (m.find a) := Or.inr ⟨r, r, value, .self above.root_none, value⟩
    exact rep.find_eq valid

theorem Valid.find_ifind (key : m.database[i]? = some a) :
    m.database[(m.ifind i).1]? = some (m.find a) ∧ (m.ifind i).2.Valid ∧
      (m.ifind i).2.database = m.database ∧ ∀ x, (m.ifind i).2.find x = m.find x := by
  obtain ⟨above, valid', database, roots⟩ := valid.ifind i
  refine ⟨valid.find_of_root key above, valid', database, fun x => ?_⟩
  exact valid.find_map (f := id) (g := id) valid' database (fun y r h => (roots y r).mpr h)
    (fun _ _ h => h) (fun _ _ => rfl) x

theorem Valid.lookup (a : K) :
    (m.lookup a).2.Valid ∧ (m.lookup a).2.database[(m.lookup a).1]? = some (m.find a) ∧
      m.database <+: (m.lookup a).2.database ∧ ∀ b, (m.lookup a).2.find b = m.find b := by
  obtain ⟨valid₁, key, grows, finds₁⟩ := valid.index a
  obtain ⟨found, valid₂, database, finds₂⟩ := valid₁.find_ifind key
  rw [finds₁, ← database] at found
  exact ⟨valid₂, found, database ▸ grows, fun b => (finds₂ b).trans (finds₁ b)⟩

end

private theorem moved_key (nodup : l.Nodup) {i j r : Nat} {a b c : K}
    (keyI : l[i]? = some a) (keyJ : l[j]? = some b) (key : l[r]? = some c) :
    l[if r = i then j else r]? = some (if c = a then b else c) := by
  by_cases h : r = i
  · subst h
    obtain rfl := Option.some.inj (key.symm.trans keyI)
    simpa using keyJ
  · have differ : c ≠ a := by
      rintro rfl
      exact h (index_unique nodup key keyI)
    simpa [h, differ] using key

private theorem moved_fixed {i : Nat} {a b c : K} (keyI : l[i]? = some a)
    (absent : c ∉ l) : (if c = a then b else c) = c := by
  rw [if_neg]
  rintro rfl
  exact absent (mem_of_getElem? keyI)

theorem Valid.find_imerge {j : Nat} (valid : m.Valid) (keyI : m.database[i]? = some a)
    (keyJ : m.database[j]? = some b) :
    (m.imerge i j).Valid ∧ (m.imerge i j).database = m.database ∧
      ∀ c, (m.imerge i j).find c = if m.find c = m.find a then m.find b else m.find c := by
  obtain ⟨p, rootI⟩ := valid.forest i
  obtain ⟨q, rootJ⟩ := valid.forest j
  have keyP := valid.find_of_root keyI rootI
  have keyQ := valid.find_of_root keyJ rootJ
  obtain ⟨merged, database, roots⟩ := valid.imerge (List.getElem?_eq_some_iff.mp keyI).1
    (List.getElem?_eq_some_iff.mp keyJ).1 rootI rootJ
  refine ⟨merged, database, fun c => ?_⟩
  exact valid.find_map merged database roots (fun r c key => moved_key valid.nodup keyP keyQ key)
    (fun c absent => moved_fixed keyP absent) c

theorem Valid.find_ipromote (valid : m.Valid) (keyI : m.database[i]? = some a) :
    (m.ipromote i).Valid ∧
      ∀ c, (m.ipromote i).find c = if m.find c = m.find a then a else m.find c := by
  obtain ⟨top, own⟩ := valid.forest i
  have keyTop := valid.find_of_root keyI own
  obtain ⟨promoted, database, roots⟩ := valid.ipromote (List.getElem?_eq_some_iff.mp keyI).1 own
  refine ⟨promoted, fun c => ?_⟩
  exact valid.find_map promoted database roots (fun r c key => moved_key valid.nodup keyTop keyI key)
    (fun c absent => moved_fixed keyTop absent) c

end Keys

end Mfp

end ManticoreFrontend.Kernel.MergeFind
