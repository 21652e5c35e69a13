/- source: kernel/hashlib.h
   digest: Any sequence of calls on a merge-find-promote structure keeps the classes that the merged
     pairs generate. -/

import ManticoreFrontend.Foundation.Representatives
import ManticoreFrontend.Kernel.MergeFind

namespace ManticoreFrontend.Kernel.UnionRuns

open Foundation ParentForest Representatives MergeFind

variable {original parents : List (Option Nat)} {i k n p fuel fuel' : Nat}

section

variable (climb : Climbs (parentOf original) k n p)
  (ahead : ∀ x, OnPath (parentOf original) k x → parentOf parents x = parentOf original x)

include climb ahead

theorem compressLoop_fuel (enough : n ≤ fuel) (enough' : n ≤ fuel') :
    compressLoop p fuel k parents = compressLoop p fuel' k parents := by
  induction climb generalizing fuel fuel' parents with
  | @here k root =>
    have stop : ∀ f, compressLoop k f k parents = parents := by
      intro f
      cases f with
      | zero => rfl
      | succ f => simp [compressLoop]
    rw [stop, stop]
  | @up k q n p parent rest ih =>
    obtain ⟨f, rfl⟩ : ∃ f, fuel = f + 1 := ⟨fuel - 1, by omega⟩
    obtain ⟨f', rfl⟩ : ∃ f, fuel' = f + 1 := ⟨fuel' - 1, by omega⟩
    have next : parentOf parents k = some q := by rw [ahead k (.here k), parent]
    by_cases own : k = p
    · simp [compressLoop, own]
    · simp only [compressLoop, own, if_false, next]
      exact ih (ahead_set parent ⟨n, rest⟩ ahead) (by omega) (by omega)

theorem promoteLoop_fuel (enough : n < fuel) (enough' : n < fuel') :
    promoteLoop i fuel (some k) parents = promoteLoop i fuel' (some k) parents := by
  induction climb generalizing fuel fuel' parents with
  | @here k root =>
    obtain ⟨f, rfl⟩ : ∃ f, fuel = f + 1 := ⟨fuel - 1, by omega⟩
    obtain ⟨f', rfl⟩ : ∃ f, fuel' = f + 1 := ⟨fuel' - 1, by omega⟩
    have stop : parentOf parents k = none := by rw [ahead k (.here k), root]
    have done : ∀ f, promoteLoop i f none (parents.set k (some i)) = parents.set k (some i) := by
      intro f
      cases f <;> rfl
    simp only [promoteLoop, stop, done]
  | @up k q n p parent rest ih =>
    obtain ⟨f, rfl⟩ : ∃ f, fuel = f + 1 := ⟨fuel - 1, by omega⟩
    obtain ⟨f', rfl⟩ : ∃ f, fuel' = f + 1 := ⟨fuel' - 1, by omega⟩
    have next : parentOf parents k = some q := by rw [ahead k (.here k), parent]
    simp only [promoteLoop, next]
    exact ih (ahead_set parent ⟨n, rest⟩ ahead) (by omega) (by omega)

end

/-- The loops of `ifind` and `ipromote` end: no bound above the number of nodes changes what they do. -/
def LoopsEnd (parents : List (Option Nat)) : Prop :=
  ∀ i fuel, parents.length < fuel →
    rootLoop parents fuel i = rootLoop parents parents.length i ∧
    compressLoop (rootLoop parents fuel i) fuel i parents =
      compressLoop (rootLoop parents parents.length i) parents.length i parents ∧
    promoteLoop i fuel (some i) parents = promoteLoop i (parents.length + 1) (some i) parents

theorem loopsEnd_of_forest (forest : Forest (parentOf parents)) : LoopsEnd parents := by
  intro i fuel enough
  obtain ⟨r, k, climb⟩ := forest i
  have bound : k ≤ parents.length := climb.le_of_bounded (parentOf_bounded parents)
  have root : rootLoop parents parents.length i = r := rootLoop_eq climb bound
  have root' : rootLoop parents fuel i = r := rootLoop_eq climb (by omega)
  rw [root, root']
  refine ⟨rfl, ?_, ?_⟩
  · exact compressLoop_fuel climb (fun _ _ => rfl) (by omega) bound
  · exact promoteLoop_fuel climb (fun _ _ => rfl) (by omega) (by omega)

section Calls

variable {K : Type} [DecidableEq K]

variable (m : Mfp K)

/-- What `find` does to the parents, besides returning `m.find a`. -/
def findState (a : K) : Mfp K :=
  match m.database.idxOf? a with
  | none => m
  | some i => (m.ifind i).2

def merge (a b : K) : Mfp K :=
  let (i, m) := m.index a
  let (j, m) := m.index b
  m.imerge i j

def promote (a : K) : Mfp K :=
  match m.database.idxOf? a with
  | none => m
  | some i => m.ipromote i

inductive Call (K : Type)
  | index (key : K)
  | lookup (a : K)
  | find (a : K)
  | ifind (i : Nat)
  | merge (a b : K)
  | imerge (i j : Nat)
  | promote (a : K)
  | ipromote (i : Nat)

def call : Call K → Mfp K
  | .index key => (m.index key).2
  | .lookup a => (m.lookup a).2
  | .find a => findState m a
  | .ifind i => (m.ifind i).2
  | .merge a b => merge m a b
  | .imerge i j => m.imerge i j
  | .promote a => promote m a
  | .ipromote i => m.ipromote i

def Call.InBounds : Call K → Prop
  | .ifind i | .ipromote i => i < m.database.length
  | .imerge i j => i < m.database.length ∧ j < m.database.length
  | _ => True

def Call.pair : Call K → List (K × K)
  | .merge a b => [(a, b)]
  | .imerge i j =>
    match m.database[i]?, m.database[j]? with
    | some a, some b => [(a, b)]
    | _, _ => []
  | _ => []

/-- The structures after any sequence of calls, with the pairs merged so far. -/
inductive Reached : Mfp K → List (K × K) → Prop
  | start : Reached {} []
  | call {m : Mfp K} {pairs : List (K × K)} {c : Call K} (before : Reached m pairs)
      (inside : c.InBounds m) : Reached (call m c) (pairs ++ c.pair m)

end Calls

section Effects

variable {K : Type} [DecidableEq K] {m : Mfp K} {i : Nat} {a : K}

private theorem idxOf?_key (h : m.database.idxOf? a = some i) : m.database[i]? = some a := by
  obtain ⟨inside, key, -⟩ := List.idxOf?_eq_some_iff.mp h
  exact List.getElem?_eq_some_iff.mpr ⟨inside, key⟩

theorem find_merge (valid : m.Valid) (a b : K) :
    (merge m a b).Valid ∧
      ∀ c, (merge m a b).find c = if m.find c = m.find a then m.find b else m.find c := by
  obtain ⟨valid₁, key₁, -, find₁⟩ := valid.index a
  obtain ⟨valid₂, key₂, ⟨tail, grows⟩, find₂⟩ := valid₁.index b
  have keyA : ((m.index a).2.index b).2.database[(m.index a).1]? = some a := by
    obtain ⟨inside, -⟩ := List.getElem?_eq_some_iff.mp key₁
    rw [← grows, List.getElem?_append_left inside, key₁]
  obtain ⟨merged, -, moved⟩ := valid₂.find_imerge keyA key₂
  refine ⟨merged, fun c => ?_⟩
  have find : ∀ c, ((m.index a).2.index b).2.find c = m.find c := fun c => (find₂ c).trans (find₁ c)
  have same := moved c
  rw [find, find, find] at same
  exact same

theorem find_promote (valid : m.Valid) (a : K) :
    (promote m a).Valid ∧
      ∀ c, (promote m a).find c = if m.find c = m.find a then a else m.find c := by
  unfold promote
  cases found : m.database.idxOf? a with
  | some i =>
    exact valid.find_ipromote (idxOf?_key found)
  | none =>
    have own : m.find a = a := by simp [Mfp.find, found]
    refine ⟨valid, fun c => ?_⟩
    by_cases same : m.find c = m.find a
    · rw [if_pos same, same, own]
    · rw [if_neg same]

theorem find_findState (valid : m.Valid) (a : K) :
    (findState m a).Valid ∧ ∀ c, (findState m a).find c = m.find c := by
  unfold findState
  cases found : m.database.idxOf? a with
  | some i =>
    obtain ⟨-, valid', -, same⟩ := valid.find_ifind (idxOf?_key found)
    exact ⟨valid', same⟩
  | none => exact ⟨valid, fun _ => rfl⟩

end Effects

section Runs

variable {K : Type} [DecidableEq K] {m : Mfp K} {pairs : List (K × K)}

/-- What every call keeps: a forest over the stored keys, whose classes the merged pairs generate. -/
structure Represents (m : Mfp K) (pairs : List (K × K)) : Prop where
  valid : m.Valid
  classes : Classes m.find pairs

private theorem Represents.keep {m' : Mfp K} (h : Represents m pairs) (valid : m'.Valid)
    (same : ∀ c, m'.find c = m.find c) : Represents m' (pairs ++ []) := by
  refine ⟨valid, ?_⟩
  rw [List.append_nil]
  exact h.classes.congr (fun x y => by rw [same, same])

private theorem Represents.promoted {m' : Mfp K} {a : K} (h : Represents m pairs) (valid : m'.Valid)
    (move : ∀ c, m'.find c = if m.find c = m.find a then a else m.find c) :
    Represents m' (pairs ++ []) := by
  refine ⟨valid, ?_⟩
  rw [List.append_nil]
  exact h.classes.congr (same_of_promote h.valid.find_idempotent move)

theorem Represents.call {c : Call K} (h : Represents m pairs) (inside : c.InBounds m) :
    Represents (UnionRuns.call m c) (pairs ++ c.pair m) := by
  have stored : ∀ {i}, i < m.database.length → ∃ a, m.database[i]? = some a := fun inside =>
    ⟨_, List.getElem?_eq_getElem inside⟩
  cases c with
  | index key =>
    obtain ⟨valid, -, -, same⟩ := h.valid.index key
    exact h.keep valid same
  | lookup a =>
    obtain ⟨valid, -, -, same⟩ := h.valid.lookup a
    exact h.keep valid same
  | find a =>
    obtain ⟨valid, same⟩ := find_findState h.valid a
    exact h.keep valid same
  | ifind i =>
    obtain ⟨a, key⟩ := stored inside
    obtain ⟨-, valid, -, same⟩ := h.valid.find_ifind key
    exact h.keep valid same
  | merge a b =>
    obtain ⟨valid, moved⟩ := find_merge h.valid a b
    exact ⟨valid, h.classes.unite (unites_of_move moved)⟩
  | imerge i j =>
    obtain ⟨a, keyI⟩ := stored inside.1
    obtain ⟨b, keyJ⟩ := stored inside.2
    obtain ⟨valid, -, moved⟩ := h.valid.find_imerge keyI keyJ
    simp only [Call.pair, keyI, keyJ]
    exact ⟨valid, h.classes.unite (unites_of_move moved)⟩
  | promote a =>
    obtain ⟨valid, moved⟩ := find_promote h.valid a
    exact h.promoted valid moved
  | ipromote i =>
    obtain ⟨a, key⟩ := stored inside
    obtain ⟨valid, moved⟩ := h.valid.find_ipromote key
    exact h.promoted valid moved

theorem Reached.represents (reached : Reached m pairs) : Represents m pairs := by
  induction reached with
  | start => exact ⟨Mfp.valid_empty, classes_start⟩
  | call _ inside ih => exact ih.call inside

/-- After every sequence of calls the parents are a forest on which the loops end, the classes are
those of the merged pairs, representatives are fixed points, searches change none, a merge keeps the
representative of its second class, and a promoted key is the representative. -/
theorem union_find_correct (reached : Reached m pairs) :
    Forest (parentOf m.parents) ∧ LoopsEnd m.parents ∧
    (∀ a b, m.find a = m.find b ↔ Joined pairs a b) ∧
    (∀ a, m.find (m.find a) = m.find a) ∧
    (∀ i a, m.database[i]? = some a → m.database[(m.ifind i).1]? = some (m.find a) ∧
      ∀ x, (m.ifind i).2.find x = m.find x) ∧
    (∀ i j a b, m.database[i]? = some a → m.database[j]? = some b →
      ∀ x, (m.imerge i j).find x = if m.find x = m.find a then m.find b else m.find x) ∧
    (∀ a b x, (merge m a b).find x = if m.find x = m.find a then m.find b else m.find x) ∧
    (∀ i a, m.database[i]? = some a →
      ∀ x, (m.ipromote i).find x = if m.find x = m.find a then a else m.find x) ∧
    (∀ a x, (promote m a).find x = if m.find x = m.find a then a else m.find x) := by
  obtain ⟨valid, classes⟩ := reached.represents
  refine ⟨valid.forest, loopsEnd_of_forest valid.forest, classes, valid.find_idempotent, ?_, ?_, ?_,
    ?_, ?_⟩
  · intro i a key
    obtain ⟨found, -, -, same⟩ := valid.find_ifind key
    exact ⟨found, same⟩
  · intro i j a b keyI keyJ
    exact (valid.find_imerge keyI keyJ).2.2
  · intro a b
    exact (find_merge valid a b).2
  · intro i a key
    exact (valid.find_ipromote key).2
  · intro a
    exact (find_promote valid a).2

theorem union_find_three_keys : ∃ (m : Mfp Nat) (pairs : List (Nat × Nat)), Reached m pairs ∧
    pairs = [(1, 2), (2, 3)] ∧ m.find 1 = m.find 3 ∧ m.find 3 = 1 ∧
    (m.find 1 = m.find 4 ↔ Joined pairs 1 4) := by
  have reached : Reached (call (call (call (call ({} : Mfp Nat) (.merge 1 2)) (.merge 2 3))
      (.promote 1)) (.find 3)) ([(1, 2), (2, 3)] : List (Nat × Nat)) :=
    .call (c := .find 3) (.call (c := .promote 1) (.call (c := .merge 2 3)
      (.call (c := .merge 1 2) .start trivial) trivial) trivial) trivial
  obtain ⟨-, -, classes, -⟩ := union_find_correct reached
  exact ⟨_, _, reached, rfl, by decide, by decide, classes 1 4⟩

end Runs

end ManticoreFrontend.Kernel.UnionRuns
