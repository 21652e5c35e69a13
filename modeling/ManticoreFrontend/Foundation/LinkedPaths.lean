/- digest: Paths through a table of successor links, and how they change when one link does. -/

import Mathlib.Data.List.Nodup

namespace ManticoreFrontend.Foundation.LinkedPaths

/-- The nodes met from one pointer until another; a negative pointer is no node. -/
def Path (link : Nat → Option Int) : Int → List Nat → Int → Prop
  | start, [], stop => start = stop
  | start, i :: rest, stop => start = i ∧ ∃ next, link i = some next ∧ Path link next rest stop

variable {link link' : Nat → Option Int} {start stop : Int} {nodes front rest : List Nat} {i : Nat}

@[simp] theorem path_nil : Path link start [] stop ↔ start = stop := Iff.rfl

@[simp] theorem path_cons : Path link start (i :: rest) stop ↔
    start = i ∧ ∃ next, link i = some next ∧ Path link next rest stop := Iff.rfl

theorem path_append : Path link start (front ++ rest) stop ↔
    ∃ middle, Path link start front middle ∧ Path link middle rest stop := by
  induction front generalizing start with
  | nil => simp
  | cons i front ih =>
    simp only [List.cons_append, path_cons, ih]
    constructor
    · rintro ⟨rfl, next, hnext, middle, before, after⟩
      exact ⟨middle, ⟨rfl, next, hnext, before⟩, after⟩
    · rintro ⟨middle, ⟨rfl, next, hnext, before⟩, after⟩
      exact ⟨rfl, next, hnext, middle, before, after⟩

theorem Path.congr (path : Path link start nodes stop) (same : ∀ i ∈ nodes, link' i = link i) :
    Path link' start nodes stop := by
  induction nodes generalizing start with
  | nil => exact path
  | cons i nodes ih =>
    obtain ⟨rfl, next, hnext, tail⟩ := path
    exact ⟨rfl, next, (same i (by simp)).trans hnext, ih tail (fun j hj => same j (by simp [hj]))⟩

theorem Path.redirect {target : Int} (path : Path link start (front ++ [i]) stop)
    (changed : link' i = some target)
    (same : ∀ j ∈ front, link' j = link j) : Path link' start (front ++ [i]) target := by
  obtain ⟨middle, before, last, _⟩ := path_append.mp path
  exact path_append.mpr ⟨middle, before.congr same, last, target, changed, rfl⟩

section

variable (path : Path link start nodes stop)

include path

/-- A path to a pointer that is no node cannot meet a node twice. -/
theorem Path.unique {other : List Nat} (negative : stop < 0) (path' : Path link start other stop) :
    nodes = other := by
  induction nodes generalizing start other with
  | nil =>
    cases other with
    | nil => rfl
    | cons j other =>
      obtain ⟨at_j, _⟩ := path'
      rw [path_nil.mp path] at at_j
      omega
  | cons i nodes ih =>
    obtain ⟨at_i, next, hnext, tail⟩ := path
    cases other with
    | nil =>
      rw [path_nil.mp path'] at at_i
      omega
    | cons j other =>
      obtain ⟨at_j, next', hnext', tail'⟩ := path'
      obtain rfl : i = j := by omega
      obtain rfl : next = next' := Option.some.inj (hnext.symm.trans hnext')
      rw [ih tail tail']

theorem Path.nodup (negative : stop < 0) : nodes.Nodup := by
  induction nodes generalizing start with
  | nil => exact List.nodup_nil
  | cons i nodes ih =>
    obtain ⟨_, next, hnext, tail⟩ := path
    refine List.nodup_cons.mpr ⟨?_, ih tail⟩
    -- A second visit would make the part after it as long as the whole.
    intro again
    obtain ⟨before, after, rfl⟩ := List.append_of_mem again
    obtain ⟨middle, _, at_i, next', hnext', rest⟩ := path_append.mp tail
    obtain rfl : next = next' := Option.some.inj (hnext.symm.trans hnext')
    have same := congrArg List.length (tail.unique negative rest)
    simp at same
    omega

theorem Path.linked : ∀ i ∈ nodes, (link i).isSome := by
  induction nodes generalizing start with
  | nil => simp
  | cons i nodes ih =>
    obtain ⟨_, next, hnext, tail⟩ := path
    intro j hj
    rcases List.mem_cons.mp hj with rfl | later
    · simp [hnext]
    · exact ih tail j later

theorem Path.start_mem : start = stop ∧ nodes = [] ∨ ∃ j ∈ nodes, start = j := by
  cases nodes with
  | nil => exact .inl ⟨path, rfl⟩
  | cons j nodes => exact .inr ⟨j, by simp, path.1⟩

theorem Path.next_mem {next : Int} (member : i ∈ nodes) (linked : link i = some next) :
    next = stop ∨ ∃ j ∈ nodes, next = j := by
  obtain ⟨before, after, rfl⟩ := List.append_of_mem member
  obtain ⟨middle, _, _, next', hnext', rest⟩ := path_append.mp path
  obtain rfl : next = next' := Option.some.inj (linked.symm.trans hnext')
  rcases rest.start_mem with ⟨last, -⟩ | ⟨j, later, at_j⟩
  · exact .inl last
  · exact .inr ⟨j, by simp [later], at_j⟩

end

end ManticoreFrontend.Foundation.LinkedPaths
