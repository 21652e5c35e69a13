/- source: kernel/rtlil.cc
   digest: The overloads of `replace` and `remove` against one simultaneous substitution. -/

import ManticoreFrontend.Kernel.SigSets
import ManticoreFrontend.Kernel.SigSpecForms

namespace ManticoreFrontend.Kernel.SigSpecPatterns

open Signals SigSpecs SigSpecForms SigSets List

/-- The bit in place of `b` when all rules look at `b` itself; the last one about it counts. -/
def substitute (rules : List (SigBit × SigBit)) (b : SigBit) : SigBit :=
  (rules.reverse.lookup b).getD b

/-- The bit in place of `b` when each rule looks at what the rules before it have left. -/
def rewrite (rules : List (SigBit × SigBit)) (b : SigBit) : SigBit :=
  rules.foldl (fun b r => if b = r.1 then r.2 else b) b

/-- `to_sigbit_dict`; the newest entry of a key stands first. -/
def toSigbitDict (o other : SigObject) : Option (List (SigBit × SigBit)) :=
  if o.width = other.width then
    some ((o.unpack.bits.zip other.unpack.bits).foldl (fun rules r => r :: rules) [])
  else none

/-- The signal that a call leaves in the object `i`. -/
def valueAt (result : Option Store) (i : Nat) : Option SigSpec :=
  result.bind fun store => (store[i]?).map SigObject.value

variable {rules : List (SigBit × SigBit)} {b : SigBit}

theorem lookup_none (absent : b ∉ rules.map Prod.fst) : rules.reverse.lookup b = none := by
  rw [lookup_eq_none_iff]
  intro r member
  have other : b ≠ r.1 := fun same => absent (same ▸ mem_map_of_mem (mem_reverse.mp member))
  simpa using other

theorem substitute_cons {r : SigBit × SigBit} (first : r.1 ∉ rules.map Prod.fst) :
    substitute (r :: rules) b = if b = r.1 then r.2 else substitute rules b := by
  obtain ⟨key, new⟩ := r
  rw [substitute, reverse_cons, lookup_append]
  by_cases same : b = key
  · simp [same, lookup_none first]
  · simp [same, lookup_cons, beq_false_of_ne same, substitute]

theorem substitute_hit (nodup : (rules.map Prod.fst).Nodup) {r : SigBit × SigBit}
    (member : r ∈ rules) : substitute rules r.1 = r.2 := by
  induction rules with
  | nil => cases member
  | cons s rules ih =>
    rw [map_cons, nodup_cons] at nodup
    rw [substitute_cons nodup.1]
    rcases mem_cons.mp member with rfl | later
    · rw [if_pos rfl]
    · have other : r.1 ≠ s.1 := fun same => nodup.1 (same ▸ mem_map_of_mem later)
      rw [if_neg other, ih nodup.2 later]

theorem lastMatch_eq :
    rules.foldl (fun new r => if b = r.1 then r.2 else new) b = substitute rules b := by
  induction rules using reverseRecOn with
  | nil => rfl
  | append_singleton rules r ih =>
    rw [foldl_append, foldl_cons, foldl_nil, ih, substitute, substitute, reverse_append,
      reverse_singleton, singleton_append, lookup_cons]
    by_cases same : b = r.1
    · simp [same]
    · simp [same, beq_false_of_ne same]

theorem rewrite_fixed (fixed : ∀ r ∈ rules, b = r.1 → r.2 = r.1) : rewrite rules b = b := by
  induction rules with
  | nil => rfl
  | cons r rules ih =>
    have stays : (if b = r.1 then r.2 else b) = b := by
      split
      · rename_i same
        rw [fixed r mem_cons_self same, same]
      · rfl
    show rewrite rules (if b = r.1 then r.2 else b) = b
    rw [stays]
    exact ih fun s later => fixed s (mem_cons_of_mem r later)

theorem rewrite_eq_iff (nodup : (rules.map Prod.fst).Nodup) :
    (∀ b, rewrite rules b = substitute rules b) ↔
      rules.Pairwise fun r s => r.2 = s.1 → s.2 = s.1 := by
  induction rules with
  | nil => simp [rewrite, substitute]
  | cons r rules ih =>
    rw [map_cons, nodup_cons] at nodup
    have step (b : SigBit) : rewrite (r :: rules) b = substitute (r :: rules) b ↔
        rewrite rules (if b = r.1 then r.2 else b) = if b = r.1 then r.2 else substitute rules b := by
      rw [substitute_cons nodup.1]
      rfl
    simp only [step, pairwise_cons, ← ih nodup.2]
    constructor
    · intro same
      have rest : ∀ b, rewrite rules b = substitute rules b := by
        intro b
        by_cases first : b = r.1
        · -- the first key is no later key, so the other rules leave it alone
          rw [first, substitute, lookup_none nodup.1]
          exact rewrite_fixed fun s later equal => absurd (equal ▸ mem_map_of_mem later) nodup.1
        · simpa [first] using same b
      refine ⟨?_, rest⟩
      intro s later meets
      have here := same r.1
      rwa [if_pos rfl, if_pos rfl, rest, meets, substitute_hit nodup.2 later] at here
    · intro ⟨head, rest⟩ b
      split
      · exact rewrite_fixed head
      · exact rest b

theorem foldl_modify {α : Type} (f : Nat → α → α) (l : List α) :
    (range l.length).foldl (fun l j => l.modify j (f j)) l = l.mapIdx f := by
  have run (n k : Nat) : ((range n).foldl (fun l j => l.modify j (f j)) l)[k]? =
      if k < n then (l[k]?).map (f k) else l[k]? := by
    induction n with
    | zero => rfl
    | succ n ih =>
      rw [range_succ, foldl_append, foldl_cons, foldl_nil, getElem?_modify, ih]
      by_cases here : n = k
      · simp [here]
      · have same : k < n + 1 ↔ k < n := by omega
        simp [here, same]
  apply ext_getElem?
  intro k
  rw [run, getElem?_mapIdx]
  split
  · rfl
  · rename_i outside
    simp [getElem?_eq_none (Nat.le_of_not_lt outside)]

/-- The loops of `replace` that write the bits `l` of the store `place l`: rule `r` turns the bit `b`
at `j` into `f j b r`. -/
theorem replaceRows (place : List SigBit → Store) (other : Nat)
    (f : Nat → SigBit → SigBit × SigBit → SigBit) (l : List SigBit) {old new : List SigBit}
    (wires : ∀ b ∈ old, b.isWire = true) (length : old.length = new.length)
    (pattern : ∀ l, Store.bitsOf (place l) 1 = old) (source : ∀ l, Store.bitsOf (place l) 2 = new)
    (size : ∀ l', l'.length = l.length → (Store.bitsOf (place l') 0).length = l'.length)
    (bit : ∀ r l j, (if (Store.bitsOf (place l) 0)[j]? = some r.1 then
      (place l).modify other (·.setBit j r.2) else place l) = place (l.modify j (f j · r))) :
    (range old.length).foldl (Store.replaceRow 0 1 2 other) (place l) =
      place (l.mapIdx fun j b => (old.zip new).foldl (f j) b) := by
  have row {n : Nat} {r : SigBit × SigBit} (rule : (old.zip new)[n]? = some r) (l' : List SigBit)
      (same : l'.length = l.length) :
      Store.replaceRow 0 1 2 other (place l') n = place (l'.mapIdx (f · · r)) := by
    obtain ⟨first, second⟩ := getElem?_zip_eq_some.mp rule
    have step (l' : List SigBit) (j : Nat) : Store.replaceBit 0 1 2 other n (place l') j =
        place (l'.modify j (f j · r)) := by
      rw [← bit, Store.replaceBit, pattern, source, first, second]
      cases (Store.bitsOf (place l') 0)[j]? <;> simp
    have wire : (old[n]?).any SigBit.isWire = true := by
      rw [first]
      exact wires _ (mem_of_getElem? first)
    rw [Store.replaceRow, pattern, if_pos wire, size l' same, foldl_hom place step, foldl_modify]
  have run (n : Nat) (inside : n ≤ old.length) :
      (range n).foldl (Store.replaceRow 0 1 2 other) (place l) =
        place (l.mapIdx fun j b => ((old.zip new).take n).foldl (f j) b) := by
    induction n with
    | zero =>
      have same : l.mapIdx (fun _ b => b) = l := ext_getElem? (by simp)
      simp [same]
    | succ n ih =>
      have full : n < (old.zip new).length := by
        rw [length_zip]
        omega
      rw [range_succ, foldl_append, ih (by omega), foldl_cons, foldl_nil,
        row (getElem?_eq_getElem full) _ (by simp), mapIdx_mapIdx, take_add_one,
        getElem?_eq_getElem full]
      simp [Function.comp_def]
  rw [run _ le_rfl, take_of_length_le (by simp)]

variable {o p w : SigObject}

def withBits (o : SigObject) (l : List SigBit) : SigObject := { o.unpack with bits := l }

@[simp] theorem withBits_value (l : List SigBit) : (withBits o l).value = l := by
  simp [withBits, SigObject.value]

theorem withBits_self (shaped : Shaped o) : withBits o o.value = o.unpack := by
  rw [withBits, ← shaped.holds.unpack_bits]

@[simp] theorem unpack_unpack : o.unpack.unpack = o.unpack := by
  rw [SigObject.unpack, unpack_chunks]
  rfl

theorem mapIdx_const {α β : Type} (f : α → β) (l : List α) : l.mapIdx (fun _ => f) = l.map f :=
  ext_getElem? (by simp)

section

variable (wires : ∀ b ∈ p.value, b.isWire = true) (length : p.value.length = w.value.length)
  (shapedO : Shaped o) (shapedP : Shaped p) (shapedW : Shaped w)

include wires length shapedO shapedP shapedW

theorem replace_self : valueAt (Store.replace [o, p, w] 0 1 2 0) 0 =
    some (o.value.map (rewrite (p.value.zip w.value))) := by
  have widths : p.width = w.width := by rw [shapedP.width, shapedW.width, length]
  have pattern : Store.bitsOf [o.unpack, p.unpack, w.unpack] 1 = p.value :=
    shapedP.holds.unpack_bits
  have rows := replaceRows (fun l => [withBits o l, p.unpack, w.unpack]) 0
    (fun _ b r => if b = r.1 then r.2 else b) o.value wires length
    (fun l => shapedP.holds.unpack_bits) (fun l => shapedW.holds.unpack_bits) (fun l _ => rfl) ?_
  · rw [mapIdx_const, withBits_self shapedO] at rows
    simp [Store.replace, widths, pattern, rows, valueAt, rewrite]
  · intro r l j
    show (if l[j]? = some r.1 then [withBits o (l.set j r.2), p.unpack, w.unpack] else _) = _
    rw [modify_eq_set_getElem?]
    rcases lt_or_ge j l.length with inside | outside
    · rw [getElem?_eq_getElem inside]
      by_cases same : l[j] = r.1 <;> simp [same]
    · simp [getElem?_eq_none outside]

theorem replace_copy : valueAt (Store.replace [o, p, w, o] 0 1 2 3) 3 =
    some (o.value.map (substitute (p.value.zip w.value))) := by
  have widths : p.width = w.width := by rw [shapedP.width, shapedW.width, length]
  have pattern : Store.bitsOf [o.unpack, p.unpack, w.unpack, o.unpack] 1 = p.value :=
    shapedP.holds.unpack_bits
  have rows := replaceRows (fun l => [o.unpack, p.unpack, w.unpack, withBits o l]) 3
    (fun j b r => if o.value[j]? = some r.1 then r.2 else b) o.value wires length
    (fun l => shapedP.holds.unpack_bits) (fun l => shapedW.holds.unpack_bits)
    (fun l same => (congrArg List.length shapedO.holds.unpack_bits).trans same.symm) ?_
  · have same : (o.value.mapIdx fun j b => (p.value.zip w.value).foldl
        (fun b r => if o.value[j]? = some r.1 then r.2 else b) b) =
        o.value.map (substitute (p.value.zip w.value)) := by
      apply ext_getElem?
      intro j
      rw [getElem?_mapIdx, getElem?_map]
      cases o.value[j]? with
      | none => rfl
      | some b => simp [← lastMatch_eq]
    rw [same, withBits_self shapedO] at rows
    simp [Store.replace, widths, pattern, rows, valueAt]
  · intro r l j
    show (if o.unpack.bits[j]? = some r.1 then
      [o.unpack, p.unpack, w.unpack, withBits o (l.set j r.2)] else _) = _
    rw [shapedO.holds.unpack_bits, set_eq_modify]
    split
    · rfl
    · rw [show l.modify j (fun b => b) = l from modify_id j l]

end

theorem replaceRules_self (shaped : Shaped o) (rules : List (SigBit × SigBit)) :
    valueAt (Store.replaceRules [o] 0 rules 0) 0 =
      some (o.value.map fun b => (rules.lookup b).getD b) := by
  have rule (l : List SigBit) (i : Nat) : Store.replaceRule 0 0 rules [withBits o l] i =
      [withBits o (l.modify i fun b => (rules.lookup b).getD b)] := by
    have read : Store.bitsOf [withBits o l] 0 = l := rfl
    rw [Store.replaceRule, read, modify_eq_set_getElem?]
    rcases lt_or_ge i l.length with inside | outside
    · rw [getElem?_eq_getElem inside, Option.bind_some]
      cases found : rules.lookup l[i] with
      | none => simp [found]
      | some b => simp [found, withBits, SigObject.setBit]
    · simp [getElem?_eq_none outside]
  have run : (range o.value.length).foldl (Store.replaceRule 0 0 rules) [withBits o o.value] = _ :=
    foldl_hom (fun l => [withBits o l]) rule
  have places : Store.bitsOf [o.unpack] 0 = o.value := shaped.holds.unpack_bits
  rw [foldl_modify fun _ b => (rules.lookup b).getD b, mapIdx_const, withBits_self shaped] at run
  cases rules with
  | nil => simp [Store.replaceRules, valueAt]
  | cons r rules => simp [Store.replaceRules, valueAt, places, run]

theorem hit_eq (shaped : Shaped p) : (b.isWire && (p.pack.chunks.map covers).any (· b)) =
    (b.isWire && [fun b => p.value.contains b].any (· b)) := by
  have same : (p.pack.chunks.map covers).any (· b) = covered p.value b := by
    rw [shaped.holds.pack_chunks, any_map]
    rfl
  rw [same, Bool.eq_iff_iff, Bool.and_eq_true, covered_iff]
  simp

theorem remove2_agree (shaped : Shaped p) (t : SigObject) {other : Option Nat} {i : Nat}
    (companion : other = none ∨ other = some 2) :
    valueAt (Store.remove2 [o, p, t] 0 (.signal 1) other) i =
      valueAt (Store.remove2 [o, p, t] 0 (.pool p.value) other) i := by
  have same (t : Option SigObject) :
      o.remove2 (fun b => (p.pack.chunks.map covers).any (· b)) t =
        o.remove2 (fun b => [fun b => p.value.contains b].any (· b)) t := by
    simp only [SigObject.remove2, hit_eq shaped]
  have packed (a c : SigObject) : (([a, p.pack, c] : Store)[i]?).map SigObject.value =
      (([a, p, c] : Store)[i]?).map SigObject.value := by
    rw [← getElem?_map, ← getElem?_map]
    simp only [map_cons, map_nil, shaped.holds.pack.value]
  rcases companion with rfl | rfl <;>
    simp only [Store.remove2, Store.tests, Pattern.isObject, getElem?_cons_zero, getElem?_cons_succ,
      Option.bind_eq_bind, Option.bind_some, Option.pure_def, same, valueAt] <;>
    cases o.value.any SigBit.isWire <;> simp [packed, Option.bind_assoc]

/-- All overloads of `replace` make the same simultaneous replacement in a signal, and both kinds of
pattern remove the same bits. -/
structure Simultaneous (p w o : SigObject) : Prop where
  inPlace : valueAt (Store.replace [o, p, w] 0 1 2 0) 0 =
    some (o.value.map (substitute (p.value.zip w.value)))
  copied : valueAt (Store.replace [o, p, w, o] 0 1 2 3) 3 =
    some (o.value.map (substitute (p.value.zip w.value)))
  dict : ∃ rules, toSigbitDict p w = some rules ∧ valueAt (Store.replaceRules [o] 0 rules 0) 0 =
    some (o.value.map (substitute (p.value.zip w.value)))
  removed : ∀ t i other, other = none ∨ other = some 2 →
    valueAt (Store.remove2 [o, p, t] 0 (.signal 1) other) i =
      valueAt (Store.remove2 [o, p, t] 0 (.pool p.value) other) i

/-- The overloads agree when no new bit is the pattern of a later rule, unless that rule keeps it. -/
theorem pattern_operations_iff (shapedP : Shaped p) (shapedW : Shaped w) (nodup : p.value.Nodup)
    (wires : ∀ b ∈ p.value, b.isWire = true) (length : p.value.length = w.value.length) :
    (∀ o, Shaped o → Simultaneous p w o) ↔
      (p.value.zip w.value).Pairwise fun r s => r.2 = s.1 → s.2 = s.1 := by
  have keys : ((p.value.zip w.value).map Prod.fst).Nodup := by
    rwa [map_fst_zip length.le]
  rw [← rewrite_eq_iff keys]
  constructor
  · intro simultaneous b
    have holds := holds_ofBits [b]
    have here := (replace_self wires length holds.shaped shapedP shapedW).symm.trans
      (simultaneous _ holds.shaped).inPlace
    simpa [holds.value] using here
  · intro same o shaped
    have dict : toSigbitDict p w = some (p.value.zip w.value).reverse := by
      rw [toSigbitDict, if_pos (by rw [shapedP.width, shapedW.width, length]),
        shapedP.holds.unpack_bits, shapedW.holds.unpack_bits, foldl_flip_cons_eq_append, append_nil,
        map_id']
    exact {
      inPlace := by rw [replace_self wires length shaped shapedP shapedW, funext same]
      copied := replace_copy wires length shaped shapedP shapedW
      dict := ⟨_, dict, replaceRules_self shaped _⟩
      removed := fun t i other companion => remove2_agree shapedP t companion }

def bitOf (name : String) : SigBit := .wire ⟨name, 1, false, false⟩ ⟨0, Nat.one_pos⟩

/-- Moving each bit to the next one works from the front. -/
theorem pattern_operations_shift : Simultaneous (.ofBits [bitOf "a", bitOf "b"])
    (.ofBits [bitOf "c", bitOf "a"]) (.ofBits [bitOf "b", bitOf "a"]) := by
  have pattern := holds_ofBits [bitOf "a", bitOf "b"]
  have new := holds_ofBits [bitOf "c", bitOf "a"]
  refine (pattern_operations_iff pattern.shaped new.shaped ?_ ?_ ?_).mpr ?_ _
    (holds_ofBits _).shaped <;> simp only [pattern.value, new.value] <;> decide

/-- Two bits that change places: the first row makes both `b`, the second turns both into `a`. -/
theorem swap_reads_written :
    valueAt (Store.replace [.ofBits [bitOf "a", bitOf "b"], .ofBits [bitOf "a", bitOf "b"],
      .ofBits [bitOf "b", bitOf "a"]] 0 1 2 0) 0 = some [bitOf "a", bitOf "a"] ∧
    [bitOf "a", bitOf "b"].map (substitute [(bitOf "a", bitOf "b"), (bitOf "b", bitOf "a")]) =
      [bitOf "b", bitOf "a"] := by
  decide +kernel

end ManticoreFrontend.Kernel.SigSpecPatterns
