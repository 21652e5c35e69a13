/- source: kernel/sigtools.h (SigMap), kernel/rtlil.h (Module connections)
   digest: The alias map of a module's connections, and that it only identifies equal bits. -/

import ManticoreFrontend.Kernel.MergeFind
import ManticoreFrontend.Kernel.Signals

namespace ManticoreFrontend.Kernel.SigTools

open MergeFind Signals

/-- A connection drives the wire bits on its left by the bits on its right. `Module::connect`
drops constant bits on the left. -/
structure Connection where
  lhs : SigSpec
  rhs : SigSpec
  length : lhs.length = rhs.length
  wires : ∀ b ∈ lhs, b.isWire = true

def Connection.pairs (c : Connection) : List (SigBit × SigBit) := c.lhs.zip c.rhs

abbrev SigMap := Mfp SigBit

def addBit (m : SigMap) (lhs rhs : SigBit) : SigMap :=
  let (bfi, m) := m.lookup lhs
  let (bti, m) := m.lookup rhs
  let bf := m.database.getD bfi lhs
  let bt := m.database.getD bti rhs
  if bf.isWire || bt.isWire then
    let m := m.imerge bfi bti
    let m := if bf.isWire = false then m.ipromote bfi else m
    if bt.isWire = false then m.ipromote bti else m
  else m

def add (m : SigMap) (c : Connection) : SigMap := c.pairs.foldl (fun m p => addBit m p.1 p.2) m

def set (connections : List Connection) : SigMap := connections.foldl add {}

/-- The representative of a bit, `SigMap::operator()`. -/
def apply (m : SigMap) (b : SigBit) : SigBit := m.find b

/-- An added pair moves the class of the left bit to the right representative, unless the left one
is a constant, which is kept. Two constants are not joined. -/
def joined (rep : SigBit → SigBit) (lhs rhs b : SigBit) : SigBit :=
  if (rep lhs).isWire then if rep b = rep lhs then rep rhs else rep b
  else if (rep rhs).isWire then if rep b = rep rhs then rep lhs else rep b
  else rep b

variable {m : SigMap} {lhs rhs : SigBit}

theorem addBit_find (valid : m.Valid) (lhs rhs : SigBit) :
    (addBit m lhs rhs).Valid ∧ ∀ b, (addBit m lhs rhs).find b = joined m.find lhs rhs b := by
  obtain ⟨valid₁, key₁, -, find₁⟩ := valid.lookup lhs
  obtain ⟨valid₂, keyT, ⟨tail, grows⟩, find₂⟩ := valid₁.lookup rhs
  simp only [addBit]
  generalize (m.lookup lhs).1 = bfi at *
  generalize (m.lookup lhs).2 = m₁ at *
  generalize (m₁.lookup rhs).1 = bti at *
  generalize (m₁.lookup rhs).2 = m₂ at *
  have keyF : m₂.database[bfi]? = some (m.find lhs) := by
    obtain ⟨inside, -⟩ := List.getElem?_eq_some_iff.mp key₁
    rw [← grows, List.getElem?_append_left inside, key₁]
  have find : ∀ b, m₂.find b = m.find b := fun b => (find₂ b).trans (find₁ b)
  rw [find₁ rhs] at keyT
  obtain ⟨merged, database, findM⟩ := valid₂.find_imerge keyF keyT
  simp only [find, valid.find_idempotent] at findM
  have bf : m₂.database.getD bfi lhs = m.find lhs := by simp [keyF]
  have bt : m₂.database.getD bti rhs = m.find rhs := by simp [keyT]
  rw [bf, bt]
  rw [← database] at keyF keyT
  cases wireF : (m.find lhs).isWire <;> cases wireT : (m.find rhs).isWire
  · exact ⟨valid₂, fun b => by simp [joined, wireF, wireT, find b]⟩
  · obtain ⟨promoted, findP⟩ := merged.find_ipromote keyF
    refine ⟨by simpa using promoted, fun b => ?_⟩
    simp only [Bool.or_true, if_true, Bool.true_eq_false, if_false, joined, wireF, wireT, findP b,
      findM, valid.find_idempotent, Bool.false_eq_true]
    by_cases h : m.find b = m.find lhs <;> simp [h]
  · obtain ⟨promoted, findP⟩ := merged.find_ipromote keyT
    refine ⟨by simpa using promoted, fun b => ?_⟩
    simp only [Bool.or_false, if_true, Bool.true_eq_false, if_false, joined, wireF, findP b, findM,
      valid.find_idempotent]
    by_cases h : m.find b = m.find lhs
    · simp [h]
    · simp only [h, if_false, ite_eq_right_iff]
      grind
  · refine ⟨by simpa using merged, fun b => ?_⟩
    simp [joined, wireF, findM b]

theorem moved_constant {rep : SigBit → SigBit} {a b c : SigBit} (fixed : rep c = c)
    (wire : (rep a).isWire = true) (constant : c.isWire = false) :
    (if rep c = rep a then b else rep c) = c := by
  rw [if_neg, fixed]
  intro same
  rw [fixed] at same
  rw [← same, constant] at wire
  cases wire

theorem joined_constant {rep : SigBit → SigBit} {c : SigBit} (fixed : rep c = c)
    (constant : c.isWire = false) : joined rep lhs rhs c = c := by
  unfold joined
  split
  · rename_i wire
    exact moved_constant fixed wire constant
  · split
    · rename_i wire
      exact moved_constant fixed wire constant
    · exact fixed

theorem set_eq (connections : List Connection) :
    set connections = (connections.flatMap Connection.pairs).foldl (fun m p => addBit m p.1 p.2) {} := by
  unfold set add
  rw [List.foldl_flatMap]

theorem set_keeps {P : (SigBit → SigBit) → Prop} {connections : List Connection} (start : P id)
    (step : ∀ c ∈ connections, ∀ p ∈ c.pairs, ∀ rep, P rep → P (joined rep p.1 p.2)) :
    (set connections).Valid ∧ P (apply (set connections)) := by
  rw [set_eq]
  refine List.foldlRecOn (motive := fun m : SigMap => m.Valid ∧ P (apply m)) _ _
    ⟨Mfp.valid_empty, start⟩ ?_
  rintro m ⟨valid, known⟩ p member
  obtain ⟨c, listed, inside⟩ := List.mem_flatMap.mp member
  obtain ⟨valid', find⟩ := addBit_find valid p.1 p.2
  have same : apply (addBit m p.1 p.2) = joined (apply m) p.1 p.2 := funext find
  rw [same]
  exact ⟨valid', step c listed p inside _ known⟩

variable {β : Type} {val : SigBit → β}

theorem joined_sound {rep : SigBit → SigBit} (sound : ∀ b, val (rep b) = val b)
    (equal : val lhs = val rhs) (b : SigBit) : val (joined rep lhs rhs b) = val b := by
  have joint : val (rep lhs) = val (rep rhs) := by rw [sound, sound, equal]
  unfold joined
  split
  · split
    · rename_i same
      rw [← joint, ← same, sound]
    · exact sound b
  · split
    · split
      · rename_i same
        rw [joint, ← same, sound]
      · exact sound b
    · exact sound b

theorem apply_sound {connections : List Connection}
    (equal : ∀ c ∈ connections, ∀ p ∈ c.pairs, val p.1 = val p.2) (b : SigBit) :
    val (apply (set connections) b) = val b :=
  (set_keeps (P := fun rep => ∀ b, val (rep b) = val b) (fun _ => rfl)
    (fun c listed p inside _ sound => joined_sound sound (equal c listed p inside))).2 b

end ManticoreFrontend.Kernel.SigTools
