/- source: kernel/rtlil.cc (Module::count_id, Module::uniquify)
   digest: The search for a name that no object of a module has. -/

import ManticoreFrontend.Kernel.Netlist

namespace ManticoreFrontend.Kernel.Netlist

open CellTypes

def Module.names (mod : Module) : List IdString :=
  mod.wires.map (·.name) ++ mod.memories.map (·.name) ++ mod.cells.map (·.name)

def Module.countId (mod : Module) (id : IdString) : Nat := mod.names.count id

def numbered (name : IdString) (index : Nat) : IdString := name ++ "_" ++ toString index

/-- The search loop of `uniquify`; `fuel` bounds the number of names tried. -/
def uniquifyLoop (mod : Module) (name : IdString) : Nat → Nat → Option (IdString × Nat)
  | 0, _ => none
  | fuel + 1, index =>
    if mod.countId (numbered name index) = 0 then some (numbered name index, index)
    else uniquifyLoop mod name fuel (index + 1)

/-- `uniquify`, with the counter it returns by reference. -/
def Module.uniquify (mod : Module) (name : IdString) (index : Nat) : Option (IdString × Nat) :=
  if index = 0 then
    if mod.countId name = 0 then some (name, 0)
    else uniquifyLoop mod name (mod.names.length + 1) 1
  else uniquifyLoop mod name (mod.names.length + 1) index

variable {mod : Module} {name found : IdString} {fuel index next : Nat}

theorem numbered_injective (name : IdString) : Function.Injective (numbered name) := by
  intro i j same
  have text : toString i = toString j := by
    simpa [numbered] using same
  have digits : Nat.toDigits 10 i = Nat.toDigits 10 j := String.ofList_injective text
  rw [← Nat.ofDigitChars_ten_toDigits (n := i), digits, Nat.ofDigitChars_ten_toDigits]

theorem uniquifyLoop_fresh (h : uniquifyLoop mod name fuel index = some (found, next)) :
    found ∉ mod.names := by
  induction fuel generalizing index with
  | zero => cases h
  | succ fuel ih =>
    simp only [uniquifyLoop] at h
    split at h
    · rename_i free
      obtain ⟨rfl, -⟩ := Prod.mk.inj (Option.some.inj h)
      exact List.count_eq_zero.mp free
    · exact ih h

theorem uniquifyLoop_none (h : uniquifyLoop mod name fuel index = none) :
    ∀ k < fuel, numbered name (index + k) ∈ mod.names := by
  induction fuel generalizing index with
  | zero => intro k below; omega
  | succ fuel ih =>
    simp only [uniquifyLoop] at h
    split at h
    · cases h
    · rename_i taken
      intro k below
      cases k with
      | zero => exact List.count_pos_iff.mp (Nat.pos_of_ne_zero taken)
      | succ k =>
        have := ih h k (by omega)
        rwa [show index + (k + 1) = index + 1 + k by omega]

theorem uniquifyLoop_ends (mod : Module) (name : IdString) (index : Nat) :
    ∃ found next, uniquifyLoop mod name (mod.names.length + 1) index = some (found, next) := by
  cases h : uniquifyLoop mod name (mod.names.length + 1) index with
  | some pair => exact ⟨pair.1, pair.2, rfl⟩
  | none =>
    have taken := uniquifyLoop_none h
    let tried := (List.range (mod.names.length + 1)).map fun k => numbered name (index + k)
    have distinct : tried.Nodup := by
      refine List.Nodup.map ?_ List.nodup_range
      intro i j same
      have := numbered_injective name same
      omega
    have inside : tried ⊆ mod.names := by
      intro id member
      obtain ⟨k, below, rfl⟩ := List.mem_map.mp member
      exact taken k (List.mem_range.mp below)
    have short := (distinct.subperm inside).length_le
    simp [tried] at short

theorem Module.uniquify_spec (mod : Module) (name : IdString) (index : Nat) :
    ∃ found next, mod.uniquify name index = some (found, next) ∧ found ∉ mod.names := by
  rw [Module.uniquify]
  by_cases first : index = 0
  · rw [if_pos first]
    by_cases free : mod.countId name = 0
    · rw [if_pos free]
      exact ⟨name, 0, rfl, List.count_eq_zero.mp free⟩
    · rw [if_neg free]
      obtain ⟨found, next, loop⟩ := uniquifyLoop_ends mod name 1
      exact ⟨found, next, loop, uniquifyLoop_fresh loop⟩
  · rw [if_neg first]
    obtain ⟨found, next, loop⟩ := uniquifyLoop_ends mod name index
    exact ⟨found, next, loop, uniquifyLoop_fresh loop⟩

end ManticoreFrontend.Kernel.Netlist
