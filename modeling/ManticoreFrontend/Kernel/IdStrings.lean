/- source: kernel/rtlil.h (IdString)
   digest: Interned identifiers with reference counts: the four global tables and the operations of
     `IdString` objects. -/

import Mathlib.Logic.Function.Basic

namespace ManticoreFrontend.Kernel.IdStrings

/-- A C string without its terminating zero. -/
abbrev CString := List UInt8

/-- What `c_str()` shows of a `std::string`: the bytes before the first zero. -/
def cStr (s : List UInt8) : CString := s.takeWhile (· ≠ 0)

/-- The global tables; a null pointer of the storage is `none`, the free list is kept back first. -/
structure Tables where
  guardOk : Bool
  globalIdStorage : List (Option CString)
  globalIdIndex : CString → Option Nat
  globalRefcountStorage : List Int
  globalFreeIdxList : List Nat

def Tables.initial : Tables :=
  { guardOk := true
    globalIdStorage := []
    globalIdIndex := fun _ => none
    globalRefcountStorage := []
    globalFreeIdxList := [] }

/-- The largest `int`; counting past it is undefined. -/
def maxInt : Int := 2147483647

variable (t : Tables)

def increment (idx : Nat) : Option Tables := do
  let refcount ← t.globalRefcountStorage[idx]?
  if refcount < maxInt then
    some { t with globalRefcountStorage := t.globalRefcountStorage.set idx (refcount + 1) }
  else none

/-- `get_reference(int)`; it returns its argument. -/
def getReferenceByIndex (idx : Nat) : Option Tables :=
  if idx ≠ 0 then increment t idx else some t

/-- The first use of the tables stores the empty string at index 0. -/
def reserveEmpty : Tables :=
  if t.globalIdStorage = [] then
    { t with
      globalRefcountStorage := t.globalRefcountStorage ++ [0]
      globalIdStorage := t.globalIdStorage ++ [some []]
      globalIdIndex := Function.update t.globalIdIndex [] (some 0) }
  else t

def growTables : Option Tables := do
  let t := reserveEmpty t
  guard (t.globalIdStorage.length < 0x40000000)
  some { t with
    globalFreeIdxList := t.globalIdStorage.length :: t.globalFreeIdxList
    globalIdStorage := t.globalIdStorage ++ [none]
    globalRefcountStorage := t.globalRefcountStorage ++ [0] }

def ensureFree : Option Tables :=
  if t.globalFreeIdxList = [] then growTables t else some t

def takeIndex (p : CString) : Option (Nat × Tables) :=
  match t.globalFreeIdxList with
  | [] => none
  | idx :: rest => do
    guard (idx < t.globalIdStorage.length)
    let t ← increment { t with
      globalFreeIdxList := rest
      globalIdStorage := t.globalIdStorage.set idx (some p)
      globalIdIndex := Function.update t.globalIdIndex p (some idx) } idx
    some (idx, t)

/-- A new identifier starts with a dollar sign or a backslash, has a second character and no control
character or space. -/
def WellFormed (p : CString) : Prop :=
  (p.head? = some 36 ∨ p.head? = some 92) ∧ 1 < p.length ∧ ∀ c ∈ p, ¬ c ≤ 32

instance (p : CString) : Decidable (WellFormed p) :=
  @instDecidableAnd _ _ inferInstance
    (@instDecidableAnd _ _ inferInstance (List.decidableBAll (fun c => ¬ c ≤ 32) p))

def getReferenceByName (p : CString) : Option (Nat × Tables) := do
  guard (t.guardOk = true)
  if p = [] then
    some (0, t)
  else
    match t.globalIdIndex p with
    | some idx => do
      let t ← increment t idx
      some (idx, t)
    | none => do
      guard (WellFormed p)
      let t ← ensureFree t
      takeIndex t p

def freeReference (idx : Nat) : Option Tables := do
  let stored ← t.globalIdStorage[idx]?
  let p ← stored
  some { t with
    globalIdIndex := Function.update t.globalIdIndex p none
    globalIdStorage := t.globalIdStorage.set idx none
    globalFreeIdxList := idx :: t.globalFreeIdxList }

def putReference (idx : Nat) : Option Tables :=
  if t.guardOk = false ∨ idx = 0 then some t
  else do
    let old ← t.globalRefcountStorage[idx]?
    let refcount := old - 1
    let t := { t with globalRefcountStorage := t.globalRefcountStorage.set idx refcount }
    if 0 < refcount then some t
    else do
      guard (refcount = 0)
      freeReference t idx

/-- What an object holds; nothing once it is destroyed. -/
def slot {α : Type} (objects : List (Option α)) (k : Nat) : Option α := objects[k]?.join

/-- A running program: the tables and the `index_` of every object it ever constructed, `none` once
the object is destroyed. -/
structure State where
  tables : Tables
  objects : List (Option Nat)

def State.initial : State := { tables := Tables.initial, objects := [] }

variable (s : State)

def State.live (k : Nat) : Option Nat := slot s.objects k

def State.held (i : Nat) : Nat := s.objects.count (some i)

/-- What a program does with identifiers. Objects are named by the order of their construction. -/
inductive Op
  | default
  | construct (str : List UInt8)
  | copy (str : Nat)
  | move (str : Nat)
  | destroy (self : Nat)
  | assign (self rhs : Nat)
  | assignString (self : Nat) (rhs : List UInt8)

def construct (str : List UInt8) : Option State := do
  let (idx, t) ← getReferenceByName s.tables (cStr str)
  some { tables := t, objects := s.objects ++ [some idx] }

def destroy (self : Nat) : Option State := do
  let idx ← s.live self
  let t ← putReference s.tables idx
  some { tables := t, objects := s.objects.set self none }

/-- `operator=(const IdString&)`: the old reference is given back before the new one is taken. -/
def assign (self rhs : Nat) : Option State := do
  let old ← s.live self
  let t ← putReference s.tables old
  let idx ← s.live rhs
  let t ← getReferenceByIndex t idx
  some { tables := t, objects := s.objects.set self (some idx) }

def step : Op → Option State
  | .default => some { s with objects := s.objects ++ [some 0] }
  | .construct str => construct s str
  | .copy str => do
    let idx ← s.live str
    let t ← getReferenceByIndex s.tables idx
    some { tables := t, objects := s.objects ++ [some idx] }
  | .move str => do
    let idx ← s.live str
    some { s with objects := s.objects.set str (some 0) ++ [some idx] }
  | .destroy self => destroy s self
  | .assign self rhs => assign s self rhs
  | .assignString self rhs => do
    let _ ← s.live self
    -- the temporary `id` is the newest object, destroyed at the end of the statement
    let id := s.objects.length
    let s ← construct s rhs
    let s ← assign s self id
    destroy s id

def run (ops : List Op) : Option State := ops.foldlM step s

/-- What identifiers stand for: every object holds a string. -/
def stepNames (names : List (Option CString)) : Op → List (Option CString)
  | .default => names ++ [some []]
  | .construct str => names ++ [some (cStr str)]
  | .copy str => names ++ [slot names str]
  | .move str => names.set str (some []) ++ [slot names str]
  | .destroy self => names.set self none
  | .assign self rhs => names.set self (slot names rhs)
  | .assignString self rhs => names.set self (some (cStr rhs)) ++ [none]

def runNames (ops : List Op) : List (Option CString) := ops.foldl stepNames []

end ManticoreFrontend.Kernel.IdStrings
