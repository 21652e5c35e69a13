/- source: kernel/rtlil.h, kernel/rtlil.cc (SigSpec, SigChunk, SigBit), kernel/hashlib.h (mkhash)
   digest: The SigSpec object: packed chunks, unpacked bits, a cached hash, and programs that work
     on several such objects. -/

import ManticoreFrontend.Foundation.MaximalRuns
import ManticoreFrontend.Kernel.Signals

namespace ManticoreFrontend.Kernel.SigSpecs

open Foundation.MaximalRuns Constants CellTypes Signals

deriving instance DecidableEq for SigChunk

/-- The index of an interned name and the address of a wire: one for each name, one for each wire,
and none at the null address. -/
structure WireIds where
  index : IdString → Nat
  address : Wire → Nat
  index_injective : Function.Injective index
  address_injective : Function.Injective address
  address_pos : ∀ w, 0 < address w

def stateCode : State → Nat
  | .S0 => 0
  | .S1 => 1
  | .Sx => 2
  | .Sz => 3
  | .Sa => 4
  | .Sm => 5

def mkhash (a b : UInt32) : UInt32 := ((a <<< 5) + a) ^^^ b

def mkhashInit : UInt32 := 5381

def chunkIsWire : SigChunk → Bool
  | .wire _ _ _ _ => true
  | .data _ => false

/-- Two chunks in a row as one chunk: constants always, parts of a wire when the second starts
where the first ends. -/
def joinChunks : SigChunk → SigChunk → Option SigChunk
  | .data bits, .data bits' => some (.data (bits ++ bits'))
  | .wire w offset width _, .wire w' offset' width' le' =>
    if h : w = w' ∧ offset + width = offset' then
      some (.wire w offset (width + width') (by
        obtain ⟨rfl, rfl⟩ := h
        omega))
    else none
  | _, _ => none

/-- Add a chunk behind the last one, or grow the last one by it. -/
def appendChunk (chunks : List SigChunk) (c : SigChunk) : List SigChunk :=
  addRun joinChunks chunks c

def covers (c : SigChunk) (b : SigBit) : Bool :=
  match c, b with
  | .wire w offset width _, .wire w' offset' =>
    decide (w' = w) && decide (offset ≤ offset'.val) && decide (offset'.val < offset + width)
  | _, _ => false

variable (ids : WireIds)

def hashChunk (hash : UInt32) : SigChunk → UInt32
  | .data bits => bits.foldl (fun h v => mkhash h (UInt32.ofNat (stateCode v))) hash
  | .wire w offset width _ =>
    mkhash (mkhash (mkhash hash (UInt32.ofNat (ids.index w.name))) (UInt32.ofNat offset))
      (UInt32.ofNat width)

/-- The hash of a list of chunks; zero stands for "not computed" and is replaced by one. -/
def hashChunks (chunks : List SigChunk) : UInt32 :=
  let hash := chunks.foldl (hashChunk ids) mkhashInit
  if hash = 0 then 1 else hash

def dataLt : Const → Const → Bool
  | _, [] => false
  | [], _ :: _ => true
  | a :: as, b :: bs =>
    if stateCode a < stateCode b then true
    else if stateCode b < stateCode a then false
    else dataLt as bs

/-- The order of chunks: a constant has the null pointer and offset zero. -/
def chunkLt : SigChunk → SigChunk → Bool
  | .wire w offset width _, .wire w' offset' width' _ =>
    if w.name ≠ w'.name then decide (ids.index w.name < ids.index w'.name)
    else if w ≠ w' then decide (ids.address w < ids.address w')
    else if offset ≠ offset' then decide (offset < offset')
    else if width ≠ width' then decide (width < width')
    else false
  | .data _, .wire _ _ _ _ => true
  | .wire _ _ _ _, .data _ => false
  | .data bits, .data bits' =>
    if bits.length ≠ bits'.length then decide (bits.length < bits'.length)
    else dataLt bits bits'

/-- The first pair of different chunks decides. -/
def chunksLt : List SigChunk → List SigChunk → Bool
  | c :: cs, d :: ds => if c ≠ d then chunkLt ids c d else chunksLt cs ds
  | _, _ => false

/-- The order of bits: by offset or state on one wire, by name between wires, constants first. -/
def bitLt : SigBit → SigBit → Bool
  | .wire w offset, .wire w' offset' =>
    if w = w' then decide (offset.val < offset'.val)
    else decide (ids.index w.name < ids.index w'.name)
  | .const a, .const b => decide (stateCode a < stateCode b)
  | .const _, .wire _ _ => true
  | .wire _ _, .const _ => false

def sortBits (bits : List SigBit) : List SigBit := bits.mergeSort (fun a b => !bitLt ids b a)

/-- A `SigSpec` object with its four members. -/
@[ext] structure SigObject where
  width : Nat
  hash : UInt32
  chunks : List SigChunk
  bits : List SigBit
  deriving DecidableEq

namespace SigObject

variable (o : SigObject)

/-- The bits an object stands for, in whichever form it holds them. -/
def value : SigSpec := o.chunks.flatMap SigChunk.bits ++ o.bits

def empty : SigObject := { width := 0, hash := 0, chunks := [], bits := [] }

/-- The constructors from a constant, a chunk, a wire, a part of a wire, a string or an integer. -/
def ofChunk (c : SigChunk) : SigObject :=
  if c.width ≠ 0 then { width := c.width, hash := 0, chunks := [c], bits := [] } else empty

def ofBit (b : SigBit) (width : Nat) : SigObject :=
  { width := width
    hash := 0
    chunks := if width = 0 then [] else
      match b with
      | .const s => [.data (List.replicate width s)]
      | .wire _ _ => List.replicate width (SigChunk.ofBit b)
    bits := [] }

def packed : Bool := o.bits.isEmpty

def pack : SigObject :=
  if o.packed then o else { o with chunks := SigSpec.chunks o.bits, bits := [] }

def unpack : SigObject :=
  if o.chunks.isEmpty then o
  else { o with hash := 0, chunks := [], bits := o.chunks.flatMap SigChunk.bits }

def updhash (ids : WireIds) (o : SigObject) : SigObject :=
  if o.hash ≠ 0 then o else { o.pack with hash := hashChunks ids o.pack.chunks }

def append (o signal : SigObject) : SigObject × SigObject :=
  if signal.width = 0 then (o, signal)
  else if o.width = 0 then (signal, signal)
  else
    let mixed := o.packed != signal.packed
    let o := if mixed then o.pack else o
    let signal := if mixed then signal.pack else signal
    if o.packed then
      ({ o with
          chunks := signal.chunks.foldl appendChunk o.chunks
          width := o.width + signal.width }, signal)
    else ({ o with bits := o.bits ++ signal.bits, width := o.width + signal.width }, signal)

def appendBit (b : SigBit) : SigObject :=
  if o.packed then
    { o with chunks := appendChunk o.chunks (SigChunk.ofBit b), width := o.width + 1 }
  else { o with bits := o.bits ++ [b], width := o.width + 1 }

def ofBits (bits : List SigBit) : SigObject := bits.foldl appendBit empty

def removeConst : SigObject :=
  if o.packed then
    { o with
        chunks := (o.chunks.filter chunkIsWire).foldl appendChunk []
        width := ((o.chunks.filter chunkIsWire).map SigChunk.width).sum }
  else
    { o with
        bits := o.bits.filter SigBit.isWire
        width := (o.bits.filter SigBit.isWire).length }

def sort (ids : WireIds) (o : SigObject) : SigObject :=
  { o.unpack with bits := sortBits ids o.unpack.bits }

/-- `std::unique` keeps the first of each run of equal bits. -/
def sortAndUnify (ids : WireIds) (o : SigObject) : SigObject :=
  ofBits ((sortBits ids o.unpack.bits).destutter (· ≠ ·))

def reverse : SigObject := { o.unpack with bits := o.unpack.bits.reverse }

def setBit (i : Nat) (b : SigBit) : SigObject := { o with bits := o.bits.set i b }

/-- A write through `operator[]`, whose index is checked. -/
def write (i : Nat) (b : SigBit) : Option SigObject :=
  if i < o.unpack.bits.length then some (o.unpack.setBit i b) else none

def eraseAt (i : Nat) : SigObject :=
  { o with bits := o.bits.eraseIdx i, width := o.width - 1 }

/-- The loop of `remove2`, from the last bit down to the first. -/
def eraseHits (hit : SigBit → Bool) : Nat → SigObject → Option SigObject →
    SigObject × Option SigObject
  | 0, o, other => (o, other)
  | i + 1, o, other =>
    if (o.bits[i]?).any hit then eraseHits hit i (o.eraseAt i) (other.map (eraseAt · i))
    else eraseHits hit i o other

/-- `remove2`; the companion signal loses the bits at the same places. -/
def remove2 (hit : SigBit → Bool) (o : SigObject) (other : Option SigObject) :
    Option (SigObject × Option SigObject) :=
  if other.all (·.width == o.width) then
    some (eraseHits (fun b => b.isWire && hit b) o.unpack.bits.length o.unpack
      (other.map unpack))
  else none

def removeAt (offset length : Nat) : Option SigObject :=
  if offset + length ≤ o.width then
    let bits := o.unpack.bits.take offset ++ o.unpack.bits.drop (offset + length)
    some { o.unpack with bits := bits, width := bits.length }
  else none

def replaceAt (offset : Nat) (source : SigObject) : Option SigObject :=
  if offset + source.width ≤ o.width then
    some ((List.range source.width).foldl
      (fun o i => o.setBit (offset + i) (source.unpack.bits.getD i (.const .Sx))) o.unpack)
  else none

/-- The bits of `other` (or of the signal itself) at the places that `hit` selects. -/
def extractBits (hit : SigBit → Bool) (matched taken : List SigBit) : List SigBit :=
  ((matched.zip taken).filter (fun p => p.1.isWire && hit p.1)).map Prod.snd

/-- Equality, which packs and hashes both objects on the way. -/
def eq (ids : WireIds) (a b : SigObject) : Bool × SigObject × SigObject :=
  if a.width ≠ b.width then (false, a, b)
  else if a.width = 0 then (true, a, b)
  else if a.pack.chunks.length ≠ b.pack.chunks.length then (false, a.pack, b.pack)
  else
    let a := a.pack.updhash ids
    let b := b.pack.updhash ids
    (decide (a.hash = b.hash) && decide (a.chunks = b.chunks), a, b)

/-- The order: width, number of chunks, hash, first difference. -/
def lt (ids : WireIds) (a b : SigObject) : Bool × SigObject × SigObject :=
  if a.width ≠ b.width then (decide (a.width < b.width), a, b)
  else if a.pack.chunks.length ≠ b.pack.chunks.length then
    (decide (a.pack.chunks.length < b.pack.chunks.length), a.pack, b.pack)
  else
    let a := a.pack.updhash ids
    let b := b.pack.updhash ids
    (if a.hash ≠ b.hash then decide (a.hash < b.hash) else chunksLt ids a.chunks b.chunks, a, b)

def hashValue (ids : WireIds) (o : SigObject) : UInt32 := (o.updhash ids).hash

end SigObject

abbrev Store := List SigObject

/-- A set of bits to look for: the chunks of another signal, or a pool. -/
inductive Pattern
  | signal (object : Nat)
  | pool (bits : List SigBit)

def Pattern.isObject : Pattern → Nat → Bool
  | .signal p, i => p == i
  | .pool _, _ => false

/-- One call on the objects of the store, which numbers name. A temporary of the source is an object
too, which nothing reads later. -/
inductive Op
  | default
  | ofChunk (c : SigChunk)
  | ofBit (b : SigBit) (width : Nat)
  | ofBits (bits : List SigBit)
  | copy (source : Nat)
  | assign (self source : Nat)
  | append (self signal : Nat)
  | appendBit (self : Nat) (b : SigBit)
  | removeConst (self : Nat)
  | chunks (self : Nat)
  | bits (self : Nat)
  | hash (self : Nat)
  | eq (self other : Nat)
  | lt (self other : Nat)
  | write (self index : Nat) (b : SigBit)
  | sort (self : Nat)
  | sortAndUnify (self : Nat)
  | reverse (self : Nat)
  | replace (self pattern source other : Nat)
  | replaceRules (self : Nat) (rules : List (SigBit × SigBit)) (other : Nat)
  | replaceAt (self offset source : Nat)
  | remove2 (self : Nat) (pattern : Pattern) (other : Option Nat)
  | removeAt (self offset length : Nat)
  | extract (self : Nat) (pattern : Pattern) (other : Option Nat)
  | extractAt (self offset length : Nat)

namespace Store

variable (store : Store)

def bitsOf (i : Nat) : List SigBit := ((store[i]?).map SigObject.bits).getD []

def update (i : Nat) (f : SigObject → Option SigObject) : Option Store := do
  let o ← store[i]?
  let o' ← f o
  return store.set i o'

/-- Apply a call with two objects, which must be different ones. -/
def update2 (i j : Nat)
    (f : SigObject → SigObject → Option (SigObject × SigObject)) : Option Store :=
  if i = j then none
  else do
    let o ← store[i]?
    let s ← store[j]?
    let r ← f o s
    return (store.set i r.1).set j r.2

/-- The inner loop of `replace`: the bits are read again in every round, since the written object
can be one of those read. -/
def replaceBit (self pattern source other i : Nat) (store : Store) (j : Nat) : Store :=
  match (bitsOf store self)[j]?, (bitsOf store pattern)[i]?, (bitsOf store source)[i]? with
  | some b, some p, some r => if b = p then store.modify other (·.setBit j r) else store
  | _, _, _ => store

def replaceRow (self pattern source other : Nat) (store : Store) (i : Nat) : Store :=
  if ((bitsOf store pattern)[i]?).any SigBit.isWire then
    (List.range (bitsOf store self).length).foldl (replaceBit self pattern source other i) store
  else store

def replace (self pattern source other : Nat) : Option Store := do
  let o ← store[self]?
  let p ← store[pattern]?
  let r ← store[source]?
  let t ← store[other]?
  if o.width = t.width ∧ p.width = r.width then
    let store := (((store.modify pattern .unpack).modify source .unpack).modify self .unpack).modify
      other .unpack
    some ((List.range (bitsOf store pattern).length).foldl
      (replaceRow self pattern source other) store)
  else none

def replaceRule (self other : Nat) (rules : List (SigBit × SigBit)) (store : Store) (i : Nat) :
    Store :=
  match ((bitsOf store self)[i]?).bind (List.lookup · rules) with
  | some r => store.modify other (·.setBit i r)
  | none => store

def replaceRules (self : Nat) (rules : List (SigBit × SigBit)) (other : Nat) :
    Option Store := do
  let o ← store[self]?
  let t ← store[other]?
  if o.width = t.width then
    if rules.isEmpty then some store
    else
      let store := (store.modify self .unpack).modify other .unpack
      some ((List.range (bitsOf store self).length).foldl (replaceRule self other rules) store)
  else none

/-- The tests of a pattern, one for each chunk of a signal, and the store after that signal was
packed. -/
def tests : Pattern → Option (List (SigBit → Bool) × Store)
  | .pool bits => some ([fun b => bits.contains b], store)
  | .signal p => do
    let o ← store[p]?
    return (o.pack.chunks.map covers, store.set p o.pack)

variable (self : Nat) (pattern : Pattern) (other : Option Nat)

/-- `remove2` on three different objects; the signal of the pattern is packed only if there is a
wire bit to look up. -/
def remove2 :
    Option Store := do
  let o ← store[self]?
  let (hits, looked) ← tests store pattern
  let store := if o.value.any SigBit.isWire then looked else store
  if pattern.isObject self then none
  else
    match other with
    | none => do
      let r ← o.remove2 (fun b => hits.any (· b)) none
      return store.set self r.1
    | some j => do
      let t ← store[j]?
      let r ← o.remove2 (fun b => hits.any (· b)) (some t)
      let t' ← r.2
      if pattern.isObject j ∨ j = self then none
      else return (store.set self r.1).set j t'

/-- `extract` by a pattern. The matched bits are copied before the pattern is packed; the companion,
another object, is read while its chunks are walked. -/
def extract :
    Option Store := do
  let o ← store[self]?
  let (hits, store) ← tests (store.set self o.unpack) pattern
  match other with
  | none =>
    return store ++ [.ofBits (hits.flatMap
      (fun hit => SigObject.extractBits hit o.unpack.bits o.unpack.bits))]
  | some j => do
    let t ← store[j]?
    if t.width = o.width ∧ ¬ pattern.isObject j then
      let store := if hits.isEmpty then store else store.set j t.unpack
      return store ++ [.ofBits (hits.flatMap
        (fun hit => SigObject.extractBits hit o.unpack.bits t.unpack.bits))]
    else none

def extractAt (self offset length : Nat) : Option Store := do
  let o ← store[self]?
  if offset + length ≤ o.width then
    return store.set self o.unpack ++ [.ofBits (SigSpec.extract o.unpack.bits offset length)]
  else none

end Store

/-- One call. A failed assertion, an index out of range or an object used twice where the source
reads and changes it at once ends the program. -/
def step (store : Store) : Op → Option Store
  | .default => some (store ++ [.empty])
  | .ofChunk c => some (store ++ [.ofChunk c])
  | .ofBit b width => some (store ++ [.ofBit b width])
  | .ofBits bits => some (store ++ [.ofBits bits])
  | .copy source => do
    let o ← store[source]?
    return store ++ [o]
  | .assign self source => do
    let o ← store[source]?
    store.update self (fun _ => some o)
  | .append self signal =>
    if self = signal then store.update self (fun o => if o.width = 0 then some o else none)
    else store.update2 self signal (fun o s => some (o.append s))
  | .appendBit self b => store.update self (fun o => some (o.appendBit b))
  | .removeConst self => store.update self (fun o => some o.removeConst)
  | .chunks self => store.update self (fun o => some o.pack)
  | .bits self => store.update self (fun o => some o.unpack)
  | .hash self => store.update self (fun o => some (o.updhash ids))
  | .eq self other =>
    if self = other then store.update self some
    else store.update2 self other (fun a b => some (a.eq ids b).2)
  | .lt self other =>
    if self = other then store.update self some
    else store.update2 self other (fun a b => some (a.lt ids b).2)
  | .write self index b => store.update self (·.write index b)
  | .sort self => store.update self (fun o => some (o.sort ids))
  | .sortAndUnify self => store.update self (fun o => some (o.sortAndUnify ids))
  | .reverse self => store.update self (fun o => some o.reverse)
  | .replace self pattern source other => store.replace self pattern source other
  | .replaceRules self rules other => store.replaceRules self rules other
  | .replaceAt self offset source =>
    if self = source then store.update self (fun o => o.replaceAt offset o)
    else store.update2 self source (fun o s => (o.replaceAt offset s).map (·, s.unpack))
  | .remove2 self pattern other => store.remove2 self pattern other
  | .removeAt self offset length => store.update self (·.removeAt offset length)
  | .extract self pattern other => store.extract self pattern other
  | .extractAt self offset length => store.extractAt self offset length

def run (store : Store) (ops : List Op) : Option Store := ops.foldlM (step ids) store

end ManticoreFrontend.Kernel.SigSpecs
