/- source: kernel/rtlil.cc
   digest: What equality, order and hash of two objects compare: the bits and the cached hashes. -/

import ManticoreFrontend.Kernel.SigSpecForms

namespace ManticoreFrontend.Kernel.SigSpecOrder

open Constants Signals SigSpecs SigSpecForms List

variable (ids : WireIds)

/-- A chunk as a list of numbers whose lexicographic order is the order of chunks. -/
def chunkKey : SigChunk → List Nat
  | .data bits => 0 :: 0 :: 0 :: 0 :: bits.length :: bits.map stateCode
  | .wire w offset width _ => [1, ids.index w.name, ids.address w, offset, width]

theorem stateCode_injective : Function.Injective stateCode := by
  intro a b h
  cases a <;> cases b <;> first | rfl | cases h

theorem dataLt_iff (a b : Const) : dataLt a b = true ↔ a.map stateCode < b.map stateCode := by
  induction a generalizing b with
  | nil => cases b <;> simp [dataLt]
  | cons x a ih =>
    cases b with
    | nil => simp [dataLt]
    | cons y b =>
      rw [dataLt, map_cons, map_cons, cons_lt_cons_iff]
      split
      · simp [*]
      · split
        · have : stateCode x ≠ stateCode y := by omega
          simp [*]
        · have : stateCode x = stateCode y := by omega
          simp [*]

theorem chunkLt_iff (a b : SigChunk) :
    chunkLt ids a b = true ↔ chunkKey ids a < chunkKey ids b := by
  cases a with
  | data d =>
    cases b with
    | wire w offset width le => simp [chunkLt, chunkKey, cons_lt_cons_iff]
    | data d' =>
      simp only [chunkLt, chunkKey, cons_lt_cons_iff, Nat.lt_irrefl, false_or, true_and]
      split
      · rename_i ne
        simp [ne]
      · rename_i eq
        rw [not_not] at eq
        simp [eq, dataLt_iff]
  | wire w offset width le =>
    cases b with
    | data d => simp [chunkLt, chunkKey, cons_lt_cons_iff]
    | wire w' offset' width' le' =>
      simp only [chunkLt, chunkKey, cons_lt_cons_iff, Nat.lt_irrefl, false_or, true_and]
      by_cases name : w.name = w'.name
      · by_cases same : w = w'
        · subst same
          by_cases start : offset = offset'
          · by_cases size : width = width' <;> simp [start, size]
          · simp [start]
        · have apart : ids.address w ≠ ids.address w' := fun h =>
            same (ids.address_injective h)
          simp [name, same, apart]
      · have apart : ids.index w.name ≠ ids.index w'.name := fun h =>
          name (ids.index_injective h)
        simp [name, apart]

theorem chunkKey_injective : Function.Injective (chunkKey ids) := by
  intro a b h
  cases a with
  | data d =>
    cases b with
    | wire w offset width le => simp [chunkKey] at h
    | data d' =>
      simp only [chunkKey, cons.injEq, true_and] at h
      rw [map_injective_iff.mpr stateCode_injective h.2]
  | wire w offset width le =>
    cases b with
    | data d => simp [chunkKey] at h
    | wire w' offset' width' le' =>
      simp only [chunkKey, cons.injEq, true_and, and_true] at h
      obtain ⟨_, address, rfl, rfl⟩ := h
      obtain rfl := ids.address_injective address
      rfl

theorem chunksLt_iff {a b : List SigChunk} (size : a.length = b.length) :
    chunksLt ids a b = true ↔ a.map (chunkKey ids) < b.map (chunkKey ids) := by
  induction a generalizing b with
  | nil =>
    obtain rfl : b = [] := eq_nil_of_length_eq_zero size.symm
    simp [chunksLt]
  | cons c a ih =>
    cases b with
    | nil => simp at size
    | cons d b =>
      rw [chunksLt, map_cons, map_cons, cons_lt_cons_iff]
      by_cases same : c = d
      · subst same
        simp [ih (Nat.succ.inj size)]
      · have keys : chunkKey ids c ≠ chunkKey ids d := fun h =>
          same (chunkKey_injective ids h)
        simp [same, keys, chunkLt_iff]

variable {ids : WireIds} {o a b : SigObject} {sig sa sb : SigSpec}

/-- The hash of a bit sequence: that of its packed form. -/
def hashOf (ids : WireIds) (sig : SigSpec) : UInt32 := hashChunks ids (SigSpec.chunks sig)

theorem holds_updhash (holds : Holds o sig) :
    Holds (o.updhash ids) sig ∧ (o.updhash ids).bits = [] := by
  unfold SigObject.updhash
  split
  · rename_i cached
    have packed : o.bits = [] := by
      by_contra ne
      exact cached (holds.shaped.loose ne).2
    exact ⟨holds, packed⟩
  · refine ⟨Holds.of_packed ?_ holds.pack_chunks ?_, ?_⟩
    · simp
    · simp [holds.width]
    · simp

theorem hashValue_eq (holds : Holds o sig) :
    o.hashValue ids = if o.hash ≠ 0 then o.hash else hashOf ids sig := by
  unfold SigObject.hashValue SigObject.updhash
  split
  · rfl
  · rw [hashOf, ← holds.pack_chunks]

theorem pack_hashValue (holds : Holds o sig) : (o.pack.updhash ids).hash = o.hashValue ids := by
  show o.pack.hashValue ids = _
  rw [hashValue_eq holds.pack, hashValue_eq holds, pack_hash]

theorem pack_updhash_chunks (holds : Holds o sig) :
    (o.pack.updhash ids).chunks = SigSpec.chunks sig :=
  (holds_updhash holds.pack).1.chunks (holds_updhash holds.pack).2

theorem chunks_inj : SigSpec.chunks sa = SigSpec.chunks sb ↔ sa = sb := by
  constructor
  · intro h
    rw [← chunks_bits sa, h, chunks_bits]
  · exact congrArg _

theorem eq_iff (ha : Holds a sa) (hb : Holds b sb) :
    (a.eq ids b).1 = true ↔
      sa = sb ∧ (sa ≠ [] → a.hashValue ids = b.hashValue ids) := by
  unfold SigObject.eq
  rw [ha.width, hb.width, ha.pack_chunks, hb.pack_chunks]
  by_cases size : sa.length = sb.length
  · rw [if_neg (not_not.mpr size)]
    rcases eq_or_ne sa [] with rfl | some
    · have right : sb = [] := eq_nil_of_length_eq_zero size.symm
      simp [right]
    · have wide : sa.length ≠ 0 := by simpa using some
      rw [if_neg wide]
      by_cases count : (SigSpec.chunks sa).length = (SigSpec.chunks sb).length
      · rw [if_neg (not_not.mpr count)]
        simp only [pack_updhash_chunks ha, pack_updhash_chunks hb, pack_hashValue ha,
          pack_hashValue hb, Bool.and_eq_true, decide_eq_true_eq, chunks_inj]
        rw [and_comm]
        simp [some]
      · have apart : sa ≠ sb := fun h => count (by rw [h])
        simp [count, apart]
  · have apart : sa ≠ sb := fun h => size (by rw [h])
    simp [size, apart]

/-- Width, number of chunks, hash and the chunks of an object, in the order they are compared. -/
def orderKey (ids : WireIds) (o : SigObject) (sig : SigSpec) : List (List Nat) :=
  [sig.length, (SigSpec.chunks sig).length, (o.hashValue ids).toNat] ::
    (SigSpec.chunks sig).map (chunkKey ids)

theorem lt_iff (ha : Holds a sa) (hb : Holds b sb) :
    (a.lt ids b).1 = true ↔ orderKey ids a sa < orderKey ids b sb := by
  unfold SigObject.lt orderKey
  rw [ha.width, hb.width, ha.pack_chunks, hb.pack_chunks]
  by_cases size : sa.length = sb.length
  · by_cases count : (SigSpec.chunks sa).length = (SigSpec.chunks sb).length
    · simp only [size, count, ne_eq, not_true_eq_false, if_false, pack_updhash_chunks ha,
        pack_updhash_chunks hb, pack_hashValue ha, pack_hashValue hb]
      by_cases hash : a.hashValue ids = b.hashValue ids
      · simp [hash, chunksLt_iff ids count]
      · have apart : (a.hashValue ids).toNat ≠ (b.hashValue ids).toNat := fun h =>
          hash (UInt32.toNat_inj.mp h)
        simp [hash, apart, cons_lt_cons_iff, UInt32.lt_iff_toNat_lt]
    · simp [size, count, cons_lt_cons_iff]
  · simp [size, cons_lt_cons_iff]

theorem orderKey_inj (h : orderKey ids a sa = orderKey ids b sb) : sa = sb := by
  simp only [orderKey, cons.injEq, and_true] at h
  exact chunks_inj.mp (map_injective_iff.mpr (chunkKey_injective ids) h.2)

end ManticoreFrontend.Kernel.SigSpecOrder
