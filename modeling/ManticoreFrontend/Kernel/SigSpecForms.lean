/- source: kernel/rtlil.cc
   digest: The packed form is determined by the bits, and what every call makes of the bits, the
     form and the cached hash of an object. -/

import ManticoreFrontend.Kernel.SigSpecs

namespace ManticoreFrontend.Kernel.SigSpecForms

open Foundation.MaximalRuns Signals SigSpecs List

theorem joinChunks_eq_some {a b j : SigChunk} (h : joinChunks a b = some j) :
    (∃ d d', a = .data d ∧ b = .data d' ∧ j = .data (d ++ d')) ∨
      ∃ w offset n n' le le' le'', a = .wire w offset n le ∧ b = .wire w (offset + n) n' le' ∧
        j = .wire w offset (n + n') le'' := by
  cases a with
  | data d =>
    cases b with
    | wire w offset width le => simp [joinChunks] at h
    | data d' => exact .inl ⟨d, d', rfl, rfl, (Option.some.inj h).symm⟩
  | wire w offset width le =>
    cases b with
    | data d' => simp [joinChunks] at h
    | wire w' offset' width' le' =>
      simp only [joinChunks] at h
      split at h
      · rename_i fit
        obtain ⟨rfl, rfl⟩ := fit
        exact .inr ⟨w, offset, width, width', le, le', _, rfl, rfl, (Option.some.inj h).symm⟩
      · simp at h

theorem joinChunks_bits (a b j : SigChunk) (h : joinChunks a b = some j) :
    j.bits = a.bits ++ b.bits := by
  rcases joinChunks_eq_some h with ⟨d, d', rfl, rfl, rfl⟩ | ⟨w, o, n, n', _, _, _, rfl, rfl, rfl⟩
  · simp [SigChunk.bits]
  · simp [SigChunk.bits, ofFn_add, Nat.add_assoc]

/-- Whether a chunk joins what precedes it depends on where it starts only. -/
theorem joinChunks_start {b c bc : SigChunk} (parts : joinChunks b c = some bc) (a : SigChunk) :
    (joinChunks a bc).isSome = (joinChunks a b).isSome := by
  rcases joinChunks_eq_some parts with
    ⟨d, d', rfl, rfl, rfl⟩ | ⟨w, o, n, n', _, _, _, rfl, rfl, rfl⟩
  · cases a <;> rfl
  · cases a with
    | data _ => rfl
    | wire w' o' n'' _ =>
      simp only [joinChunks]
      split <;> rfl

theorem chunks_join : Joins joinChunks where
  assoc a b c ab bc first second := by
    rcases joinChunks_eq_some first with
      ⟨d, d', rfl, rfl, rfl⟩ | ⟨w, o, n, n', _, _, _, rfl, rfl, rfl⟩
    · rcases joinChunks_eq_some second with
        ⟨e, e', same, rfl, rfl⟩ | ⟨_, _, _, _, _, _, _, mixed, _⟩
      · obtain rfl := SigChunk.data.inj same
        simp [joinChunks]
      · cases mixed
    · rcases joinChunks_eq_some second with ⟨_, _, mixed, _⟩ | ⟨_, _, _, k, _, _, _, same, rfl, rfl⟩
      · cases mixed
      · obtain ⟨rfl, rfl, rfl⟩ := SigChunk.wire.inj same
        simp [joinChunks, Nat.add_assoc]
  start a b c bc parts apart := by
    have same := joinChunks_start parts a
    rw [apart] at same
    exact Option.not_isSome_iff_eq_none.mp (by simp [same])
  grows a b c ab bc first second := by
    rw [joinChunks_start second a, first]
    rfl

/-- Neighbours are apart and no chunk is empty: what `check` asserts of a packed object. -/
structure Maximal (chunks : List SigChunk) : Prop where
  nonempty : ∀ c ∈ chunks, c.width ≠ 0
  apart : Apart joinChunks chunks

theorem Maximal.nil : Maximal [] where
  nonempty := by simp
  apart := by simp [Apart]

theorem Maximal.appendChunk {chunks : List SigChunk} (maximal : Maximal chunks) {c : SigChunk}
    (wide : c.width ≠ 0) : Maximal (appendChunk chunks c) where
  nonempty := by
    have joined : ∀ a b j, joinChunks a b = some j → a.width ≠ 0 → b.width ≠ 0 → j.width ≠ 0 := by
      intro a b j h ha _
      have := congrArg length (joinChunks_bits a b j h)
      simp only [SigChunk.bits_length, length_append] at this
      omega
    exact addRun_forall joined maximal.nonempty wide
  apart := addRun_isApart chunks_join maximal.apart c

@[simp] theorem ofBit_width (b : SigBit) : (SigChunk.ofBit b).width = 1 := by
  cases b <;> rfl

theorem push_eq_join (c : SigChunk) (b : SigBit) : c.push b = joinChunks c (SigChunk.ofBit b) := by
  cases c <;> cases b <;> rfl

theorem chunks_snoc (sig : SigSpec) (b : SigBit) :
    SigSpec.chunks (sig ++ [b]) = appendChunk (SigSpec.chunks sig) (SigChunk.ofBit b) := by
  simp only [SigSpec.chunks, foldl_append, foldl_cons, foldl_nil]
  generalize sig.foldl SigSpec.packStep [] = done
  cases done with
  | nil => rfl
  | cons last rest =>
    cases h : joinChunks last (SigChunk.ofBit b) with
    | some j =>
      have grown : last.push b = some j := (push_eq_join last b).trans h
      simp [SigSpec.packStep, grown, appendChunk, addRun_joined _ h]
    | none =>
      have opened : last.push b = none := (push_eq_join last b).trans h
      simp [SigSpec.packStep, opened, appendChunk, addRun_apart _ h]

theorem chunk_cases (c : SigChunk) (wide : c.width ≠ 0) :
    (∃ b, c = SigChunk.ofBit b) ∨
      ∃ front b, joinChunks front (SigChunk.ofBit b) = some c ∧ front.width + 1 = c.width ∧
        front.width ≠ 0 := by
  cases c with
  | data d =>
    cases d using reverseRecOn with
    | nil => simp [SigChunk.width] at wide
    | append_singleton d s =>
      cases d with
      | nil => exact .inl ⟨.const s, rfl⟩
      | cons s' d => exact .inr ⟨.data (s' :: d), .const s, by simp [joinChunks, SigChunk.ofBit],
          by simp [SigChunk.width], by simp [SigChunk.width]⟩
  | wire w offset width le =>
    obtain ⟨n, rfl⟩ : ∃ n, width = n + 1 := ⟨width - 1, by simp [SigChunk.width] at wide; omega⟩
    rcases Nat.eq_zero_or_pos n with rfl | pos
    · exact .inl ⟨.wire w ⟨offset, by omega⟩, rfl⟩
    · exact .inr ⟨.wire w offset n (by omega), .wire w ⟨offset + n, by omega⟩,
        by simp [joinChunks, SigChunk.ofBit], by simp [SigChunk.width],
        by simp [SigChunk.width]; omega⟩

theorem chunks_append_chunk (sig : SigSpec) (c : SigChunk) (wide : c.width ≠ 0) :
    SigSpec.chunks (sig ++ c.bits) = appendChunk (SigSpec.chunks sig) c := by
  induction n : c.width generalizing c with
  | zero => exact absurd n wide
  | succ n ih =>
    rcases chunk_cases c wide with ⟨b, rfl⟩ | ⟨front, b, parts, size, some⟩
    · rw [ofBit_bits, chunks_snoc]
    · rw [joinChunks_bits _ _ _ parts, ofBit_bits, ← append_assoc, chunks_snoc,
        ih front some (by omega)]
      exact addRun_addRun chunks_join parts _

theorem chunks_append_chunks (sig : SigSpec) {chunks : List SigChunk}
    (nonempty : ∀ c ∈ chunks, c.width ≠ 0) :
    SigSpec.chunks (sig ++ chunks.flatMap SigChunk.bits) =
      chunks.foldl appendChunk (SigSpec.chunks sig) := by
  induction chunks generalizing sig with
  | nil => simp
  | cons c chunks ih =>
    rw [flatMap_cons, ← append_assoc, ih _ (fun d hd => nonempty d (by simp [hd])),
      chunks_append_chunk sig c (nonempty c (by simp))]
    rfl

theorem chunks_maximal (sig : SigSpec) : Maximal (SigSpec.chunks sig) := by
  induction sig using reverseRecOn with
  | nil => exact Maximal.nil
  | append_singleton sig b ih =>
    rw [chunks_snoc]
    exact ih.appendChunk (by simp)

theorem Maximal.eq_chunks {chunks : List SigChunk} (maximal : Maximal chunks) :
    SigSpec.chunks (chunks.flatMap SigChunk.bits) = chunks := by
  have packed := chunks_append_chunks [] maximal.nonempty
  rw [nil_append] at packed
  rw [packed]
  exact foldl_addRun maximal.apart

/-- The width is the number of bits, the chunks are maximal, and an unpacked object has neither
chunks nor a cached hash. -/
structure Shaped (o : SigObject) : Prop where
  width : o.width = o.value.length
  maximal : Maximal o.chunks
  loose : o.bits ≠ [] → o.chunks = [] ∧ o.hash = 0

/-- A well-shaped object with the given bits. -/
structure Holds (o : SigObject) (sig : SigSpec) : Prop where
  shaped : Shaped o
  value : o.value = sig

variable {o s : SigObject} {sig sig' : SigSpec}

theorem Shaped.holds (shaped : Shaped o) : Holds o o.value := ⟨shaped, rfl⟩

theorem Holds.width (holds : Holds o sig) : o.width = sig.length := by
  rw [holds.shaped.width, holds.value]

theorem Holds.of_packed (packed : o.bits = []) (chunks : o.chunks = SigSpec.chunks sig)
    (width : o.width = sig.length) : Holds o sig := by
  have value : o.value = sig := by
    rw [SigObject.value, packed, chunks, chunks_bits, append_nil]
  refine ⟨⟨by rw [value, width], ?_, fun ne => absurd packed ne⟩, value⟩
  rw [chunks]
  exact chunks_maximal sig

theorem Holds.of_maximal (packed : o.bits = []) (maximal : Maximal o.chunks)
    (width : o.width = (o.chunks.map SigChunk.width).sum) :
    Holds o (o.chunks.flatMap SigChunk.bits) := by
  refine Holds.of_packed packed maximal.eq_chunks.symm ?_
  rw [width, length_flatMap]
  simp

theorem Holds.of_bits (chunks : o.chunks = []) (bits : o.bits = sig) (width : o.width = sig.length)
    (hash : sig ≠ [] → o.hash = 0) : Holds o sig := by
  have value : o.value = sig := by simp [SigObject.value, chunks, bits]
  refine ⟨⟨by rw [value, width], ?_, fun ne => ⟨chunks, hash (bits ▸ ne)⟩⟩, value⟩
  rw [chunks]
  exact Maximal.nil

theorem packed_iff : o.packed = true ↔ o.bits = [] := by simp [SigObject.packed]

theorem Holds.chunks (holds : Holds o sig) (packed : o.bits = []) :
    o.chunks = SigSpec.chunks sig := by
  have value : o.chunks.flatMap SigChunk.bits = sig := by
    simpa [SigObject.value, packed] using holds.value
  rw [← value, holds.shaped.maximal.eq_chunks]

theorem Holds.bits (holds : Holds o sig) (unpacked : o.bits ≠ []) : o.bits = sig := by
  simpa [SigObject.value, (holds.shaped.loose unpacked).1] using holds.value

@[simp] theorem pack_bits : o.pack.bits = [] := by
  unfold SigObject.pack
  split
  · rename_i h
    exact packed_iff.mp h
  · rfl

@[simp] theorem pack_hash : o.pack.hash = o.hash := by
  unfold SigObject.pack
  split <;> rfl

@[simp] theorem pack_width : o.pack.width = o.width := by
  unfold SigObject.pack
  split <;> rfl

theorem Holds.pack_chunks (holds : Holds o sig) : o.pack.chunks = SigSpec.chunks sig := by
  unfold SigObject.pack
  split
  · rename_i h
    exact holds.chunks (packed_iff.mp h)
  · rename_i h
    rw [holds.bits (fun empty => h (packed_iff.mpr empty))]

theorem Holds.pack (holds : Holds o sig) : Holds o.pack sig :=
  Holds.of_packed pack_bits holds.pack_chunks (by rw [pack_width, holds.width])

@[simp] theorem unpack_chunks : o.unpack.chunks = [] := by
  unfold SigObject.unpack
  split
  · rename_i h
    simpa using h
  · rfl

@[simp] theorem unpack_width : o.unpack.width = o.width := by
  unfold SigObject.unpack
  split <;> rfl

theorem Holds.unpack_bits (holds : Holds o sig) : o.unpack.bits = sig := by
  unfold SigObject.unpack
  split
  · rename_i h
    simpa [SigObject.value, isEmpty_iff.mp h] using holds.value
  · rename_i h
    have packed : o.bits = [] := by
      by_contra ne
      exact h (by simp [(holds.shaped.loose ne).1])
    simpa [SigObject.value, packed] using holds.value

/-- Only an empty signal keeps a cached hash when it is unpacked. -/
theorem Holds.unpack_hash (holds : Holds o sig) :
    o.unpack.hash = 0 ∨ (sig = [] ∧ o.unpack.hash = o.hash) := by
  unfold SigObject.unpack
  split
  · rename_i h
    rcases eq_or_ne o.bits [] with empty | ne
    · right
      exact ⟨by simpa [SigObject.value, empty, isEmpty_iff.mp h] using holds.value.symm, rfl⟩
    · exact .inl (holds.shaped.loose ne).2
  · exact .inl rfl

theorem Holds.appendBit (holds : Holds o sig) (b : SigBit) : Holds (o.appendBit b) (sig ++ [b]) := by
  have size : o.width + 1 = (sig ++ [b]).length := by simp [holds.width]
  unfold SigObject.appendBit
  split
  · rename_i h
    have packed := packed_iff.mp h
    exact Holds.of_packed packed (by simp [holds.chunks packed, chunks_snoc]) size
  · rename_i h
    have unpacked := mt packed_iff.mpr h
    have loose := holds.shaped.loose unpacked
    exact Holds.of_bits loose.1 (by simp [holds.bits unpacked]) size (fun _ => loose.2)

@[simp] theorem appendBit_hash (b : SigBit) : (o.appendBit b).hash = o.hash := by
  unfold SigObject.appendBit
  split <;> rfl

theorem holds_empty : Holds .empty [] := Holds.of_bits rfl rfl rfl (by simp)

theorem holds_foldl_appendBit (holds : Holds o sig) (bits : List SigBit) :
    Holds (bits.foldl SigObject.appendBit o) (sig ++ bits) := by
  induction bits generalizing o sig with
  | nil => simpa using holds
  | cons b bits ih => simpa using ih (holds.appendBit b)

theorem holds_ofBits (bits : List SigBit) : Holds (.ofBits bits) bits := by
  simpa [SigObject.ofBits] using holds_foldl_appendBit holds_empty bits

theorem ofBits_hash (bits : List SigBit) : (SigObject.ofBits bits).hash = 0 := by
  have keeps : ∀ o : SigObject, (bits.foldl SigObject.appendBit o).hash = o.hash := by
    induction bits with
    | nil => exact fun o => rfl
    | cons b bits ih => exact fun o => (ih _).trans (appendBit_hash b)
  exact keeps .empty

theorem holds_appended (holds : Holds o sig) (signal : Holds s sig') (same : o.packed = s.packed) :
    Holds (if o.packed then
        { o with chunks := s.chunks.foldl appendChunk o.chunks, width := o.width + s.width }
      else { o with bits := o.bits ++ s.bits, width := o.width + s.width }) (sig ++ sig') := by
  have size : o.width + s.width = (sig ++ sig').length := by simp [holds.width, signal.width]
  split
  · rename_i h
    have packed := packed_iff.mp h
    have packed' := packed_iff.mp (same ▸ h)
    refine Holds.of_packed packed ?_ size
    have bits := chunks_bits sig'
    rw [← signal.chunks packed'] at bits
    rw [holds.chunks packed, ← bits, chunks_append_chunks sig signal.shaped.maximal.nonempty]
  · rename_i h
    have unpacked := mt packed_iff.mpr h
    have unpacked' : s.bits ≠ [] := fun empty => h (same ▸ packed_iff.mpr empty)
    have loose := holds.shaped.loose unpacked
    exact Holds.of_bits loose.1 (by simp [holds.bits unpacked, signal.bits unpacked']) size
      (fun _ => loose.2)

theorem Holds.append (holds : Holds o sig) (signal : Holds s sig') :
    Holds (o.append s).1 (sig ++ sig') ∧ Holds (o.append s).2 sig' := by
  unfold SigObject.append
  split
  · rename_i none
    have nothing : sig' = [] := eq_nil_of_length_eq_zero (signal.width ▸ none)
    exact ⟨by simpa [nothing] using holds, signal⟩
  · split
    · rename_i none
      have nothing : sig = [] := eq_nil_of_length_eq_zero (holds.width ▸ none)
      exact ⟨by simpa [nothing] using signal, signal⟩
    · by_cases mixed : o.packed = s.packed
      · have equal : (o.packed != s.packed) = false := by simp [mixed]
        rw [equal]
        have both := holds_appended holds signal mixed
        split at both <;> rename_i h <;> simpa [h] using ⟨both, signal⟩
      · have different : (o.packed != s.packed) = true := by simpa using mixed
        rw [different]
        simp only [if_true]
        have both := holds_appended holds.pack signal.pack (by simp [SigObject.packed])
        have packed : o.pack.packed = true := by simp [SigObject.packed]
        rw [if_pos packed] at both ⊢
        exact ⟨both, signal.pack⟩

theorem append_hash (wide : o.width ≠ 0) : (o.append s).1.hash = o.hash := by
  unfold SigObject.append
  split
  · rfl
  · cases (o.packed != s.packed) <;> simp only [Bool.false_eq_true, if_false, if_true] <;>
      split <;> simp

theorem append_hash_other : (o.append s).2.hash = s.hash := by
  unfold SigObject.append
  split
  · rfl
  · split
    · rfl
    · cases (o.packed != s.packed) <;> simp only [Bool.false_eq_true, if_false, if_true] <;>
        split <;> simp

theorem filter_chunk_bits (c : SigChunk) :
    c.bits.filter SigBit.isWire = if chunkIsWire c then c.bits else [] := by
  cases c with
  | data d =>
    rw [if_neg (by simp [chunkIsWire])]
    simp [SigChunk.bits, SigBit.isWire]
  | wire w offset width le =>
    rw [if_pos (by simp [chunkIsWire])]
    simp [SigChunk.bits, SigBit.isWire]

theorem filter_chunks_bits (chunks : List SigChunk) :
    (chunks.flatMap SigChunk.bits).filter SigBit.isWire =
      (chunks.filter chunkIsWire).flatMap SigChunk.bits := by
  induction chunks with
  | nil => rfl
  | cons c chunks ih =>
    rw [flatMap_cons, filter_append, ih, filter_chunk_bits, filter_cons]
    split <;> simp

theorem Holds.removeConst (holds : Holds o sig) :
    Holds o.removeConst (sig.filter SigBit.isWire) := by
  unfold SigObject.removeConst
  split
  · rename_i h
    have packed := packed_iff.mp h
    have value : o.chunks.flatMap SigChunk.bits = sig := by
      simpa [SigObject.value, packed] using holds.value
    have kept : (o.chunks.filter chunkIsWire).flatMap SigChunk.bits = sig.filter SigBit.isWire := by
      rw [← value, filter_chunks_bits]
    refine Holds.of_packed packed ?_ ?_
    · have nonempty : ∀ c ∈ o.chunks.filter chunkIsWire, c.width ≠ 0 := fun c hc =>
        holds.shaped.maximal.nonempty c (mem_of_mem_filter hc)
      have chunks := chunks_append_chunks [] nonempty
      rw [nil_append, kept] at chunks
      exact chunks.symm
    · rw [← kept, length_flatMap]
      simp
  · rename_i h
    have unpacked := mt packed_iff.mpr h
    have loose := holds.shaped.loose unpacked
    exact Holds.of_bits loose.1 (by simp [holds.bits unpacked]) (by simp [holds.bits unpacked])
      (fun _ => loose.2)

@[simp] theorem removeConst_hash : o.removeConst.hash = o.hash := by
  unfold SigObject.removeConst
  split <;> rfl

end ManticoreFrontend.Kernel.SigSpecForms
