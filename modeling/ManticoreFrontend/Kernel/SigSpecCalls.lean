/- source: kernel/rtlil.h, kernel/rtlil.cc
   digest: Which calls keep the cached hash of every object that of its bits. -/

import ManticoreFrontend.Kernel.SigSpecOrder

namespace ManticoreFrontend.Kernel.SigSpecCalls

open Foundation.MaximalRuns Signals SigSpecs SigSpecForms SigSpecOrder List Option

variable {ids : WireIds} {o s r : SigObject} {sig : SigSpec} {store store' : Store}

/-- A well-shaped object whose cached hash, if any, is that of its bits. -/
structure Sound (ids : WireIds) (o : SigObject) : Prop where
  shaped : Shaped o
  cached : o.hash ≠ 0 → o.hash = hashOf ids o.value

theorem sound_of_holds (holds : Holds o sig) (cached : o.hash ≠ 0 → o.hash = hashOf ids sig) :
    Sound ids o := by
  refine ⟨holds.shaped, ?_⟩
  rw [holds.value]
  exact cached

theorem sound_uncached (holds : Holds o sig) (hash : o.hash = 0) : Sound ids o :=
  sound_of_holds holds (fun ne => absurd hash ne)

section

variable (sound : Sound ids o)

include sound

theorem Sound.holds : Holds o o.value := sound.shaped.holds

theorem Sound.same (holds : Holds r o.value) (hash : r.hash = o.hash) : Sound ids r := by
  refine sound_of_holds holds ?_
  rw [hash]
  exact sound.cached

theorem Sound.hashValue : o.hashValue ids = hashOf ids o.value := by
  rw [hashValue_eq sound.holds]
  split
  · rename_i cached
    exact sound.cached cached
  · rfl

theorem Sound.pack : Sound ids o.pack :=
  sound.same sound.holds.pack pack_hash

theorem Sound.updhash : Sound ids (o.updhash ids) := by
  refine sound_of_holds (holds_updhash sound.holds).1 ?_
  intro _
  exact sound.hashValue

theorem Sound.rebits (chunks : r.chunks = []) (width : r.width = r.bits.length)
    (hash : r.hash = o.unpack.hash) (empty : o.value = [] → r.bits = []) : Sound ids r := by
  rcases sound.holds.unpack_hash with zero | ⟨none, kept⟩
  · exact sound_uncached (Holds.of_bits chunks rfl width (fun _ => hash.trans zero))
      (hash.trans zero)
  · have bits := empty none
    refine sound_of_holds (Holds.of_bits chunks bits (by simpa [bits] using width) (by simp)) ?_
    rw [hash, kept, ← none]
    exact sound.cached

theorem Sound.unpack : Sound ids o.unpack := by
  refine sound.rebits unpack_chunks ?_ rfl ?_
  · rw [unpack_width, sound.holds.unpack_bits, sound.holds.width]
  · exact fun empty => sound.holds.unpack_bits.trans empty

theorem Sound.sort : Sound ids (o.sort ids) := by
  have bits := sound.holds.unpack_bits
  refine sound.rebits unpack_chunks ?_ rfl ?_
  · simp [SigObject.sort, sortBits, bits, sound.holds.width]
  · intro empty
    simp [SigObject.sort, sortBits, bits, empty]

theorem Sound.reverse : Sound ids o.reverse := by
  have bits := sound.holds.unpack_bits
  refine sound.rebits unpack_chunks ?_ rfl ?_
  · simp [SigObject.reverse, bits, sound.holds.width]
  · intro empty
    simp [SigObject.reverse, bits, empty]

end

theorem sound_ofBits (bits : List SigBit) : Sound ids (.ofBits bits) :=
  sound_uncached (holds_ofBits bits) (ofBits_hash bits)

theorem sound_empty : Sound ids .empty := sound_uncached holds_empty rfl

theorem sound_ofChunk (c : SigChunk) : Sound ids (.ofChunk c) := by
  unfold SigObject.ofChunk
  split
  · rename_i wide
    have maximal : Maximal [c] := ⟨by simpa using wide, by simp [Apart]⟩
    exact sound_uncached (Holds.of_maximal rfl maximal (by simp)) rfl
  · exact sound_empty

/-- The same bit of a wire twice in a row does not join. -/
theorem sound_ofBit (b : SigBit) (width : Nat) : Sound ids (.ofBit b width) := by
  rcases Nat.eq_zero_or_pos width with rfl | pos
  · exact sound_empty
  · refine sound_uncached (Holds.of_maximal rfl ?_ ?_) rfl
    · cases b with
      | const s =>
        simp only [SigObject.ofBit, Nat.pos_iff_ne_zero.mp pos, if_false]
        exact ⟨by simpa [SigChunk.width] using Nat.pos_iff_ne_zero.mp pos, by simp [Apart]⟩
      | wire w offset =>
        simp only [SigObject.ofBit, Nat.pos_iff_ne_zero.mp pos, if_false]
        refine ⟨fun c hc => ?_, ?_⟩
        · rw [eq_of_mem_replicate hc]
          simp
        · exact isChain_replicate_of_rel width (by simp [SigChunk.ofBit, joinChunks])
    · cases b with
      | const s => simp [SigObject.ofBit, Nat.pos_iff_ne_zero.mp pos, SigChunk.width]
      | wire w offset => simp [SigObject.ofBit, Nat.pos_iff_ne_zero.mp pos]

section

variable (sound : Sound ids o)

include sound

theorem Sound.setBit (i : Nat) (b : SigBit) : Sound ids (o.setBit i b) := by
  rcases eq_or_ne o.bits [] with packed | unpacked
  · have same : o.setBit i b = o := by ext1 <;> simp [SigObject.setBit, packed]
    rw [same]
    exact sound
  · have loose := sound.shaped.loose unpacked
    have size : o.width = o.bits.length := by
      rw [sound.holds.width, ← sound.holds.bits unpacked]
    exact sound_uncached (Holds.of_bits loose.1 rfl (by simpa [SigObject.setBit] using size)
      (fun _ => loose.2)) loose.2

theorem Sound.write {i : Nat} {b : SigBit} (h : o.write i b = some r) : Sound ids r := by
  obtain rfl := some.inj (ite_none_right_eq_some.mp h).2
  exact sound.unpack.setBit i b

theorem Sound.replaceAt {offset : Nat} (h : o.replaceAt offset s = some r) : Sound ids r := by
  obtain rfl := some.inj (ite_none_right_eq_some.mp h).2
  exact foldlRecOn (motive := Sound ids) _ _ sound.unpack fun _ kept _ _ => kept.setBit _ _

theorem Sound.removeAt {offset length : Nat} (h : o.removeAt offset length = some r) :
    Sound ids r := by
  obtain rfl := some.inj (ite_none_right_eq_some.mp h).2
  refine sound.rebits unpack_chunks rfl rfl fun empty => ?_
  simp [sound.holds.unpack_bits, empty]

theorem Sound.eraseAt {i : Nat} (inside : i < o.bits.length) : Sound ids (o.eraseAt i) := by
  have unpacked : o.bits ≠ [] := ne_nil_of_length_pos (by omega)
  have loose := sound.shaped.loose unpacked
  have size : o.width = o.bits.length := by rw [sound.holds.width, ← sound.holds.bits unpacked]
  refine sound_uncached (Holds.of_bits loose.1 rfl ?_ (fun _ => loose.2)) loose.2
  simp only [SigObject.eraseAt, length_eraseIdx, inside, if_true]
  omega

end

/-- Both signals of `remove2` lose a bit in the same rounds, so every place is a place of both. -/
theorem eraseHits_sound (hit : SigBit → Bool) (n : Nat) (o : SigObject) (other : Option SigObject)
    (sound : Sound ids o) (inside : n ≤ o.bits.length)
    (companion : ∀ t, other = some t → Sound ids t ∧ t.bits.length = o.bits.length) :
    Sound ids (o.eraseHits hit n other).1 ∧
      ∀ t, (o.eraseHits hit n other).2 = some t → Sound ids t := by
  induction n generalizing o other with
  | zero => exact ⟨sound, fun t ht => (companion t ht).1⟩
  | succ n ih =>
    unfold SigObject.eraseHits
    split
    · refine ih _ _ (sound.eraseAt (by omega)) ?_ ?_
      · simp only [SigObject.eraseAt, length_eraseIdx]
        split <;> omega
      · intro t ht
        obtain ⟨t, rfl, rfl⟩ := map_eq_some_iff.mp ht
        obtain ⟨soundT, size⟩ := companion t rfl
        refine ⟨soundT.eraseAt (by omega), ?_⟩
        simp [SigObject.eraseAt, length_eraseIdx, size]
    · exact ih _ _ sound (by omega) companion

theorem Sound.remove2 (sound : Sound ids o) {hit : SigBit → Bool} {other : Option SigObject}
    {result : SigObject × Option SigObject} (companion : ∀ t, other = some t → Sound ids t)
    (h : o.remove2 hit other = some result) :
    Sound ids result.1 ∧ ∀ t, result.2 = some t → Sound ids t := by
  unfold SigObject.remove2 at h
  split at h
  · rename_i widths
    obtain rfl := some.inj h
    refine eraseHits_sound _ _ _ _ sound.unpack le_rfl ?_
    intro t ht
    obtain ⟨t, rfl, rfl⟩ := map_eq_some_iff.mp ht
    have soundT := companion t rfl
    have same : t.width = o.width := by simpa using widths
    refine ⟨soundT.unpack, ?_⟩
    rw [soundT.holds.unpack_bits, sound.holds.unpack_bits, ← soundT.holds.width,
      ← sound.holds.width, same]
  · cases h

section

variable (left : Sound ids o) (right : Sound ids s)

include left right

theorem eq_objects_sound : Sound ids (o.eq ids s).2.1 ∧ Sound ids (o.eq ids s).2.2 := by
  unfold SigObject.eq
  split
  · exact ⟨left, right⟩
  · split
    · exact ⟨left, right⟩
    · split
      · exact ⟨left.pack, right.pack⟩
      · exact ⟨left.pack.updhash, right.pack.updhash⟩

theorem lt_objects_sound : Sound ids (o.lt ids s).2.1 ∧ Sound ids (o.lt ids s).2.2 := by
  unfold SigObject.lt
  split
  · exact ⟨left, right⟩
  · split
    · exact ⟨left.pack, right.pack⟩
    · exact ⟨left.pack.updhash, right.pack.updhash⟩

theorem Sound.eq_iff : (o.eq ids s).1 = true ↔ o.value = s.value := by
  rw [SigSpecOrder.eq_iff left.holds right.holds, left.hashValue, right.hashValue]
  constructor
  · exact And.left
  · intro same
    exact ⟨same, fun _ => by rw [same]⟩

theorem Sound.orderKey_eq_iff :
    orderKey ids o o.value = orderKey ids s s.value ↔ o.value = s.value := by
  constructor
  · exact orderKey_inj
  · intro same
    rw [orderKey, orderKey, left.hashValue, right.hashValue, same]

end

theorem Sound.appendBit (sound : Sound ids o) {b : SigBit}
    (current : o.hash ≠ 0 → hashOf ids (o.value ++ [b]) = hashOf ids o.value) :
    Sound ids (o.appendBit b) := by
  refine sound_of_holds (sound.holds.appendBit b) ?_
  rw [appendBit_hash]
  exact fun cached => (sound.cached cached).trans (current cached).symm

theorem Sound.append (sound : Sound ids o) (signal : Sound ids s)
    (current : o.width ≠ 0 → o.hash ≠ 0 → hashOf ids (o.value ++ s.value) = hashOf ids o.value) :
    Sound ids (o.append s).1 ∧ Sound ids (o.append s).2 := by
  have holds := sound.holds.append signal.holds
  refine ⟨?_, signal.same holds.2 append_hash_other⟩
  rcases eq_or_ne o.width 0 with empty | wide
  · rcases eq_or_ne s.width 0 with none | some
    · have unchanged : (o.append s).1 = o := by rw [SigObject.append, if_pos none]
      rw [unchanged]
      exact sound
    · rw [SigObject.append, if_neg some, if_pos empty]
      exact signal
  · refine sound_of_holds holds.1 ?_
    rw [append_hash wide]
    exact fun cached => (sound.cached cached).trans (current wide cached).symm

theorem Sound.removeConst (sound : Sound ids o)
    (current : o.hash ≠ 0 → hashOf ids (o.value.filter SigBit.isWire) = hashOf ids o.value) :
    Sound ids o.removeConst := by
  refine sound_of_holds sound.holds.removeConst ?_
  rw [removeConst_hash]
  exact fun cached => (sound.cached cached).trans (current cached).symm

def SoundStore (ids : WireIds) (store : Store) : Prop := ∀ o ∈ store, Sound ids o

variable {i j : Nat}

section

variable (sound : SoundStore ids store)

include sound

theorem SoundStore.get (h : store[i]? = some o) : Sound ids o :=
  sound o (mem_of_getElem? h)

theorem SoundStore.push (new : Sound ids o) : SoundStore ids (store ++ [o]) := by
  rw [SoundStore, forall_mem_append, forall_mem_singleton]
  exact ⟨sound, new⟩

theorem SoundStore.set (new : Sound ids o) : SoundStore ids (store.set i o) := by
  intro x hx
  rcases mem_or_eq_of_mem_set hx with old | rfl
  · exact sound x old
  · exact new

variable {f : SigObject → SigObject}

theorem SoundStore.modify (keeps : ∀ o, Sound ids o → Sound ids (f o)) :
    SoundStore ids (store.modify i f) := by
  intro x hx
  obtain ⟨k, hk⟩ := getElem?_of_mem hx
  rw [getElem?_modify] at hk
  obtain ⟨y, hy, rfl⟩ := map_eq_some_iff.mp hk
  split
  · exact keeps y (sound.get hy)
  · exact sound.get hy

theorem SoundStore.update {f : SigObject → Option SigObject}
    (keeps : ∀ o r, store[i]? = some o → Sound ids o → f o = some r → Sound ids r)
    (h : store.update i f = some store') : SoundStore ids store' := by
  obtain ⟨o, at_i, h⟩ := bind_eq_some_iff.mp h
  obtain ⟨r, made, h⟩ := bind_eq_some_iff.mp h
  obtain rfl := some.inj h
  exact sound.set (keeps o r at_i (sound.get at_i) made)

theorem SoundStore.update2 {f : SigObject → SigObject → Option (SigObject × SigObject)}
    (keeps : ∀ o s r, store[i]? = some o → store[j]? = some s → Sound ids o → Sound ids s →
      f o s = some r → Sound ids r.1 ∧ Sound ids r.2)
    (h : store.update2 i j f = some store') : SoundStore ids store' := by
  unfold Store.update2 at h
  split at h
  · cases h
  · obtain ⟨o, at_i, h⟩ := bind_eq_some_iff.mp h
    obtain ⟨s, at_j, h⟩ := bind_eq_some_iff.mp h
    obtain ⟨r, made, h⟩ := bind_eq_some_iff.mp h
    obtain rfl := some.inj h
    have both := keeps o s r at_i at_j (sound.get at_i) (sound.get at_j) made
    exact (sound.set both.1).set both.2

theorem SoundStore.map (keeps : ∀ o, Sound ids o → Sound ids (f o))
    (h : store.update i (fun o => some (f o)) = some store') : SoundStore ids store' := by
  refine sound.update ?_ h
  intro o r _ soundO made
  obtain rfl := some.inj made
  exact keeps o soundO

theorem SoundStore.map2 {f : SigObject → SigObject → SigObject × SigObject}
    (keeps : ∀ o s, Sound ids o → Sound ids s → Sound ids (f o s).1 ∧ Sound ids (f o s).2)
    (h : store.update2 i j (fun o s => some (f o s)) = some store') : SoundStore ids store' := by
  refine sound.update2 ?_ h
  intro o s r _ _ soundO soundS made
  obtain rfl := some.inj made
  exact keeps o s soundO soundS

end

theorem foldl_sound {α : Type} {f : Store → α → Store}
    (keeps : ∀ store x, SoundStore ids store → SoundStore ids (f store x)) (xs : List α)
    (sound : SoundStore ids store) : SoundStore ids (xs.foldl f store) :=
  foldlRecOn (motive := SoundStore ids) xs f sound fun store kept x _ => keeps store x kept

variable {self other : Nat} {pattern : Pattern} {source : Nat}

section

variable (sound : SoundStore ids store)

include sound

theorem replaceBit_sound {pattern : Nat} :
    SoundStore ids (Store.replaceBit self pattern source other i store j) := by
  unfold Store.replaceBit
  split
  · split
    · exact sound.modify (fun o h => h.setBit _ _)
    · exact sound
  · exact sound

theorem replaceRow_sound {pattern : Nat} :
    SoundStore ids (Store.replaceRow self pattern source other store i) := by
  unfold Store.replaceRow
  split
  · exact foldl_sound (fun _ _ h => replaceBit_sound h) _ sound
  · exact sound

theorem replace_sound {pattern : Nat} (h : store.replace self pattern source other = some store') :
    SoundStore ids store' := by
  obtain ⟨o, _, h⟩ := bind_eq_some_iff.mp h
  obtain ⟨p, _, h⟩ := bind_eq_some_iff.mp h
  obtain ⟨r, _, h⟩ := bind_eq_some_iff.mp h
  obtain ⟨t, _, h⟩ := bind_eq_some_iff.mp h
  obtain rfl := some.inj (ite_none_right_eq_some.mp h).2
  have unpacked : ∀ o, Sound ids o → Sound ids o.unpack := fun _ h => h.unpack
  exact foldl_sound (fun _ _ h => replaceRow_sound h) _
    ((((sound.modify unpacked).modify unpacked).modify unpacked).modify unpacked)

theorem replaceRules_sound {rules : List (SigBit × SigBit)}
    (h : store.replaceRules self rules other = some store') : SoundStore ids store' := by
  have rule : ∀ (store : Store) i, SoundStore ids store →
      SoundStore ids (Store.replaceRule self other rules store i) := by
    intro store i sound
    unfold Store.replaceRule
    split
    · exact sound.modify (fun o h => h.setBit _ _)
    · exact sound
  obtain ⟨o, _, h⟩ := bind_eq_some_iff.mp h
  obtain ⟨t, _, h⟩ := bind_eq_some_iff.mp h
  have h := (ite_none_right_eq_some.mp h).2
  split at h
  · obtain rfl := some.inj h
    exact sound
  · obtain rfl := some.inj h
    have unpacked : ∀ o, Sound ids o → Sound ids o.unpack := fun _ h => h.unpack
    exact foldl_sound rule _ ((sound.modify unpacked).modify unpacked)

theorem tests_sound {found : List (SigBit → Bool) × Store} (h : store.tests pattern = some found) :
    SoundStore ids found.2 := by
  cases pattern with
  | pool bits =>
    obtain rfl := some.inj h
    exact sound
  | signal p =>
    obtain ⟨o, at_p, h⟩ := bind_eq_some_iff.mp h
    obtain rfl := some.inj h
    exact sound.set (sound.get at_p).pack

theorem remove2_sound {other : Option Nat} (h : store.remove2 self pattern other = some store') :
    SoundStore ids store' := by
  obtain ⟨o, at_self, h⟩ := bind_eq_some_iff.mp h
  obtain ⟨⟨hits, looked⟩, found, h⟩ := bind_eq_some_iff.mp h
  have soundO := sound.get at_self
  have sound' : SoundStore ids (if o.value.any SigBit.isWire then looked else store) := by
    split
    · exact tests_sound sound found
    · exact sound
  dsimp only at h
  split at h
  · cases h
  · cases other with
    | none =>
      obtain ⟨r, made, h⟩ := bind_eq_some_iff.mp h
      obtain rfl := some.inj h
      exact sound'.set (soundO.remove2 (by simp) made).1
    | some j =>
      obtain ⟨t, at_j, h⟩ := bind_eq_some_iff.mp h
      obtain ⟨r, made, h⟩ := bind_eq_some_iff.mp h
      obtain ⟨t', second, h⟩ := bind_eq_some_iff.mp h
      split at h
      · cases h
      · obtain rfl := some.inj h
        have companion : ∀ x, some t = some x → Sound ids x := by
          intro x hx
          obtain rfl := some.inj hx
          exact sound'.get at_j
        have both := soundO.remove2 companion made
        exact (sound'.set both.1).set (both.2 t' second)

theorem extract_sound {other : Option Nat} (h : store.extract self pattern other = some store') :
    SoundStore ids store' := by
  obtain ⟨o, at_self, h⟩ := bind_eq_some_iff.mp h
  obtain ⟨⟨hits, now⟩, found, h⟩ := bind_eq_some_iff.mp h
  have sound' : SoundStore ids now := tests_sound (sound.set (sound.get at_self).unpack) found
  cases other with
  | none =>
    obtain rfl := some.inj h
    exact sound'.push (sound_ofBits _)
  | some j =>
    obtain ⟨t, at_j, h⟩ := bind_eq_some_iff.mp h
    obtain rfl := some.inj (ite_none_right_eq_some.mp h).2
    refine SoundStore.push ?_ (sound_ofBits _)
    split
    · exact sound'
    · exact sound'.set (sound'.get at_j).unpack

theorem extractAt_sound {offset length : Nat} (h : store.extractAt self offset length = some store') :
    SoundStore ids store' := by
  obtain ⟨o, at_self, h⟩ := bind_eq_some_iff.mp h
  obtain rfl := some.inj (ite_none_right_eq_some.mp h).2
  exact (sound.set (sound.get at_self).unpack).push (sound_ofBits _)

end

end ManticoreFrontend.Kernel.SigSpecCalls
