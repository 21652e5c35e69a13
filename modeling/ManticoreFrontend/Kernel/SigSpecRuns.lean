/- source: kernel/rtlil.h, kernel/rtlil.cc
   digest: Over whole programs: equality, hash and order depend on the bits alone as long as no
     call changes the bits of a packed object whose hash is cached. -/

import Mathlib.Data.Countable.Basic
import Mathlib.Logic.Equiv.List
import ManticoreFrontend.Foundation.Outcome
import ManticoreFrontend.Kernel.SigSpecCalls

namespace ManticoreFrontend.Kernel.SigSpecRuns

open Foundation.Outcome Signals SigSpecs SigSpecForms SigSpecOrder SigSpecCalls Option

variable {ids : WireIds} {o : SigObject} {sig : SigSpec} {store store' : Store}

/-- The call changes the hash of the bits and keeps the cached one: `append` to a signal that is not
empty, `append` of a bit, and `remove_const`. -/
def Outdates (ids : WireIds) (store : Store) : Op → Prop
  | .append self signal => ∃ o s, self ≠ signal ∧ store[self]? = some o ∧
      store[signal]? = some s ∧ o.width ≠ 0 ∧ o.hash ≠ 0 ∧
      hashOf ids (o.value ++ s.value) ≠ hashOf ids o.value
  | .appendBit self b => ∃ o, store[self]? = some o ∧ o.hash ≠ 0 ∧
      hashOf ids (o.value ++ [b]) ≠ hashOf ids o.value
  | .removeConst self => ∃ o, store[self]? = some o ∧ o.hash ≠ 0 ∧
      hashOf ids (o.value.filter SigBit.isWire) ≠ hashOf ids o.value
  | _ => False

theorem step_sound {op : Op} (sound : SoundStore ids store) (current : ¬ Outdates ids store op)
    (h : step ids store op = some store') : SoundStore ids store' := by
  cases op with
  | default =>
    obtain rfl := some.inj h
    exact sound.push sound_empty
  | ofChunk c =>
    obtain rfl := some.inj h
    exact sound.push (sound_ofChunk c)
  | ofBit b width =>
    obtain rfl := some.inj h
    exact sound.push (sound_ofBit b width)
  | ofBits bits =>
    obtain rfl := some.inj h
    exact sound.push (sound_ofBits bits)
  | copy source =>
    obtain ⟨o, at_source, h⟩ := bind_eq_some_iff.mp h
    obtain rfl := some.inj h
    exact sound.push (sound.get at_source)
  | assign self source =>
    obtain ⟨o, at_source, h⟩ := bind_eq_some_iff.mp h
    exact sound.map (fun _ _ => sound.get at_source) h
  | append self signal =>
    simp only [step] at h
    split at h
    · refine sound.update ?_ h
      intro o r _ soundO made
      split at made
      · obtain rfl := some.inj made
        exact soundO
      · cases made
    · rename_i apart
      refine sound.update2 ?_ h
      intro o s r at_self at_signal soundO soundS made
      obtain rfl := some.inj made
      refine soundO.append soundS ?_
      intro wide cached
      by_contra changed
      exact current ⟨o, s, apart, at_self, at_signal, wide, cached, changed⟩
  | appendBit self b =>
    refine sound.update ?_ h
    intro o r at_self soundO made
    obtain rfl := some.inj made
    refine soundO.appendBit ?_
    intro cached
    by_contra changed
    exact current ⟨o, at_self, cached, changed⟩
  | removeConst self =>
    refine sound.update ?_ h
    intro o r at_self soundO made
    obtain rfl := some.inj made
    refine soundO.removeConst ?_
    intro cached
    by_contra changed
    exact current ⟨o, at_self, cached, changed⟩
  | chunks self => exact sound.map (fun o soundO => soundO.pack) h
  | bits self => exact sound.map (fun o soundO => soundO.unpack) h
  | hash self => exact sound.map (fun o soundO => soundO.updhash) h
  | eq self other =>
    simp only [step] at h
    split at h
    · exact sound.map (fun o soundO => soundO) h
    · exact sound.map2 (fun o s => eq_objects_sound) h
  | lt self other =>
    simp only [step] at h
    split at h
    · exact sound.map (fun o soundO => soundO) h
    · exact sound.map2 (fun o s => lt_objects_sound) h
  | write self index b => exact sound.update (fun o r _ soundO made => soundO.write made) h
  | sort self => exact sound.map (fun o soundO => soundO.sort) h
  | sortAndUnify self => exact sound.map (fun o _ => sound_ofBits _) h
  | reverse self => exact sound.map (fun o soundO => soundO.reverse) h
  | replace self pattern source other => exact replace_sound sound h
  | replaceRules self rules other => exact replaceRules_sound sound h
  | replaceAt self offset source =>
    simp only [step] at h
    split at h
    · exact sound.update (fun o r _ soundO made => soundO.replaceAt made) h
    · refine sound.update2 ?_ h
      intro o s r _ _ soundO soundS made
      obtain ⟨o', done, rfl⟩ := map_eq_some_iff.mp made
      exact ⟨soundO.replaceAt done, soundS.unpack⟩
  | remove2 self pattern other => exact remove2_sound sound h
  | removeAt self offset length =>
    exact sound.update (fun o r _ soundO made => soundO.removeAt made) h
  | extract self pattern other => exact extract_sound sound h
  | extractAt self offset length => exact extractAt_sound sound h

/-- What the signals of a program are compared with: each other, and signals built from bits. -/
def Compared (store : Store) (o : SigObject) : Prop := o ∈ store ∨ ∃ bits, o = .ofBits bits

/-- Equality, hash and order see nothing but the bits. -/
structure Bitwise (ids : WireIds) (store : Store) : Prop where
  equal : ∀ a b, Compared store a → Compared store b →
    ((a.eq ids b).1 = true ↔ a.value = b.value)
  hash : ∀ a b, Compared store a → Compared store b → (a.eq ids b).1 = true →
    a.hashValue ids = b.hashValue ids
  irrefl : ∀ a, Compared store a → (a.lt ids a).1 = false
  trans : ∀ a b c, Compared store a → Compared store b → Compared store c →
    (a.lt ids b).1 = true → (b.lt ids c).1 = true → (a.lt ids c).1 = true
  total : ∀ a b, Compared store a → Compared store b →
    ((a.eq ids b).1 = true ↔ (a.lt ids b).1 = false ∧ (b.lt ids a).1 = false)

theorem compared_sound (sound : SoundStore ids store) (h : Compared store o) : Sound ids o := by
  rcases h with member | ⟨bits, rfl⟩
  · exact sound o member
  · exact sound_ofBits bits

theorem bitwise_of_sound (sound : SoundStore ids store) : Bitwise ids store where
  equal a b ha hb := (compared_sound sound ha).eq_iff (compared_sound sound hb)
  hash a b ha hb h := by
    have same := ((compared_sound sound ha).eq_iff (compared_sound sound hb)).mp h
    rw [(compared_sound sound ha).hashValue, (compared_sound sound hb).hashValue, same]
  irrefl a ha := by
    have holds := (compared_sound sound ha).holds
    rw [Bool.eq_false_iff, ne_eq, lt_iff holds holds]
    exact lt_irrefl _
  trans a b c ha hb hc := by
    rw [lt_iff (compared_sound sound ha).holds (compared_sound sound hb).holds,
      lt_iff (compared_sound sound hb).holds (compared_sound sound hc).holds,
      lt_iff (compared_sound sound ha).holds (compared_sound sound hc).holds]
    exact lt_trans
  total a b ha hb := by
    have left := compared_sound sound ha
    have right := compared_sound sound hb
    rw [Bool.eq_false_iff, Bool.eq_false_iff, ne_eq, ne_eq, lt_iff left.holds right.holds,
      lt_iff right.holds left.holds, left.eq_iff right, ← left.orderKey_eq_iff right]
    exact ⟨fun h => by simp [h], fun h => le_antisymm (not_lt.mp h.2) (not_lt.mp h.1)⟩

theorem not_bitwise (member : o ∈ store) (holds : Holds o sig) (cached : o.hash ≠ 0)
    (outdated : o.hash ≠ hashOf ids sig) : ¬ Bitwise ids store := by
  intro bitwise
  have fresh := holds_ofBits sig
  have same : o.value = (SigObject.ofBits sig).value := holds.value.trans fresh.value.symm
  have equal := (bitwise.equal o (.ofBits sig) (.inl member) (.inr ⟨sig, rfl⟩)).mpr same
  have hash := bitwise.hash o (.ofBits sig) (.inl member) (.inr ⟨sig, rfl⟩) equal
  rw [hashValue_eq holds, if_pos cached, (sound_ofBits sig).hashValue, fresh.value] at hash
  exact outdated hash

theorem update_run {i : Nat} {f : SigObject → SigObject} (at_i : store[i]? = some o) :
    ∃ store', store.update i (fun o => some (f o)) = some store' ∧ f o ∈ store' := by
  refine ⟨store.set i (f o), by simp [Store.update, at_i], ?_⟩
  exact List.mem_set (List.getElem?_eq_some_iff.mp at_i).1 _

theorem outdates_breaks {op : Op} (sound : SoundStore ids store) (h : Outdates ids store op) :
    ∃ store', step ids store op = some store' ∧ ¬ Bitwise ids store' := by
  cases op with
  | append self signal =>
    obtain ⟨o, s, apart, at_self, at_signal, wide, cached, changed⟩ := h
    have soundO := sound.get at_self
    have soundS := sound.get at_signal
    have inside : self < store.length := (List.getElem?_eq_some_iff.mp at_self).1
    refine ⟨(store.set self (o.append s).1).set signal (o.append s).2, ?_, ?_⟩
    · simp [step, apart, Store.update2, at_self, at_signal]
    · have member : (o.append s).1 ∈ (store.set self (o.append s).1).set signal (o.append s).2 := by
        apply List.mem_of_getElem? (i := self)
        rw [List.getElem?_set_ne (Ne.symm apart), List.getElem?_set_self inside]
      have kept : (o.append s).1.hash = o.hash := append_hash wide
      refine not_bitwise member (soundO.holds.append soundS.holds).1 (kept ▸ cached) ?_
      rw [kept, soundO.cached cached]
      exact Ne.symm changed
  | appendBit self b =>
    obtain ⟨o, at_self, cached, changed⟩ := h
    have soundO := sound.get at_self
    obtain ⟨store', done, member⟩ := update_run (f := (·.appendBit b)) at_self
    refine ⟨store', done, not_bitwise member (soundO.holds.appendBit b) ?_ ?_⟩
    · rw [appendBit_hash]
      exact cached
    · rw [appendBit_hash, soundO.cached cached]
      exact Ne.symm changed
  | removeConst self =>
    obtain ⟨o, at_self, cached, changed⟩ := h
    have soundO := sound.get at_self
    obtain ⟨store', done, member⟩ := update_run (f := (·.removeConst)) at_self
    refine ⟨store', done, not_bitwise member soundO.holds.removeConst ?_ ?_⟩
    · rw [removeConst_hash]
      exact cached
    · rw [removeConst_hash, soundO.cached cached]
      exact Ne.symm changed
  | _ => exact h.elim

/-- Comparison is bitwise throughout a program if and only if no call changes the bits' hash of an
object and keeps the hash it has cached. -/
theorem comparison_bitwise_iff (ids : WireIds) (ops : List Op) :
    (∀ before, before <+: ops → ∀ store, run ids [] before = some store → Bitwise ids store) ↔
      ∀ before op, before ++ [op] <+: ops → ∀ store, run ids [] before = some store →
        ¬ Outdates ids store op := by
  refine foldlM_good_iff (fun _ => SoundStore ids) (fun o h => absurd h (by simp)) ?_ ?_
    bitwise_of_sound ops
  · exact fun sound current done => step_sound sound current done
  · exact fun sound outdated => outdates_breaks sound outdated

/-- `SigSpec a(State::S0); a.hash(); a.append(State::S1); SigSpec b({State::S0, State::S1});`. -/
def hashThenAppend : List Op :=
  [.ofBit (.const .S0) 1, .hash 0, .appendBit 0 (.const .S1), .ofBits [.const .S0, .const .S1]]

theorem wireIds_exist : Nonempty WireIds := by
  have chars : Countable Char := Function.Injective.countable (f := Char.toNat)
    (fun a b h => Char.toNat_inj.mp h)
  have names : Countable String := Function.Injective.countable (f := String.toList)
    (fun a b h => String.toList_inj.mp h)
  have wires : Countable Wire := Function.Injective.countable
    (f := fun w => (w.name, w.width, w.portInput, w.portOutput)) (fun a b h => by
      cases a
      cases b
      simpa using h)
  obtain ⟨index, index_injective⟩ := exists_injective_nat String
  obtain ⟨address, address_injective⟩ := exists_injective_nat Wire
  exact ⟨⟨index, fun w => address w + 1, index_injective,
    fun a b h => address_injective (Nat.succ.inj h), fun w => Nat.succ_pos _⟩⟩

theorem hash_then_append_differs : Nonempty WireIds ∧ ∀ ids : WireIds,
    ∃ a b, run ids [] hashThenAppend = some [a, b] ∧ a.value = b.value ∧
      (a.eq ids b).1 = false ∧ a.hashValue ids ≠ b.hashValue ids := by
  refine ⟨wireIds_exist, fun ids => ⟨_, _, rfl, rfl, rfl, ?_⟩⟩
  show (177573 : UInt32) ≠ 5859908
  decide

end ManticoreFrontend.Kernel.SigSpecRuns
