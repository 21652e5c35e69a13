/- source: passes/manticore/manticore_utils.h, passes/manticore/manticore_utils.cc
   digest: The runs of equal bits of a signal tile it, and neighbours differ. -/

import ManticoreFrontend.Kernel.SigTools

namespace ManticoreFrontend.Passes.Repeats

open Kernel Signals SigTools List

structure RepeatPattern where
  bit : SigBit
  width : Nat
  offset : Nat
  deriving DecidableEq

structure BitRepeatBuilder where
  currentBit : SigBit
  width : Nat
  pos : Nat
  res : List RepeatPattern

def BitRepeatBuilder.consume (s : BitRepeatBuilder) (b : SigBit) : BitRepeatBuilder :=
  if s.currentBit = b then { s with width := s.width + 1 }
  else ⟨b, 1, s.pos + s.width, s.res ++ [⟨s.currentBit, s.width, s.pos⟩]⟩

def BitRepeatBuilder.build (s : BitRepeatBuilder) : List RepeatPattern :=
  if s.width ≠ 0 then s.res ++ [⟨s.currentBit, s.width, s.pos⟩] else []

/-- `getRepeats`, which fails on an empty signal. -/
def getRepeats (sig : SigSpec) (sigmap : SigMap) : Option (List RepeatPattern) :=
  match sig with
  | [] => none
  | bit0 :: _ =>
    let builder : BitRepeatBuilder := ⟨apply sigmap bit0, 0, 0, []⟩
    some (sig.foldl (fun s b => s.consume (apply sigmap b)) builder).build

/-- The runs lie next to each other from `pos` on, and spell out the bits. -/
def Tiles : Nat → List RepeatPattern → List SigBit → Prop
  | _, [], bits => bits = []
  | pos, r :: runs, bits =>
    r.offset = pos ∧ 0 < r.width ∧
      ∃ rest, bits = List.replicate r.width r.bit ++ rest ∧ Tiles (pos + r.width) runs rest

variable {pos : Nat} {runs : List RepeatPattern} {bits : List SigBit}

section

variable (tiles : Tiles pos runs bits)

include tiles

theorem Tiles.snoc (b : SigBit) {n : Nat} (positive : 0 < n) :
    Tiles pos (runs ++ [⟨b, n, pos + bits.length⟩]) (bits ++ List.replicate n b) := by
  induction runs generalizing pos bits with
  | nil =>
    obtain rfl : bits = [] := tiles
    exact ⟨by simp, positive, [], by simp, rfl⟩
  | cons r runs ih =>
    obtain ⟨start, wide, rest, rfl, tail⟩ := tiles
    refine ⟨start, wide, rest ++ replicate n b, by simp, ?_⟩
    have next := ih tail
    simp only [length_append, length_replicate, ← Nat.add_assoc] at next ⊢
    exact next

theorem Tiles.decompose : runs.flatMap (fun r => List.replicate r.width r.bit) = bits ∧
    (∀ (i : Nat) r, runs[i]? = some r → r.offset = pos + ((runs.take i).map (·.width)).sum) ∧
    ∀ r ∈ runs, 0 < r.width := by
  induction runs generalizing pos bits with
  | nil => exact ⟨tiles.symm, by simp, by simp⟩
  | cons r runs ih =>
    obtain ⟨start, wide, rest, rfl, tail⟩ := tiles
    obtain ⟨expand, offsets, widths⟩ := ih tail
    refine ⟨by rw [flatMap_cons, expand], fun i s found => ?_, forall_mem_cons.mpr ⟨wide, widths⟩⟩
    cases i with
    | zero =>
      obtain rfl : r = s := by simpa using found
      simpa using start
    | succ i =>
      rw [offsets i s (by simpa using found), take_succ_cons, map_cons, sum_cons, Nat.add_assoc]

theorem Tiles.offset_ge : ∀ r ∈ runs, pos ≤ r.offset := by
  induction runs generalizing pos bits with
  | nil => simp
  | cons r runs ih =>
    obtain ⟨start, -, rest, rfl, tail⟩ := tiles
    intro r' member
    rcases mem_cons.mp member with rfl | member
    · omega
    · have := ih tail r' member
      omega

theorem Tiles.bit_eq {r : RepeatPattern} (member : r ∈ runs) {i : Nat} (low : r.offset ≤ i)
    (high : i < r.offset + r.width) : bits[i - pos]? = some r.bit := by
  induction runs generalizing pos bits with
  | nil => simp at member
  | cons s runs ih =>
    obtain ⟨start, -, rest, rfl, tail⟩ := tiles
    rcases mem_cons.mp member with rfl | member
    · have inside : i - pos < r.width := by omega
      rw [getElem?_append_left (by simpa using inside)]
      simp [inside]
    · have past := tail.offset_ge r member
      rw [getElem?_append_right (by simp; omega)]
      have := ih tail member
      simpa [Nat.sub_sub] using this

theorem Tiles.covered {i : Nat} (low : pos ≤ i) (high : i < pos + bits.length) :
    ∃ r ∈ runs, r.offset ≤ i ∧ i < r.offset + r.width := by
  induction runs generalizing pos bits with
  | nil =>
    obtain rfl : bits = [] := tiles
    simp at high
    omega
  | cons r runs ih =>
    obtain ⟨start, -, rest, rfl, tail⟩ := tiles
    simp only [length_append, length_replicate] at high
    by_cases here : i < r.offset + r.width
    · exact ⟨r, by simp, by omega, here⟩
    · obtain ⟨r', member, range⟩ := ih tail (by omega) (by omega)
      exact ⟨r', by simp [member], range⟩

theorem Tiles.le_length {r : RepeatPattern} (member : r ∈ runs) :
    r.offset + r.width ≤ pos + bits.length := by
  induction runs generalizing pos bits with
  | nil => simp at member
  | cons s runs ih =>
    obtain ⟨start, -, rest, rfl, tail⟩ := tiles
    simp only [length_append, length_replicate]
    rcases mem_cons.mp member with rfl | member
    · omega
    · have := ih tail member
      omega

end

private def Consumed (s : BitRepeatBuilder) (bits : List SigBit) : Prop :=
  ∃ done, Tiles 0 s.res done ∧ done.length = s.pos ∧
    bits = done ++ List.replicate s.width s.currentBit ∧ (s.width = 0 → done = [])

private theorem consume_step {s : BitRepeatBuilder} {bits : List SigBit} (h : Consumed s bits)
    (b : SigBit) (first : s.width = 0 → s.currentBit = b) :
    Consumed (s.consume b) (bits ++ [b]) ∧ (s.consume b).width ≠ 0 := by
  obtain ⟨done, tiles, length, rfl, empty⟩ := h
  unfold BitRepeatBuilder.consume
  split
  · rename_i same
    refine ⟨⟨done, tiles, length, ?_, by simp⟩, by simp⟩
    rw [append_assoc, replicate_succ', same]
  · rename_i differ
    have positive : 0 < s.width := Nat.pos_of_ne_zero (fun zero => differ (first zero))
    refine ⟨⟨done ++ replicate s.width s.currentBit, ?_, by simp [length], by simp, by simp⟩,
      by simp⟩
    simpa [length] using tiles.snoc s.currentBit positive

private theorem consume_run {s : BitRepeatBuilder} {bits : List SigBit} (h : Consumed s bits)
    (running : s.width ≠ 0) (more : List SigBit) (f : SigBit → SigBit) :
    Consumed (more.foldl (fun s b => s.consume (f b)) s) (bits ++ more.map f) ∧
      (more.foldl (fun s b => s.consume (f b)) s).width ≠ 0 := by
  induction more generalizing s bits with
  | nil => simpa using ⟨h, running⟩
  | cons b more ih =>
    obtain ⟨next, wide⟩ := consume_step h (f b) (fun zero => absurd zero running)
    simpa using ih next wide

theorem getRepeats_tiles {sig : SigSpec} {sigmap : SigMap} {runs : List RepeatPattern}
    (h : getRepeats sig sigmap = some runs) : Tiles 0 runs (sig.map (apply sigmap)) := by
  cases sig with
  | nil => cases h
  | cons bit0 sig =>
    obtain rfl := Option.some.inj h
    have empty : Consumed ⟨apply sigmap bit0, 0, 0, []⟩ [] :=
      ⟨[], rfl, rfl, by simp, by simp⟩
    obtain ⟨start, running⟩ := consume_step empty (apply sigmap bit0) (fun _ => rfl)
    obtain ⟨⟨done, tiles, length, bits, -⟩, wide⟩ := consume_run start running sig (apply sigmap)
    rw [foldl_cons, BitRepeatBuilder.build, if_pos wide]
    simp only [nil_append, singleton_append] at bits
    rw [map_cons, bits]
    simpa [length] using tiles.snoc _ (Nat.pos_of_ne_zero wide)

/-- Neighbours differ, the run that is being built included. -/
private theorem consume_apart {s : BitRepeatBuilder}
    (apart : (s.res.map (·.bit) ++ [s.currentBit]).IsChain (· ≠ ·)) (bits : List SigBit)
    (f : SigBit → SigBit) : let t := bits.foldl (fun s b => s.consume (f b)) s
    (t.res.map (·.bit) ++ [t.currentBit]).IsChain (· ≠ ·) := by
  induction bits generalizing s with
  | nil => exact apart
  | cons b bits ih =>
    refine ih ?_
    simp only [BitRepeatBuilder.consume]
    split
    · exact apart
    · rename_i differ
      simpa [isChain_append, differ] using apart

/-- The runs of a signal that is not empty expand to its mapped bits, lie one after the other from
the start, are not empty and differ from their neighbours. -/
theorem getRepeats_canonical (bit0 : SigBit) (sig : SigSpec) (sigmap : SigMap) :
    ∃ runs, getRepeats (bit0 :: sig) sigmap = some runs ∧
      runs.flatMap (fun r => List.replicate r.width r.bit) = (bit0 :: sig).map (apply sigmap) ∧
      (∀ (i : Nat) r, runs[i]? = some r → r.offset = ((runs.take i).map (·.width)).sum) ∧
      (∀ r ∈ runs, 0 < r.width) ∧ (runs.map (·.bit)).IsChain (· ≠ ·) := by
  have found : getRepeats (bit0 :: sig) sigmap = some _ := rfl
  obtain ⟨expand, offsets, widths⟩ := (getRepeats_tiles found).decompose
  refine ⟨_, found, expand, fun i r here => by simpa using offsets i r here, widths, ?_⟩
  have apart := @consume_apart ⟨apply sigmap bit0, 0, 0, []⟩ (by simp) (bit0 :: sig) (apply sigmap)
  unfold BitRepeatBuilder.build
  split
  · simpa using apart
  · simp

end ManticoreFrontend.Passes.Repeats
