/- source: passes/manticore/manticore_writer.cc
   digest: The address arithmetic of a memory port, with C integers, against the address range. -/

import ManticoreFrontend.Writer.MemoryCells

namespace ManticoreFrontend.Writer.MemoryAddress

open Kernel.Signals MemoryCells Nat

variable (mem : Memory)

/-- A memory with at least one word, whose size and offset are C `int`s. -/
structure Sized : Prop where
  positive : 1 ≤ mem.size
  size : mem.size < 2 ^ 31
  offset : mem.startOffset < 2 ^ 31

def InRange (addr : Nat) : Prop :=
  mem.startOffset ≤ addr ∧ addr < mem.startOffset + mem.size

instance (mem : Memory) (addr : Nat) : Decidable (InRange mem addr) :=
  inferInstanceAs (Decidable (_ ∧ _))

/-- The subtraction of the offset at the width of the address. -/
def realAddr (addrBits addr : Nat) : Nat :=
  (((addr : Int) - mem.startOffset) % 2 ^ addrBits).toNat

def passes (addrBits real : Nat) : Bool :=
  !hasUpperBoundCheck mem addrBits || decide (real < mem.size)

/-- Sizes for which `1 << mem_addr_bits` equals the size when the memory starts at address zero. -/
def PowerSize : Prop := ∃ k, 1 ≤ k ∧ k ≤ 30 ∧ mem.size = 2 ^ k

instance (mem : Memory) : Decidable (PowerSize mem) :=
  decidable_of_iff (∃ k, k < 31 ∧ 1 ≤ k ∧ mem.size = 2 ^ k)
    ⟨fun ⟨k, lt, pos, eq⟩ => ⟨k, pos, Nat.le_of_lt_succ lt, eq⟩,
      fun ⟨k, pos, le, eq⟩ => ⟨k, Nat.lt_succ_of_le le, pos, eq⟩⟩

/-- The addresses a port treats as the range says. The subtraction may wrap an address below the
offset into the memory, and an address of 31 bits or more may lose its bound check. -/
def GoodAddr (addrBits addr : Nat) : Prop :=
  ¬ (addr < mem.startOffset ∧ realAddr mem addrBits addr < mem.size) ∧
    ¬ (mem.startOffset = 0 ∧ 31 ≤ addrBits ∧ PowerSize mem ∧ mem.size ≤ addr)

instance (mem : Memory) (addrBits addr : Nat) : Decidable (GoodAddr mem addrBits addr) :=
  inferInstanceAs (Decidable (¬ _ ∧ ¬ _))

section Arithmetic

theorem bitLengthLoop_spec {fuel v : Nat} (len : Nat) (fits : v < 2 ^ fuel) :
    ∃ k, bitLengthLoop fuel v len = len + k ∧ v < 2 ^ k ∧ (v = 0 → k = 0) ∧
      (v ≠ 0 → 2 ^ k ≤ 2 * v) := by
  induction fuel generalizing v len with
  | zero =>
    have zero : v = 0 := by simpa using fits
    exact ⟨0, rfl, by simp [zero], fun _ => rfl, fun h => absurd zero h⟩
  | succ fuel ih =>
    unfold bitLengthLoop
    split
    · rename_i zero
      exact ⟨0, rfl, by simp [zero], fun _ => rfl, fun h => absurd zero h⟩
    · rename_i positive
      have half : v / 2 < 2 ^ fuel := by
        omega
      obtain ⟨k, count, below, zero, above⟩ := ih (len + 1) half
      refine ⟨k + 1, by omega, ?_, fun h => absurd h positive, fun _ => ?_⟩
      · omega
      · by_cases last : v / 2 = 0
        · simp only [zero last]
          omega
        · omega

theorem bitLength_spec {v : Nat} (fits : v < 2 ^ 32) :
    1 ≤ bitLength v ∧ v < 2 ^ bitLength v ∧ (v ≠ 0 → 2 ^ bitLength v ≤ 2 * v) := by
  have value : ((v : Int) % 2 ^ 32).toNat = v := by omega
  unfold bitLength
  rw [value]
  by_cases zero : v = 0
  · simp [zero]
  · rw [if_neg zero]
    obtain ⟨k, count, below, -, above⟩ := bitLengthLoop_spec 0 fits
    rw [count, zero_add]
    by_contra short
    have : k = 0 := by omega
    subst this
    omega

theorem oneShl_small {n : Nat} (h : n ≤ 30) : oneShl n = (2 : Int) ^ n := by
  have bound : 2 ^ n < 2 ^ 31 := Nat.pow_lt_pow_right (by omega) (by omega)
  have value : (BitVec.ofNat 32 (2 ^ n)).toNat = 2 ^ n := by
    exact mod_eq_of_lt (by omega)
  rw [oneShl, BitVec.toInt_eq_toNat_of_lt (by omega), value]
  rfl

theorem oneShl_large {n : Nat} (h : 31 ≤ n) : oneShl n ≤ 0 := by
  rcases lt_or_ge n 32 with small | large
  · obtain rfl : n = 31 := by omega
    decide
  · have zero : BitVec.ofNat 32 (2 ^ n) = 0#32 := by
      apply BitVec.eq_of_toNat_eq
      exact mod_eq_zero_of_dvd (pow_dvd_pow 2 large)
    rw [oneShl, zero]
    decide

variable {mem : Memory} (sized : Sized mem)
include sized

theorem memAddrBits_spec :
    1 ≤ memAddrBits mem ∧ mem.size + mem.startOffset - 1 < 2 ^ memAddrBits mem ∧
      (mem.size + mem.startOffset - 1 ≠ 0 →
        2 ^ memAddrBits mem ≤ 2 * (mem.size + mem.startOffset - 1)) := by
  have positive := sized.positive
  have cast : (mem.size : Int) + mem.startOffset - 1 =
      ((mem.size + mem.startOffset - 1 : Nat) : Int) := by omega
  rw [memAddrBits, cast]
  have size := sized.size
  have offset := sized.offset
  exact bitLength_spec (by omega)

theorem size_lt_pow (n : Nat) : mem.size < 2 ^ (max n (memAddrBits mem) + 1) := by
  have bound := (memAddrBits_spec sized).2.1
  have grow : 2 ^ memAddrBits mem ≤ 2 ^ max n (memAddrBits mem) :=
    Nat.pow_le_pow_right (by omega) (Nat.le_max_right _ _)
  omega

/-- The bound check is left out exactly at address zero for a size that is a power of two, when the
address has at most the bits the size needs, or 31 bits and more. -/
theorem hasUpperBoundCheck_eq_false (addrBits : Nat) :
    hasUpperBoundCheck mem addrBits = false ↔
      mem.startOffset = 0 ∧ ∃ k, 1 ≤ k ∧ k ≤ 30 ∧ mem.size = 2 ^ k ∧ (addrBits ≤ k ∨ 31 ≤ addrBits) := by
  obtain ⟨one, above, below⟩ := memAddrBits_spec sized
  have positive := sized.positive
  rw [hasUpperBoundCheck, Bool.or_eq_false_iff, decide_eq_false_iff_not, decide_eq_false_iff_not,
    not_not, Int.not_lt]
  constructor
  · rintro ⟨size, le⟩
    have small : memAddrBits mem ≤ 30 := by
      by_contra large
      have := oneShl_large (n := memAddrBits mem) (by omega)
      omega
    have exact : mem.size = 2 ^ memAddrBits mem := by
      rw [oneShl_small small] at size
      exact_mod_cast size
    refine ⟨by omega, memAddrBits mem, one, small, exact, ?_⟩
    by_contra between
    have range : memAddrBits mem < addrBits ∧ addrBits ≤ 30 := by omega
    rw [oneShl_small small, oneShl_small range.2] at le
    have grow : (2 : Nat) ^ memAddrBits mem < 2 ^ addrBits :=
      Nat.pow_lt_pow_right (by omega) range.1
    have back : (2 : Nat) ^ addrBits ≤ 2 ^ memAddrBits mem := by exact_mod_cast le
    omega
  · rintro ⟨start, k, pos, small, size, bits⟩
    have pow : 2 ^ k ≠ 1 := by
      have := Nat.pow_le_pow_right (show 0 < 2 by omega) pos
      omega
    have digits : memAddrBits mem = k := by
      have lt : k < memAddrBits mem + 1 := by
        by_contra far
        have := Nat.pow_le_pow_right (show 0 < 2 by omega) (show memAddrBits mem + 1 ≤ k by omega)
        omega
      have le : memAddrBits mem < k + 1 := by
        by_contra far
        have := Nat.pow_le_pow_right (show 0 < 2 by omega) (show k + 1 ≤ memAddrBits mem by omega)
        omega
      omega
    rw [digits]
    refine ⟨by rw [oneShl_small small, size]; push_cast; rfl, ?_⟩
    rcases bits with fits | wide
    · rw [oneShl_small small, oneShl_small (by omega)]
      exact_mod_cast Nat.pow_le_pow_right (by omega) fits
    · have zero := oneShl_large wide
      have nonneg : (0 : Int) ≤ oneShl k := by
        rw [oneShl_small small]
        positivity
      omega

end Arithmetic

variable {mem : Memory} {addrBits addr : Nat}

theorem realAddr_lt (mem : Memory) (addrBits addr : Nat) : realAddr mem addrBits addr < 2 ^ addrBits := by
  unfold realAddr
  have cast : ((2 ^ addrBits : Nat) : Int) = 2 ^ addrBits := by push_cast; rfl
  omega

theorem realAddr_of_le (le : mem.startOffset ≤ addr) (fits : addr < 2 ^ addrBits) :
    realAddr mem addrBits addr = addr - mem.startOffset := by
  unfold realAddr
  have cast : ((2 ^ addrBits : Nat) : Int) = 2 ^ addrBits := by push_cast; rfl
  rw [Int.emod_eq_of_lt (by omega) (by omega)]
  omega

theorem sub_toNat_eq_realAddr (mem : Memory) {w : Nat} (x : BitVec w) (addrBits : Nat) :
    (x.setWidth addrBits - (BitVec.ofInt addrBits mem.startOffset).setWidth addrBits).toNat =
      realAddr mem addrBits x.toNat := by
  rw [BitVec.setWidth_eq, BitVec.ofInt_natCast, BitVec.toNat_sub, BitVec.toNat_setWidth,
    BitVec.toNat_ofNat, realAddr]
  have reduced : ((2 ^ addrBits - mem.startOffset % 2 ^ addrBits + x.toNat % 2 ^ addrBits : Nat) : Int) =
      ((x.toNat : Int) % (2 ^ addrBits : Nat) - (mem.startOffset : Int) % (2 ^ addrBits : Nat)) +
        (2 ^ addrBits : Nat) := by
    omega
  have cast : ((2 ^ addrBits : Nat) : Int) = 2 ^ addrBits := by push_cast; rfl
  rw [← cast, Int.sub_emod, ← Int.add_emod_right, ← reduced, ← Int.natCast_mod, Int.toNat_natCast]

def hit (mem : Memory) (addrBits addr : Nat) : Option Nat :=
  if passes mem addrBits (realAddr mem addrBits addr) then some (realAddr mem addrBits addr) else none

/-- The word the address range assigns to an access. -/
def wordOf (mem : Memory) (addr : Nat) : Option Nat :=
  if InRange mem addr then some (addr - mem.startOffset) else none

theorem hit_of_inRange (fits : addr < 2 ^ addrBits) (range : InRange mem addr) :
    hit mem addrBits addr = some (addr - mem.startOffset) := by
  obtain ⟨low, high⟩ := range
  have real := realAddr_of_le low fits
  have inside : realAddr mem addrBits addr < mem.size := by omega
  rw [hit, if_pos (by simp [passes, inside]), real]

theorem goodAddr_of_inRange (range : InRange mem addr) : GoodAddr mem addrBits addr := by
  obtain ⟨low, high⟩ := range
  constructor
  · omega
  · omega

/-- A port hits the word the range assigns, and no word out of range, exactly at good addresses. -/
theorem hit_eq_wordOf (sized : Sized mem) (fits : addr < 2 ^ addrBits) :
    hit mem addrBits addr = wordOf mem addr ↔ GoodAddr mem addrBits addr := by
  by_cases range : InRange mem addr
  · rw [hit_of_inRange fits range, wordOf, if_pos range]
    exact iff_of_true rfl (goodAddr_of_inRange range)
  · have omitted := hasUpperBoundCheck_eq_false sized addrBits
    rw [wordOf, if_neg range, hit]
    have none : (if passes mem addrBits (realAddr mem addrBits addr) then
        some (realAddr mem addrBits addr) else none) = none ↔
        ¬ passes mem addrBits (realAddr mem addrBits addr) := by
      split <;> simp [*]
    rw [none, passes, Bool.or_eq_true, decide_eq_true_eq, Bool.not_eq_true', omitted, not_or]
    rcases lt_or_ge addr mem.startOffset with below | above
    · constructor
      · rintro ⟨-, outside⟩
        exact ⟨fun h => outside h.2, fun h => by omega⟩
      · rintro ⟨apart, -⟩
        exact ⟨fun h => by omega, fun h => apart ⟨below, h⟩⟩
    · have real := realAddr_of_le above fits
      have past : mem.startOffset + mem.size ≤ addr := by
        by_contra inside
        exact range ⟨above, by omega⟩
      constructor
      · rintro ⟨checked, -⟩
        refine ⟨fun h => by omega, ?_⟩
        rintro ⟨start, wide, ⟨k, pos, small, size⟩, -⟩
        exact checked ⟨start, k, pos, small, size, Or.inr wide⟩
      · rintro ⟨-, unwrapped⟩
        refine ⟨?_, by omega⟩
        rintro ⟨start, k, pos, small, size, narrow | wide⟩
        · have := Nat.pow_le_pow_right (show 0 < 2 by omega) narrow
          omega
        · exact unwrapped ⟨start, wide, ⟨k, pos, small, size⟩, by omega⟩

/-- The bound check is left out only where every address is in range, unless the address has 31
bits or more. -/
theorem unchecked_inRange_iff (sized : Sized mem) (addrBits : Nat) :
    (hasUpperBoundCheck mem addrBits = false → ∀ addr < 2 ^ addrBits, InRange mem addr) ↔
      ¬ (mem.startOffset = 0 ∧ 31 ≤ addrBits ∧ PowerSize mem) := by
  rw [hasUpperBoundCheck_eq_false sized]
  constructor
  · rintro covered ⟨start, wide, k, pos, small, size⟩
    have grow : 2 ^ k < 2 ^ addrBits := Nat.pow_lt_pow_right (by omega) (by omega)
    have range := covered ⟨start, k, pos, small, size, Or.inr wide⟩ (2 ^ k) grow
    have := range.2
    omega
  · rintro apart ⟨start, k, pos, small, size, narrow | wide⟩ addr fits
    · have := Nat.pow_le_pow_right (show 0 < 2 by omega) narrow
      exact ⟨by omega, by omega⟩
    · exact absurd ⟨start, wide, k, pos, small, size⟩ apart

end ManticoreFrontend.Writer.MemoryAddress
