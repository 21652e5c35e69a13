/- source: kernel/rtlil.cc, kernel/rtlil.h (SigSpec::sort_and_unify, extract, remove2, operator <)
   digest: Signals as sets of bits: what the pattern operations of a signal keep. -/

import Mathlib.Logic.Equiv.List
import ManticoreFrontend.Kernel.SigSpecs

namespace ManticoreFrontend.Kernel.SigSets

open Signals SigSpecs List

def sortAndUnify (ids : WireIds) (sig : SigSpec) : SigSpec :=
  (sig.insertionSort (fun a b => bitLt ids b a = false)).dedup

def covered (pattern : SigSpec) (b : SigBit) : Bool := (SigSpec.chunks pattern).any (covers · b)

/-- `SigSpec::extract` by a pattern: the bits that lie in its chunks, chunk after chunk. -/
def extractSig (sig pattern : SigSpec) : SigSpec :=
  (SigSpec.chunks pattern).flatMap (fun c => sig.filter (covers c))

def sigLt (ids : WireIds) (a b : SigSpec) : Bool :=
  ((SigObject.ofBits a).lt ids (SigObject.ofBits b)).1

variable {sig pattern : SigSpec} {b : SigBit}

@[simp] theorem mem_sortAndUnify {ids : WireIds} : b ∈ sortAndUnify ids sig ↔ b ∈ sig := by
  rw [sortAndUnify, mem_dedup, mem_insertionSort]

theorem nodup_sortAndUnify (ids : WireIds) (sig : SigSpec) : (sortAndUnify ids sig).Nodup :=
  nodup_dedup _

theorem covers_iff {c : SigChunk} : covers c b = true ↔ b.isWire = true ∧ b ∈ c.bits := by
  cases c with
  | data bits => cases b <;> simp [covers, SigChunk.bits, SigBit.isWire]
  | wire w offset width le =>
    cases b with
    | const s => simp [covers, SigBit.isWire]
    | wire w' offset' =>
      simp only [covers, SigChunk.bits, SigBit.isWire, Bool.and_eq_true, decide_eq_true_eq,
        mem_ofFn, true_and, SigBit.wire.injEq]
      constructor
      · rintro ⟨⟨rfl, low⟩, high⟩
        have place : offset'.val - offset < width := by omega
        refine ⟨⟨offset'.val - offset, place⟩, rfl, heq_of_eq (Fin.ext ?_)⟩
        show offset + (offset'.val - offset) = offset'.val
        omega
      · rintro ⟨i, rfl, same⟩
        have place : offset + i.val = offset'.val := congrArg Fin.val (eq_of_heq same)
        exact ⟨⟨rfl, by omega⟩, by omega⟩

theorem covered_iff : covered pattern b = true ↔ b.isWire = true ∧ b ∈ pattern := by
  have bits : b ∈ pattern ↔ ∃ c ∈ SigSpec.chunks pattern, b ∈ c.bits := by
    conv_lhs => rw [← chunks_bits pattern]
    exact mem_flatMap
  rw [covered, any_eq_true, bits]
  simp only [covers_iff]
  constructor
  · rintro ⟨c, member, wire, inside⟩
    exact ⟨wire, c, member, inside⟩
  · rintro ⟨wire, c, member, inside⟩
    exact ⟨c, member, wire, inside⟩

theorem mem_extractSig : b ∈ extractSig sig pattern ↔ b ∈ sig ∧ covered pattern b = true := by
  rw [extractSig, mem_flatMap, covered, any_eq_true]
  constructor
  · rintro ⟨c, member, inside⟩
    obtain ⟨here, covers⟩ := mem_filter.mp inside
    exact ⟨here, c, member, covers⟩
  · rintro ⟨here, c, member, covers⟩
    exact ⟨c, member, mem_filter.mpr ⟨here, covers⟩⟩

theorem nodup_extractSig (unique : sig.Nodup) (separate : pattern.Nodup) :
    (extractSig sig pattern).Nodup := by
  rw [← chunks_bits pattern, nodup_flatMap] at separate
  refine nodup_flatMap.mpr ⟨fun c _ => unique.filter _, separate.2.imp ?_⟩
  intro c d disjoint b inC inD
  exact disjoint (covers_iff.mp (mem_filter.mp inC).2).2 (covers_iff.mp (mem_filter.mp inD).2).2

def nameCode (name : String) : Nat := Encodable.encode (name.toList.map Char.toNat)

theorem nameCode_injective : Function.Injective nameCode := by
  intro name name' same
  have codes : name.toList.map Char.toNat = name'.toList.map Char.toNat :=
    Encodable.encode_injective same
  have inner : Function.Injective Char.toNat := fun _ _ h => Char.toNat_inj.mp h
  exact String.toList_injective (map_injective_iff.mpr inner codes)

def codedIds : WireIds where
  index := nameCode
  address w := Encodable.encode (nameCode w.name, w.width, w.portInput, w.portOutput) + 1
  index_injective := nameCode_injective
  address_injective := by
    intro w w' same
    have parts := Encodable.encode_injective (Nat.succ.inj same)
    simp only [Prod.mk.injEq] at parts
    obtain ⟨name, width, input, output⟩ := parts
    cases w
    cases w'
    simp_all [nameCode_injective.eq_iff]
  address_pos _ := Nat.succ_pos _

end ManticoreFrontend.Kernel.SigSets
