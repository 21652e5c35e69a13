/- source: passes/proc/proc_mux.cc (SigSnippets)
   digest: Left sides cut into snippets: every assigned bit lies in exactly one of them. -/

import ManticoreFrontend.Kernel.Signals

namespace ManticoreFrontend.Passes.ProcMuxSnippets

open Kernel.Signals

/-- The snippets and the snippet of each bit. A signal stands for its index in `sigidx`. -/
structure SigSnippets where
  snippets : List SigSpec := []
  bit2snippet : SigBit → Option SigSpec := fun _ => none

namespace SigSnippets

def enter (s : SigSnippets) (sig : SigSpec) : SigSnippets :=
  if sig.isEmpty then s
  else
    { snippets := if sig ∈ s.snippets then s.snippets else s.snippets ++ [sig]
      bit2snippet := fun b => if b ∈ sig then some sig else s.bit2snippet b }

def erase (s : SigSnippets) (sig : SigSpec) : SigSnippets :=
  { snippets := s.snippets.filter (· ≠ sig)
    bit2snippet := fun b => if b ∈ sig then none else s.bit2snippet b }

end SigSnippets

def commonLength : SigSpec → SigSpec → Nat
  | a :: as, b :: bs => if a = b then commonLength as bs + 1 else 0
  | _, _ => 0

open SigSnippets List

/-- Insert the parts of a snippet before, at and behind `n` bits from place `k`. -/
def insertParts (insert : SigSpec → SigSnippets → Option SigSnippets) (other : SigSpec) (k n : Nat)
    (s : SigSnippets) : Option SigSnippets := do
  let s ← insert (other.take k) s
  let s ← insert ((other.drop k).take n) s
  insert (other.drop (k + n)) s

mutual

/-- `SigSnippets::insert`; `fuel` bounds the calls. -/
def insertSig : Nat → SigSpec → SigSnippets → Option SigSnippets
  | 0, _, _ => none
  | fuel + 1, sig, s =>
    if sig.isEmpty || decide (sig ∈ s.snippets) then some s else insertBits fuel sig [] s

/-- The loop over the bits: `newSig` collects bits without a snippet, and a snippet that is met is
cut at the common bits. -/
def insertBits : Nat → SigSpec → SigSpec → SigSnippets → Option SigSnippets
  | _, [], newSig, s => some (s.enter newSig)
  | 0, _ :: _, _, _ => none
  | fuel + 1, b :: rest, newSig, s =>
    match s.bit2snippet b with
    | none => insertBits fuel rest (newSig ++ [b]) s
    | some other =>
      let k := other.idxOf b
      let n := commonLength rest (other.drop (k + 1)) + 1
      if k < other.length then do
        let s ← insertParts (insertSig fuel) other k n ((s.enter newSig).erase other)
        insertBits fuel (rest.drop (n - 1)) [] s
      else none

end

variable {fuel : Nat} {b : SigBit} {rest newSig other : SigSpec} {s : SigSnippets}

private theorem insertBits_free (found : s.bit2snippet b = none) :
    insertBits (fuel + 1) (b :: rest) newSig s = insertBits fuel rest (newSig ++ [b]) s := by
  rw [insertBits, found]

/-- How many of the bits after `b` the two signals share. -/
abbrev shared (rest other : SigSpec) (b : SigBit) : Nat :=
  commonLength rest (other.drop (other.idxOf b + 1))

private theorem insertBits_met (found : s.bit2snippet b = some other)
    (place : other.idxOf b < other.length) :
    insertBits (fuel + 1) (b :: rest) newSig s =
      (insertParts (insertSig fuel) other (other.idxOf b)
        (shared rest other b + 1) ((s.enter newSig).erase other)).bind
      (insertBits fuel (rest.drop (shared rest other b)) []) := by
  rw [insertBits, found]
  simp only [place, if_true, Nat.add_sub_cancel]
  rfl

variable {s s' : SigSnippets} {sig : SigSpec}

structure Partition (s : SigSnippets) : Prop where
  nonempty : ∀ k ∈ s.snippets, k ≠ []
  nodup : s.snippets.Nodup
  owner : ∀ b k, s.bit2snippet b = some k ↔ k ∈ s.snippets ∧ b ∈ k

def Owned (s : SigSnippets) (b : SigBit) : Prop := ∃ k, s.bit2snippet b = some k

theorem Partition.empty : Partition {} :=
  ⟨by simp, by simp, by simp⟩

theorem mem_enter {k : SigSpec} :
    k ∈ (s.enter sig).snippets ↔ k ∈ s.snippets ∨ sig ≠ [] ∧ k = sig := by
  unfold SigSnippets.enter
  split
  · simp_all
  · split <;> simp_all

private theorem bit2snippet_enter (s : SigSnippets) (sig : SigSpec) (b : SigBit) :
    (s.enter sig).bit2snippet b = if b ∈ sig then some sig else s.bit2snippet b := by
  unfold SigSnippets.enter
  split
  · simp_all
  · rfl

private theorem Partition.enter (partition : Partition s) (free : ∀ b ∈ sig, ¬ Owned s b) :
    Partition (s.enter sig) := by
  refine ⟨fun k member => ?_, ?_, fun b k => ?_⟩
  · rcases mem_enter.mp member with h | ⟨some, rfl⟩
    · exact partition.nonempty k h
    · exact some
  · unfold SigSnippets.enter
    split
    · exact partition.nodup
    · split
      · exact partition.nodup
      · rename_i new
        exact (perm_append_singleton sig _).nodup_iff.mpr (nodup_cons.mpr ⟨new, partition.nodup⟩)
  · rw [bit2snippet_enter, mem_enter]
    by_cases inside : b ∈ sig
    · rw [if_pos inside, Option.some.injEq]
      constructor
      · rintro rfl
        exact ⟨.inr ⟨ne_nil_of_mem inside, rfl⟩, inside⟩
      · rintro ⟨old | ⟨-, same⟩, here⟩
        · exact absurd ⟨k, (partition.owner b k).mpr ⟨old, here⟩⟩ (free b inside)
        · exact same.symm
    · rw [if_neg inside, partition.owner]
      constructor
      · exact fun h => ⟨.inl h.1, h.2⟩
      · rintro ⟨old | ⟨-, rfl⟩, here⟩
        · exact ⟨old, here⟩
        · exact absurd here inside

private theorem owned_enter : Owned (s.enter sig) b ↔ Owned s b ∨ b ∈ sig := by
  rw [Owned, bit2snippet_enter]
  by_cases inside : b ∈ sig <;> simp [inside, Owned]

private theorem Partition.erase (partition : Partition s) (member : sig ∈ s.snippets) :
    Partition (s.erase sig) := by
  refine ⟨fun k h => partition.nonempty k (mem_filter.mp h).1, partition.nodup.filter _,
    fun b k => ?_⟩
  show (if b ∈ sig then none else s.bit2snippet b) = some k ↔
    k ∈ s.snippets.filter (· ≠ sig) ∧ b ∈ k
  rw [mem_filter, decide_eq_true_eq]
  by_cases inside : b ∈ sig
  · rw [if_pos inside]
    constructor
    · intro h
      cases h
    · rintro ⟨⟨old, other⟩, here⟩
      have own := (partition.owner b sig).mpr ⟨member, inside⟩
      rw [(partition.owner b k).mpr ⟨old, here⟩] at own
      exact absurd (Option.some.inj own) other
  · rw [if_neg inside, partition.owner]
    constructor
    · rintro ⟨old, here⟩
      exact ⟨⟨old, fun same => inside (same ▸ here)⟩, here⟩
    · exact fun h => ⟨h.1.1, h.2⟩

private theorem owned_erase : Owned (s.erase sig) b ↔ Owned s b ∧ b ∉ sig := by
  show (∃ k, (if b ∈ sig then none else s.bit2snippet b) = some k) ↔ _
  by_cases inside : b ∈ sig <;> simp [inside, Owned]

private theorem take_commonLength (as bs : SigSpec) :
    as.take (commonLength as bs) = bs.take (commonLength as bs) := by
  induction as generalizing bs with
  | nil => simp [commonLength]
  | cons a as ih =>
    cases bs with
    | nil => simp [commonLength]
    | cons b bs =>
      unfold commonLength
      split
      · rename_i same
        rw [take_succ_cons, take_succ_cons, ih, same]
      · rfl

/-- The signal is a part of one of the listed ones and not longer. -/
def Part (l : List SigSpec) (sig : SigSpec) : Prop :=
  ∃ k ∈ l, (∀ b ∈ sig, b ∈ k) ∧ sig.length ≤ k.length

variable {l : List SigSpec}

private theorem Part.sub {sig sig' : SigSpec} (part : Part l sig)
    (sub : ∀ b ∈ sig', b ∈ sig) (length : sig'.length ≤ sig.length) : Part l sig' := by
  obtain ⟨k, member, inside, short⟩ := part
  exact ⟨k, member, fun b h => inside b (sub b h), by omega⟩

def Under (l : List SigSpec) (s : SigSnippets) : Prop := ∀ k ∈ s.snippets, Part l k

private theorem Under.enter (under : Under l s) (part : Part l sig) : Under l (s.enter sig) := by
  intro k member
  rcases mem_enter.mp member with h | ⟨-, rfl⟩
  · exact under k h
  · exact part

private theorem Under.erase {s : SigSnippets} (under : Under l s) (other : SigSpec) :
    Under l (s.erase other) := fun k member => under k (mem_filter.mp member).1

/-- What inserting a signal keeps and adds. -/
structure Inserts (sig : SigSpec) (s s' : SigSnippets) : Prop where
  partition : Partition s'
  owned : ∀ b, Owned s' b ↔ Owned s b ∨ b ∈ sig
  under : ∀ l, Under l s → Part l sig → Under l s'

variable {s : SigSnippets} {newSig : SigSpec} {s' : SigSnippets} {other sig : SigSpec}

private theorem Inserts.trans {sig' : SigSpec} {s'' : SigSnippets} (first : Inserts sig s s')
    (second : Inserts sig' s' s'') : Inserts (sig ++ sig') s s'' where
  partition := second.partition
  owned b := by rw [second.owned, first.owned, mem_append, or_assoc]
  under l under part :=
    second.under l
      (first.under l under (part.sub (fun b h => mem_append_left _ h) (by simp)))
      (part.sub (fun b h => mem_append_right _ h) (by simp))

private theorem inserts_enter (partition : Partition s) (free : ∀ b ∈ newSig, ¬ Owned s b) :
    Inserts newSig s (s.enter newSig) :=
  ⟨partition.enter free, fun _ => owned_enter, fun _ under part => under.enter part⟩

private theorem inserts_known (partition : Partition s) (known : sig = [] ∨ sig ∈ s.snippets) :
    Inserts sig s s := by
  refine ⟨partition, fun b => ⟨.inl, fun h => h.elim id (fun inside => ?_)⟩, fun _ under _ => under⟩
  rcases known with empty | member
  · simp [empty] at inside
  · exact ⟨sig, (partition.owner b sig).mpr ⟨member, inside⟩⟩

private theorem insertParts_inserts {insert : SigSpec → SigSnippets → Option SigSnippets}
    (spec : ∀ sig s s', Partition s → insert sig s = some s' → Inserts sig s s') {k n : Nat}
    (partition : Partition s) (run : insertParts insert other k n s = some s') :
    Inserts other s s' := by
  simp only [insertParts, Option.bind_eq_bind, Option.bind_eq_some_iff] at run
  obtain ⟨s₁, run₁, s₂, run₂, run₃⟩ := run
  have first := spec _ _ _ partition run₁
  have second := spec _ _ _ first.partition run₂
  have third := spec _ _ _ second.partition run₃
  have all := first.trans (second.trans third)
  rwa [← drop_drop, take_append_drop, take_append_drop] at all

private theorem Partition.open_snippet (partition : Partition s) (free : ∀ b ∈ newSig, ¬ Owned s b)
    (member : other ∈ s.snippets) : Partition ((s.enter newSig).erase other) :=
  (partition.enter free).erase (mem_enter.mpr (.inl member))

theorem free_snoc {b : SigBit} (free : ∀ b ∈ newSig, ¬ Owned s b) (found : s.bit2snippet b = none) :
    ∀ c ∈ newSig ++ [b], ¬ Owned s c := by
  intro c member
  rcases mem_append.mp member with h | h
  · exact free c h
  · rw [mem_singleton.mp h]
    intro owned
    obtain ⟨k, own⟩ := owned
    rw [found] at own
    cases own

theorem inserts_of_cut {s₁ : SigSnippets} {rest : SigSpec} {b : SigBit} (partition : Partition s)
    (found : s.bit2snippet b = some other)
    (parts : Inserts other ((s.enter newSig).erase other) s₁)
    (behind : Inserts (rest.drop (shared rest other b)) s₁ s') :
    Inserts (newSig ++ b :: rest) s s' := by
  obtain ⟨member, inOther⟩ := (partition.owner b other).mp found
  refine ⟨behind.partition, fun c => ?_, fun l under part => ?_⟩
  · rw [behind.owned, parts.owned, owned_erase, owned_enter, mem_append, mem_cons]
    constructor
    · rintro ((⟨owned | new, -⟩ | inside) | later)
      · exact .inl owned
      · exact .inr (.inl new)
      · exact .inl ⟨other, (partition.owner c other).mpr ⟨member, inside⟩⟩
      · exact .inr (.inr (.inr (mem_of_mem_drop later)))
    · intro h
      by_cases inside : c ∈ other
      · exact .inl (.inr inside)
      · rcases h with owned | new | rfl | later
        · exact .inl (.inl ⟨.inl owned, inside⟩)
        · exact .inl (.inl ⟨.inr new, inside⟩)
        · exact absurd inOther inside
        · rw [← take_append_drop (shared rest other b) rest, mem_append] at later
          rcases later with common | later
          · rw [take_commonLength] at common
            exact absurd (mem_of_mem_drop (mem_of_mem_take common)) inside
          · exact .inr later
  · have newPart : Part l newSig := part.sub (fun c h => mem_append_left _ h) (by simp)
    have behindPart : Part l (rest.drop (shared rest other b)) :=
      part.sub (fun c h => mem_append_right _ (mem_cons_of_mem _ (mem_of_mem_drop h)))
        (by simp; omega)
    exact behind.under l (parts.under l ((under.enter newPart).erase other) (under other member))
      behindPart

private theorem insert_spec (fuel : Nat) :
    (∀ sig s s', Partition s → insertSig fuel sig s = some s' → Inserts sig s s') ∧
    ∀ rest newSig s s', Partition s → (∀ b ∈ newSig, ¬ Owned s b) →
      insertBits fuel rest newSig s = some s' → Inserts (newSig ++ rest) s s' := by
  induction fuel with
  | zero =>
    constructor
    · intro sig s s' _ run
      cases run
    · intro rest newSig s s' partition free run
      cases rest with
      | nil =>
        rw [← Option.some.inj run, append_nil]
        exact inserts_enter partition free
      | cons b rest =>
        cases run
  | succ fuel ih =>
    obtain ⟨ihSig, ihBits⟩ := ih
    constructor
    · intro sig s s' partition run
      rw [insertSig] at run
      split at run
      · rename_i known
        rw [Bool.or_eq_true, List.isEmpty_iff, decide_eq_true_eq] at known
        rw [← Option.some.inj run]
        exact inserts_known partition known
      · have done := ihBits sig [] s s' partition (by simp) run
        rwa [nil_append] at done
    · intro rest newSig s s' partition free run
      cases rest with
      | nil =>
        rw [← Option.some.inj run, append_nil]
        exact inserts_enter partition free
      | cons b rest =>
        cases found : s.bit2snippet b with
        | none =>
          rw [insertBits_free found] at run
          have done := ihBits rest (newSig ++ [b]) s s' partition (free_snoc free found) run
          rwa [append_assoc, singleton_append] at done
        | some other =>
          obtain ⟨member, inOther⟩ := (partition.owner b other).mp found
          rw [insertBits_met found (idxOf_lt_length_of_mem inOther), Option.bind_eq_some_iff] at run
          obtain ⟨s₁, parts, run⟩ := run
          have cut := insertParts_inserts ihSig (partition.open_snippet free member) parts
          have behind := ihBits _ [] _ _ cut.partition (by simp) run
          exact inserts_of_cut partition found cut behind

/-- The insertion ends, with the same result for all sufficient fuel. -/
def Ends (sig : SigSpec) (s s' : SigSnippets) : Prop :=
  ∃ bound, ∀ fuel, bound ≤ fuel → insertSig fuel sig s = some s'

def EndsBits (rest newSig : SigSpec) (s s' : SigSnippets) : Prop :=
  ∃ bound, ∀ fuel, bound ≤ fuel → insertBits fuel rest newSig s = some s'

def EndsParts (other : SigSpec) (k n : Nat) (s s' : SigSnippets) : Prop :=
  ∃ bound, ∀ fuel, bound ≤ fuel → insertParts (insertSig fuel) other k n s = some s'

variable {s s' : SigSnippets} {sig rest newSig other : SigSpec}

theorem Ends.inserts (ends : Ends sig s s') (partition : Partition s) : Inserts sig s s' := by
  obtain ⟨bound, run⟩ := ends
  exact (insert_spec bound).1 sig s s' partition (run bound (Nat.le_refl _))

theorem EndsParts.inserts {k n : Nat} (ends : EndsParts other k n s s') (partition : Partition s) :
    Inserts other s s' := by
  obtain ⟨bound, run⟩ := ends
  exact insertParts_inserts (insert_spec bound).1 partition (run bound (Nat.le_refl _))

private theorem ends_known (known : sig = [] ∨ sig ∈ s.snippets) : Ends sig s s := by
  refine ⟨1, fun fuel enough => ?_⟩
  obtain ⟨fuel, rfl⟩ := Nat.exists_eq_add_of_le' enough
  rw [insertSig, if_pos (by simpa using known)]

private theorem EndsBits.ends (ends : EndsBits sig [] s s') (new : ¬ (sig = [] ∨ sig ∈ s.snippets)) :
    Ends sig s s' := by
  obtain ⟨bound, run⟩ := ends
  refine ⟨bound + 1, fun fuel enough => ?_⟩
  obtain ⟨fuel, rfl⟩ := Nat.exists_eq_add_of_le' (Nat.le_of_add_left_le enough)
  rw [insertSig, if_neg (by simpa using new)]
  exact run fuel (by omega)

private theorem ends_of_bits (bits : ∃ s', EndsBits sig [] s s') : ∃ s', Ends sig s s' := by
  by_cases known : sig = [] ∨ sig ∈ s.snippets
  · exact ⟨s, ends_known known⟩
  · obtain ⟨s', ends⟩ := bits
    exact ⟨s', ends.ends known⟩

private theorem EndsBits.nil : EndsBits [] newSig s (s.enter newSig) := by
  refine ⟨0, fun fuel _ => ?_⟩
  cases fuel <;> rw [insertBits]

private theorem EndsBits.free {b : SigBit} (found : s.bit2snippet b = none)
    (ends : EndsBits rest (newSig ++ [b]) s s') : EndsBits (b :: rest) newSig s s' := by
  obtain ⟨bound, run⟩ := ends
  refine ⟨bound + 1, fun fuel enough => ?_⟩
  obtain ⟨fuel, rfl⟩ := Nat.exists_eq_add_of_le' (Nat.le_of_add_left_le enough)
  rw [insertBits_free found]
  exact run fuel (by omega)

private theorem EndsBits.met {b : SigBit} {s₁ : SigSnippets} (found : s.bit2snippet b = some other)
    (place : other.idxOf b < other.length)
    (parts : EndsParts other (other.idxOf b)
      (shared rest other b + 1) ((s.enter newSig).erase other) s₁)
    (behind : EndsBits (rest.drop (shared rest other b)) [] s₁ s') :
    EndsBits (b :: rest) newSig s s' := by
  obtain ⟨bound, run⟩ := parts
  obtain ⟨bound', run'⟩ := behind
  refine ⟨max bound bound' + 1, fun fuel enough => ?_⟩
  obtain ⟨fuel, rfl⟩ := Nat.exists_eq_add_of_le' (Nat.le_of_add_left_le enough)
  rw [insertBits_met found place, run fuel (by omega), Option.bind_some, run' fuel (by omega)]

private theorem endsParts_of {k n : Nat} {s₁ s₂ : SigSnippets} (first : Ends (other.take k) s s₁)
    (second : Ends ((other.drop k).take n) s₁ s₂) (third : Ends (other.drop (k + n)) s₂ s') :
    EndsParts other k n s s' := by
  obtain ⟨bound₁, run₁⟩ := first
  obtain ⟨bound₂, run₂⟩ := second
  obtain ⟨bound₃, run₃⟩ := third
  refine ⟨max bound₁ (max bound₂ bound₃), fun fuel enough => ?_⟩
  simp [insertParts, run₁ fuel (by omega), run₂ fuel (by omega), run₃ fuel (by omega)]

private theorem endsBits_free (newSig : SigSpec) (free : ∀ b ∈ rest, s.bit2snippet b = none) :
    ∃ s', EndsBits rest newSig s s' := by
  induction rest generalizing newSig with
  | nil => exact ⟨_, .nil⟩
  | cons b rest ih =>
    obtain ⟨s', ends⟩ := ih (newSig ++ [b]) (fun c h => free c (by simp [h]))
    exact ⟨s', ends.free (free b (by simp))⟩

def CutsEnd (length : Nat) : Prop :=
  ∀ (other : SigSpec) (k n : Nat) (s : SigSnippets), other.length ≤ length → k < other.length →
    0 < n → Partition s → (∀ b ∈ other, ¬ Owned s b) → ∃ s', EndsParts other k n s s'

variable {length : Nat}

private theorem endsBits_of_cuts (cuts : CutsEnd length) (partition : Partition s)
    (free : ∀ b ∈ newSig, ¬ Owned s b) (short : newSig.length + rest.length ≤ length)
    (meets : ∀ k ∈ s.snippets, (∃ b ∈ rest, b ∈ k) → k.length ≤ length) :
    ∃ s', EndsBits rest newSig s s' := by
  induction size : rest.length using Nat.strong_induction_on generalizing rest newSig s with
  | h m ih =>
    cases rest with
    | nil => exact ⟨_, .nil⟩
    | cons b rest =>
      rw [length_cons] at size short
      cases found : s.bit2snippet b with
      | none =>
        obtain ⟨s', ends⟩ := ih rest.length (by omega) partition (free_snoc free found)
          (by simp; omega) (fun k h met => meets k h (by
            obtain ⟨c, inside, here⟩ := met
            exact ⟨c, by simp [inside], here⟩)) rfl
        exact ⟨s', ends.free found⟩
      | some other =>
        obtain ⟨member, inOther⟩ := (partition.owner b other).mp found
        have small := meets other member ⟨b, by simp, inOther⟩
        have opened := partition.open_snippet free member
        obtain ⟨s₁, parts⟩ := cuts other (other.idxOf b)
          (shared rest other b + 1) _ small (idxOf_lt_length_of_mem inOther) (Nat.succ_pos _) opened
          (by
            intro c inside owned
            exact (owned_erase.mp owned).2 inside)
        have cut := parts.inserts opened
        -- every snippet is now a part of an old one or of the collected bits
        have under : Under (newSig :: s.snippets) s₁ := by
          refine cut.under _ (Under.erase (Under.enter (fun k h => ?_) ?_) other) ?_
          · exact ⟨k, by simp [h], fun _ h => h, Nat.le_refl _⟩
          · exact ⟨newSig, by simp, fun _ h => h, Nat.le_refl _⟩
          · exact ⟨other, by simp [member], fun _ h => h, Nat.le_refl _⟩
        obtain ⟨s', behind⟩ : ∃ s', EndsBits
            (rest.drop (shared rest other b)) [] s₁ s' := by
          refine ih (rest.drop (shared rest other b)).length
            (by simp; omega) cut.partition (by simp) (by simp; omega) ?_ rfl
          intro k h met
          obtain ⟨c, later, here⟩ := met
          obtain ⟨k', inList, sub, le⟩ := under k h
          rcases mem_cons.mp inList with rfl | old
          · omega
          · have := meets k' old ⟨c, mem_cons_of_mem _ (mem_of_mem_drop later), sub c here⟩
            omega
        exact ⟨s', .met found (idxOf_lt_length_of_mem inOther) parts behind⟩

private theorem ends_of_cuts (cuts : CutsEnd length) (partition : Partition s)
    (short : sig.length ≤ length)
    (meets : ∀ k ∈ s.snippets, (∃ b ∈ sig, b ∈ k) → k.length ≤ length) : ∃ s', Ends sig s s' :=
  ends_of_bits (endsBits_of_cuts cuts partition (by simp) (by simpa using short) meets)

private theorem ends_free (free : ∀ b ∈ sig, ¬ Owned s b) : ∃ s', Ends sig s s' := by
  refine ends_of_bits (endsBits_free [] (fun b inside => ?_))
  cases found : s.bit2snippet b with
  | none => rfl
  | some k => exact absurd ⟨k, found⟩ (free b inside)

private theorem Under.meets (under : Under (l ++ s.snippets) s') (partition : Partition s)
    (free : ∀ b ∈ other, ¬ Owned s b) (short : ∀ k ∈ l, k.length ≤ length)
    (sub : ∀ b ∈ sig, b ∈ other) : ∀ k ∈ s'.snippets, (∃ b ∈ sig, b ∈ k) → k.length ≤ length := by
  intro k member met
  obtain ⟨b, inside, here⟩ := met
  obtain ⟨k', listed, within, le⟩ := under k member
  rcases mem_append.mp listed with new | old
  · exact Nat.le_trans le (short k' new)
  · exact absurd ⟨k', (partition.owner b k').mpr ⟨old, within b here⟩⟩ (free b (sub b inside))

private theorem Under.self (l : List SigSpec) (s : SigSnippets) : Under (l ++ s.snippets) s :=
  fun k member => ⟨k, mem_append_right _ member, fun _ h => h, Nat.le_refl _⟩

private theorem Part.head (member : sig ∈ l) : Part (l ++ s.snippets) sig :=
  ⟨sig, mem_append_left _ member, fun _ h => h, Nat.le_refl _⟩

/-- The parts of a snippet are shorter than it, unless one part is the whole of it. -/
private theorem cutsEnd (length : Nat) : CutsEnd length := by
  induction length with
  | zero =>
    intro other k n s short inside
    omega
  | succ length ih =>
    intro other k n s short inside some partition free
    let l := [other.take k, (other.drop k).take n]
    have member₁ : other.take k ∈ l := mem_cons_self
    have member₂ : (other.drop k).take n ∈ l := mem_cons_of_mem _ mem_cons_self
    obtain ⟨s₁, first⟩ : ∃ s₁, Ends (other.take k) s s₁ :=
      ends_free (fun b h => free b (mem_of_mem_take h))
    have put₁ := first.inserts partition
    have under₁ : Under (l ++ s.snippets) s₁ := put₁.under _ (.self l s) (.head member₁)
    obtain ⟨s₂, second⟩ : ∃ s₂, Ends ((other.drop k).take n) s₁ s₂ := by
      by_cases start : k = 0
      · refine ends_free (fun b h owned => ?_)
        rw [put₁.owned, start, take_zero] at owned
        exact owned.elim (free b (mem_of_mem_drop (mem_of_mem_take h))) (by simp)
      · have under : Under ([other.take k] ++ s.snippets) s₁ :=
          put₁.under _ (.self _ s) (.head mem_cons_self)
        refine ends_of_cuts ih put₁.partition (by simp; omega)
          (under.meets partition free (fun k' h => ?_)
            (fun b h => mem_of_mem_drop (mem_of_mem_take h)))
        rw [mem_singleton.mp h, length_take]
        omega
    have put₂ := second.inserts put₁.partition
    have under₂ : Under (l ++ s.snippets) s₂ := put₂.under _ under₁ (.head member₂)
    obtain ⟨s₃, third⟩ : ∃ s₃, Ends (other.drop (k + n)) s₂ s₃ := by
      by_cases last : other.length ≤ k + n
      · exact ⟨s₂, ends_known (.inl (drop_of_length_le last))⟩
      · refine ends_of_cuts ih put₂.partition (by simp; omega)
          (under₂.meets partition free (fun k' h => ?_) (fun b h => mem_of_mem_drop h))
        rcases mem_cons.mp h with rfl | h
        · rw [length_take]
          omega
        · rw [mem_singleton.mp h, length_take, length_drop]
          omega
    exact ⟨s₃, endsParts_of first second third⟩

theorem insertSig_total (partition : Partition s) (sig : SigSpec) : ∃ s', Ends sig s s' := by
  let lengths := (sig :: s.snippets).map length
  have bounded : ∀ k ∈ sig :: s.snippets, k.length ≤ lengths.sum := fun k member =>
    le_sum_of_mem (mem_map_of_mem member)
  exact ends_of_cuts (cutsEnd lengths.sum) partition (bounded sig mem_cons_self)
    (fun k member _ => bounded k (mem_cons_of_mem _ member))

end ManticoreFrontend.Passes.ProcMuxSnippets
