/- source: passes/manticore/manticore_writer.cc
   digest: The names of converted signals are declared with the widths of the signals. -/

import ManticoreFrontend.Writer.Layout

namespace ManticoreFrontend.Writer.Declarations

open Foundation.Emission Kernel Constants Signals Assembly Generator Denotation Layout

def Declares (st : Worker) (n : Name) (width : Nat) : Prop :=
  (n, width) ∈ st.wireDefs ∨ ∃ c, (n, c) ∈ st.constDefs ∧ c.length = width

/-- The generator on its way to the state `last`, which declares every cached name. -/
def declarations (last : Worker) : Ledger Worker where
  le := Extends
  refl := Extends.refl
  trans := Extends.trans
  Sat st := Extends st last
  mono := Extends.trans
  Good st := (∀ e ∈ st.wires, Declares last e.2 e.1.width) ∧
    (∀ e ∈ st.constants, Declares last e.2 e.1.length) ∧
    ∀ e ∈ st.availableSigs, Declares last e.2 e.1.length

variable {last : Worker} {P : Prop}

theorem temp_declared (width : Nat) :
    Spec (declarations last) P (temp width) (fun n => Declares last n width) := by
  intro s n t run
  obtain ⟨rfl, rfl⟩ := Prod.mk.inj (Option.some.inj run)
  exact ⟨by constructor <;> simp, fun _ within good => ⟨good, .inl (within.wireDefs (by simp))⟩⟩

theorem emit_declared (i : Instr) : Spec (declarations last) P (emit i) (fun _ => True) := by
  intro s n t run
  obtain ⟨rfl, rfl⟩ := Prod.mk.inj (Option.some.inj run)
  exact ⟨by constructor <;> simp, fun _ _ good => ⟨good, trivial⟩⟩

theorem wireGet_declared (w : Wire) :
    Spec (declarations last) P (wireGet w) (fun n => Declares last n w.width) := by
  intro s n t run
  unfold wireGet at run
  split at run <;> obtain ⟨rfl, rfl⟩ := Prod.mk.inj (Option.some.inj run)
  · rename_i found
    exact ⟨Extends.refl _, fun _ _ good => ⟨good, good.1 (w, _) (lookup_mem found)⟩⟩
  · refine ⟨by constructor <;> simp, fun _ within good => ?_⟩
    have new : Declares last ⟨.w, s.wireIndex⟩ w.width := .inl (within.wireDefs (by simp))
    exact ⟨⟨List.forall_mem_append.mpr ⟨good.1, List.forall_mem_singleton.mpr new⟩, good.2⟩, new⟩

theorem constGet_declared (c : Const) :
    Spec (declarations last) P (constGet c) (fun n => Declares last n c.length) := by
  intro s n t run
  unfold constGet at run
  split at run <;> obtain ⟨rfl, rfl⟩ := Prod.mk.inj (Option.some.inj run)
  · rename_i found
    exact ⟨Extends.refl _, fun _ _ good => ⟨good, good.2.1 (c, _) (lookup_mem found)⟩⟩
  · refine ⟨by constructor <;> simp, fun _ within good => ?_⟩
    have new : Declares last ⟨.c, s.constIndex⟩ c.length :=
      .inr ⟨definedBits c, within.constDefs (by simp), by simp [definedBits]⟩
    refine ⟨⟨good.1, ?_, good.2.2⟩, new⟩
    exact List.forall_mem_append.mpr ⟨good.2.1, List.forall_mem_singleton.mpr new⟩

theorem available_declared {sig : SigSpec} {n : Name} (new : P → Declares last n sig.length) :
    Spec (declarations last) P (available sig n) (fun _ => True) := by
  intro s a t run
  unfold available at run
  split at run <;> obtain ⟨rfl, rfl⟩ := Prod.mk.inj (Option.some.inj run)
  · exact ⟨Extends.refl _, fun _ _ good => ⟨good, trivial⟩⟩
  · refine ⟨by constructor <;> simp, fun facts _ good => ⟨⟨good.1, good.2.1, ?_⟩, trivial⟩⟩
    exact List.forall_mem_append.mpr ⟨good.2.2, List.forall_mem_singleton.mpr (new facts)⟩

theorem findAvailable_declared (sig : SigSpec) :
    Spec (declarations last) P (findAvailable sig)
      (fun found => ∀ n, found = some n → Declares last n sig.length) := by
  intro s found t run
  obtain ⟨rfl, rfl⟩ := Prod.mk.inj (Option.some.inj run)
  refine ⟨Extends.refl _, fun _ _ good => ⟨good, fun n hit => ?_⟩⟩
  exact good.2.2 (sig, n) (lookup_mem hit)

theorem convertChunk_declared (chunk : SigChunk) :
    Spec (declarations last) P (convertChunk chunk)
      (fun n => Declares last n chunk.bits.length) := by
  refine .bind (findAvailable_declared _) fun found => ?_
  cases found with
  | some n => exact Spec.ret (fun facts => facts.1 n rfl)
  | none =>
    cases chunk with
    | data bits => simpa [SigChunk.bits] using constGet_declared bits
    | wire w offset width le =>
      have length : (SigChunk.wire w offset width le).bits.length = width := by
        simp [SigChunk.bits]
      rw [length]
      refine Spec.ite (fun full => ?_) (fun _ => ?_)
      · refine .bind (wireGet_declared w) fun n => ?_
        rw [full]
        exact .bind (available_declared fun facts => length.symm ▸ facts.1) fun _ =>
          Spec.ret fun facts => facts.2.1
      · refine .bind (temp_declared width) fun c => ?_
        refine .bind (wireGet_declared w) fun n => ?_
        refine .bind (emit_declared _) fun _ => ?_
        exact .bind (available_declared fun facts => length.symm ▸ facts.2.2.1) fun _ =>
          Spec.ret fun facts => facts.2.2.2.1

theorem concatChunks_declared (rest : List SigChunk) (sig : SigSpec) (n : Name)
    (start : P → Declares last n sig.length) :
    Spec (declarations last) P (concatChunks rest sig n)
      (fun m => Declares last m (sig ++ rest.flatMap SigChunk.bits).length) := by
  induction rest generalizing sig n P with
  | nil => exact Spec.ret (by simpa using start)
  | cons chunk rest ih =>
    refine .bind (temp_declared _) fun op1 => ?_
    refine .bind (temp_declared _) fun op2 => ?_
    refine .bind (emit_declared _) fun _ => ?_
    refine .bind (convertChunk_declared _) fun part => ?_
    refine .bind (emit_declared _) fun _ => ?_
    refine .bind (temp_declared _) fun shifted => ?_
    refine .bind (constGet_declared _) fun pos => ?_
    refine .bind (emit_declared _) fun _ => ?_
    refine .bind (temp_declared _) fun thisRes => ?_
    refine .bind (emit_declared _) fun _ => ?_
    refine .bind (available_declared fun facts => facts.2.1) fun _ => ?_
    rw [List.flatMap_cons, ← List.append_assoc]
    exact ih (sig ++ chunk.bits) thisRes fun facts => facts.2.2.1

theorem convertSig_declared (sig : SigSpec) :
    Spec (declarations last) P (convertSig sig) (fun n => Declares last n sig.length) := by
  refine .bind (findAvailable_declared _) fun found => ?_
  cases found with
  | some n => exact Spec.ret (fun facts => facts.1 n rfl)
  | none =>
    cases wire : SigSpec.asWire? sig with
    | some w =>
      obtain rfl := asWire?_eq_some wire
      simpa using wireGet_declared w
    | none =>
      have bits := chunks_bits sig
      cases packed : SigSpec.chunks sig with
      | nil => exact Spec.abort
      | cons front rest =>
        rw [packed, List.flatMap_cons] at bits
        refine .bind (convertChunk_declared front) fun prevRes => ?_
        rw [← bits]
        exact concatChunks_declared rest front.bits prevRes And.left

/-- Any number of signals converted one after the other: each name is declared with the width of its
signal and has its value wherever the program is satisfied, so the names of equal signals have equal
values. -/
theorem convertSigs_denote {sigs : List SigSpec} (nonempty : ∀ sig ∈ sigs, sig ≠ []) :
    ∃ names st, sigs.mapM convertSig {} = some (names, st) ∧ names.length = sigs.length ∧
      ∀ (i : Nat) sig n, sigs[i]? = some sig → names[i]? = some n →
        Declares st n sig.length ∧
        ∀ v σ, Satisfies v σ st → sig.length < intLimit → σ n = sigWord v sig ∧
          ∀ (j : Nat) m, sigs[j]? = some sig → names[j]? = some m → σ m = σ n := by
  obtain ⟨names, st, run⟩ := Total.mapM (fun sig h => convertSig_total (nonempty sig h)) {}
  have declared := (Spec.mapM (L := declarations st) (P := True) (fun sig _ _ => convertSig_declared sig)
    {} names st run).2 trivial (Extends.refl st) (by simp [declarations])
  refine ⟨names, st, run, declared.2.1, fun i sig n at_i named => ?_⟩
  refine ⟨declared.2.2 i sig n at_i named, ?_⟩
  intro v σ sat small
  have denoted := ((Spec.mapM (P := True) (fun sig _ _ => convertSig_spec (v := v) (σ := σ) sig)
    {} names st run).2 trivial sat (by constructor <;> simp)).2.2
  have word := (denoted i sig n at_i named).2 small
  exact ⟨word, fun j m at_j named' => ((denoted j sig m at_j named').2 small).trans word.symm⟩

theorem convertSigs_denote_again :
    let w : Wire := { name := "w", width := 4 }
    let sig : SigSpec := [.wire w ⟨1, by decide⟩, .wire w ⟨2, by decide⟩, .const .Sx, .const .S1]
    ∃ n m st, [sig, sig].mapM convertSig {} = some ([n, m], st) ∧ Declares st m 4 := by
  intro w sig
  obtain ⟨names, st, run, length, gives⟩ := @convertSigs_denote [sig, sig] (by simp)
  obtain ⟨n, m, rfl⟩ := List.length_eq_two.mp length
  exact ⟨n, m, st, run, (gives 1 sig m rfl rfl).1⟩

end ManticoreFrontend.Writer.Declarations
