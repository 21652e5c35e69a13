/- source: passes/manticore/manticore_writer.cc
   digest: One walk over a selection gives both what it establishes and the order of its names. -/

import ManticoreFrontend.Writer.Cells
import ManticoreFrontend.Writer.Layout

namespace ManticoreFrontend.Writer.CellLayout

open Foundation BitWord Emission Kernel CellTypes Signals Assembly Generator
open Denotation Layout Cells List

variable {v : Valuation} {σ : Name → Word} {P : Prop} {base : Worker} {O K : List Name} {α : Type}
  {cell : Cell}

/-- The names of the instruction that a selection returns are known. -/
abbrev Selected (v : Valuation) (σ : Name → Word) (P : Prop) (m : Emit Instr) (Q : Instr → Prop)
    (base : Worker) (O K : List Name) : Prop :=
  Piece v σ P m Q base O K (fun _ => O) (fun i => i.dest :: i.uses)

theorem Selected.ret {i : Instr} {Q : Instr → Prop} (dest : i.dest ∈ K)
    (uses : ∀ n ∈ i.uses, n ∈ K) (h : P → Q i) : Selected v σ P (pure i) Q base O K :=
  Piece.ret (cons_subset.mpr ⟨dest, uses⟩) h

/-- An instruction for the destination `rd` over known names. -/
structure Prepared (v : Valuation) (σ : Name → Word) (P : Prop) (rd : Name) (m : Emit Instr)
    (Q : Instr → Prop) (base : Worker) (O K : List Name) : Prop extends
    Piece v σ P m Q base O K (fun _ => O) (fun i => i.uses ++ K) where
  dest : Returns m (fun i => i.dest = rd)

variable {Q : Instr → Prop} {rd : Name}

theorem Prepared.ret {i : Instr} (dest : i.dest = rd) (uses : ∀ n ∈ i.uses, n ∈ K) (h : P → Q i) :
    Prepared v σ P rd (pure i) Q base O K :=
  ⟨Piece.ret (append_subset.mpr ⟨uses, List.Subset.refl _⟩) h, Returns.ret dest⟩

theorem Prepared.bind {m : Emit α} {f : α → Emit Instr} {R : α → Prop} {K₁ : α → List Name}
    (first : Piece v σ P m R base O K (fun _ => O) K₁) (keeps : ∀ a, K ⊆ K₁ a)
    (second : ∀ a, Prepared v σ (R a ∧ P) rd (f a) Q base O (K₁ a)) :
    Prepared v σ P rd (m >>= f) Q base O K := by
  refine ⟨⟨Spec.bind first.spec fun a => (second a).spec,
    Lays.bind first.lays fun a => (second a).lays.weaken fun i => ?_⟩,
    Returns.bind fun a => (second a).dest⟩
  exact append_subset.mpr ⟨by simp, List.Subset.trans (keeps a) (by simp)⟩

theorem Prepared.emit {m : Emit Instr} {f : Unit → Emit α} (O₁ : List Name) {O₂ : List Name}
    {R : α → Prop} {O' K' : α → List Name}
    (prepared : Prepared v σ P rd m Q base (O₁ ++ rd :: O₂) K)
    (rest : ∀ i, Piece v σ (i.Holds σ ∧ Q i ∧ P) (f ()) R base (O₁ ++ O₂) (rd :: (i.uses ++ K)) O'
      K') :
    Piece v σ P (m >>= fun i => Generator.emit i >>= f) R base (O₁ ++ rd :: O₂) K O' K' := by
  refine ⟨Spec.bind prepared.spec fun i => Spec.bind (emit_spec i) fun _ => (rest i).spec, ?_⟩
  refine Lays.bind_of prepared.lays prepared.dest fun i dest => ?_
  subst dest
  exact Lays.bind (emit_lays O₁ (by simp +contextual)) fun _ => (rest i).lays

theorem convertPort_lays (p : PortId) :
    Lays base O K (convertPort cell p) (fun _ => O) (fun n => n :: K) :=
  Lays.bind Lays.lift fun sig =>
    (convertSig_piece sig : Yields (fun w => 0#(w.width)) (fun _ => ⟨0, 0#0⟩) True ..).lays

theorem convertPort_piece (p : PortId) :
    Yields v σ P (convertPort cell p) (fun _ => True) base O K :=
  Piece.bind Piece.lift fun sig => (convertSig_piece sig).weaken fun _ _ _ => trivial

theorem getWidth_piece (p : ParamId) :
    Piece v σ P (getWidth cell p) (fun _ => True) base O K (fun _ => O) (fun _ => K) :=
  Piece.bind Piece.lift (fun _ => Piece.ret (List.Subset.refl _) fun _ => trivial)

theorem selectMux_piece : Selected v σ P (selectMux cell) (fun _ => True) base O K := by
  iterate 4 refine .bind (convertPort_piece _) fun _ => ?_
  exact Selected.ret (by simp) (by simp) fun _ => trivial

theorem convertCases_piece (width : Nat) (conds data : SigSpec) :
    Piece v σ P (convertCases width data conds) (fun _ => True) base O K (fun _ => O)
      (fun cases => cases.flatMap (fun c => [c.1, c.2]) ++ K) := by
  induction conds generalizing data K P with
  | nil => exact Piece.ret (by simp) fun _ => trivial
  | cons cond conds ih =>
    refine .bind Piece.assert fun _ => ?_
    iterate 2 refine .bind (convertSig_piece _) fun _ => ?_
    refine Piece.bind (ih _) (fun rest => Piece.ret (fun x hx => ?_) fun _ => trivial)
    simp only [flatMap_cons, cons_append, nil_append, mem_cons, mem_append] at hx ⊢
    tauto

theorem selectPmux_piece : Selected v σ P (selectPmux cell) (fun _ => True) base O K := by
  refine .bind (convertPort_piece _) fun _ => ?_
  iterate 2 refine .bind (getWidth_piece _) fun _ => ?_
  iterate 2 refine .bind Piece.lift fun _ => ?_
  refine .bind Piece.assert fun _ => ?_
  refine .bind (convertCases_piece _ _ _) fun cases => ?_
  refine .bind (convertPort_piece _) fun _ => ?_
  refine Selected.ret (by simp) (fun x hx => ?_) fun _ => trivial
  rcases mem_cons.mp hx with rfl | used
  · simp
  · exact mem_cons_of_mem _ (mem_append_left _ used)

end ManticoreFrontend.Writer.CellLayout
