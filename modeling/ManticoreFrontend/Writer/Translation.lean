/- source: passes/manticore/manticore_writer.cc
   digest: The solutions of the emitted program are the solutions of the converted cells. -/

import ManticoreFrontend.Writer.BinaryCells
import ManticoreFrontend.Writer.UnaryCells

namespace ManticoreFrontend.Writer.Translation

open Foundation BitWord Emission Kernel CellTypes Signals
open CellChecker Assembly Generator Denotation Layout
open Cells CellContracts CellLayout UnaryCells BinaryCells List

variable {v : Valuation} {σ : Name → Word} {P : Prop} {cell : Cell}

/-- The values of the wires solve the emitted program. -/
def Satisfiable (v : Valuation) (st : Worker) : Prop := ∃ σ, Satisfies v σ st

/-- Selections that are only known to keep the caches true. -/
abbrev Keeps (v : Valuation) (σ : Name → Word) {α : Type} (m : Emit α) : Prop :=
  Spec (ledger v σ) True m (fun _ => True)

theorem convertPort_keeps (name : PortId) : Keeps v σ (convertPort cell name) :=
  Spec.bind Spec.lift (fun sig => (convertSig_spec sig).weaken id (fun _ _ _ => trivial))

theorem Keeps.bind {α β : Type} {m : Emit α} {f : α → Emit β} (first : Keeps v σ m)
    (second : ∀ a, Keeps v σ (f a)) : Keeps v σ (m >>= f) :=
  Spec.bind first (fun a => (second a).under)

theorem Keeps.lift {α : Type} {o : Option α} : Keeps v σ (liftM o : Emit α) :=
  Spec.lift.weaken id (fun _ _ _ => trivial)

def isUnary : CellType → Bool
  | .not | .pos | .neg | .reduceAnd | .reduceOr | .reduceBool | .reduceXor | .reduceXnor
  | .logicNot => true
  | _ => false

theorem emittedUnary_isSome {type : CellType} (unary : isUnary type = true) (s : Bool) {w : Nat}
    (x : BitVec w) (n : Nat) : ∃ r, emittedUnary type s x n = some r := by
  cases type <;> simp [isUnary] at unary <;> exact ⟨_, rfl⟩

theorem check_unary {cell : Cell} (checked : check cell = true)
    (unary : isUnary cell.type = true) : checkUnary cell = true := by
  unfold check at checked
  cases type : cell.type <;> simp [type, isUnary] at unary checked <;> exact checked

theorem check_twoOperand {cell : Cell} (checked : check cell = true)
    (supported : isBinary cell.type = true ∨ isShift cell.type = true) :
    checkBinary cell = true := by
  unfold check at checked
  cases type : cell.type <;> simp [type, isBinary, isShift] at supported checked <;>
    first | exact checked | exact checked.1

/-- Every checked selection keeps the caches true, writes its temporaries once and returns an
instruction over known names. -/
theorem selectCell_piece {base : Worker} {O K : List Name} (checked : check cell = true) :
    Selected v σ P (selectCell cell) (fun _ => True) base O K := by
  by_cases unary : isUnary cell.type = true
  · obtain ⟨a, y, shape⟩ := checkUnary_shape (check_unary checked unary)
    obtain ⟨r, emits⟩ := emittedUnary_isSome unary (signedParam cell .A_SIGNED) (sigWord v a).bits
      y.length
    exact (selectUnary_piece shape emits).weaken fun _ _ _ => trivial
  · by_cases supported : isBinary cell.type = true ∨ isShift cell.type = true
    · obtain ⟨a, b, y, shape⟩ := checkBinary_shape (check_twoOperand checked supported)
      exact (selectTwoOperand_piece shape supported).weaken fun _ _ _ => trivial
    · unfold selectCell
      cases type : cell.type <;> simp [type, isUnary, isBinary, isShift] at unary supported <;>
        first | exact selectMux_piece | exact selectPmux_piece | exact ⟨Spec.abort, Lays.abort⟩

variable {s t : Worker}

theorem getState_cases {p : Name × Name} (run : getState cell s = some (p, t)) :
    (t = s ∧ (cell, p) ∈ s.states) ∨
    ∃ c, cell.getParam .WIDTH = some c ∧
      p = (⟨.i, s.wireIndex + 1⟩, ⟨.o, s.wireIndex + 2⟩) ∧ t = { s with
        wireIndex := s.wireIndex + 3
        regs := s.regs ++ [⟨⟨.r, s.wireIndex⟩, c.asInt.toNat, p.1, registerInit cell, p.2⟩]
        states := s.states ++ [(cell, p.1, p.2)] } := by
  obtain ⟨st, s', hget, run⟩ := bind_eq_some.mp run
  rw [(get_eq_some.mp hget).1, (get_eq_some.mp hget).2] at run
  cases found : s.states.lookup cell with
  | some names =>
    rw [found] at run
    obtain ⟨rfl, rfl⟩ := pure_eq_some.mp run
    exact Or.inl ⟨rfl, lookup_mem found⟩
  | none =>
    rw [found] at run
    obtain ⟨width, s₁, hw, run⟩ := bind_eq_some.mp run
    obtain ⟨c, s₂, hc, hp⟩ := bind_eq_some.mp hw
    obtain ⟨param, rfl⟩ := lift_eq_some.mp hc
    obtain ⟨rfl, rfl⟩ := pure_eq_some.mp hp
    obtain ⟨r, s₃, hr, run⟩ := bind_eq_some.mp run
    obtain ⟨rfl, rfl⟩ := Prod.mk.inj (Option.some.inj hr)
    obtain ⟨q, s₄, hq, run⟩ := bind_eq_some.mp run
    obtain ⟨rfl, rfl⟩ := Prod.mk.inj (Option.some.inj hq)
    obtain ⟨d, s₅, hd, run⟩ := bind_eq_some.mp run
    obtain ⟨rfl, rfl⟩ := Prod.mk.inj (Option.some.inj hd)
    obtain ⟨u, s₆, hm, run⟩ := bind_eq_some.mp run
    obtain ⟨rfl, rfl⟩ := pure_eq_some.mp run
    rw [modify_eq_some.mp hm]
    exact Or.inr ⟨c, param, rfl, rfl⟩

theorem getState_spec : Spec (ledger v σ) P (getState cell) (fun p =>
    ∀ c, cell.getParam .WIDTH = some c →
      (σ p.1).width = c.asInt.toNat ∧ (σ p.2).width = c.asInt.toNat) := by
  intro s p t run
  rcases getState_cases run with ⟨rfl, member⟩ | ⟨c, param, -, rfl⟩
  · exact ⟨Extends.refl _, fun _ _ good => ⟨good, good.states _ member⟩⟩
  · refine ⟨⟨by simp, by simp, by simp, by simp, by simp, by simp, fun R regs before e he => ?_⟩,
      fun _ sat good => ?_⟩
    · rcases mem_append.mp he with old | new
      · exact before e old
      · rw [mem_singleton.mp new]
        exact regs ⟨⟨.r, s.wireIndex⟩, c.asInt.toNat, p.1, registerInit cell, p.2⟩ (by simp)
    have declared : ∀ c', cell.getParam .WIDTH = some c' →
        (σ p.1).width = c'.asInt.toNat ∧ (σ p.2).width = c'.asInt.toNat := by
      intro c' param'
      obtain rfl := Option.some.inj (param.symm.trans param')
      exact sat.regs ⟨⟨.r, s.wireIndex⟩, c.asInt.toNat, p.1, registerInit cell, p.2⟩ (by simp)
    refine ⟨⟨good.constants, good.availableSigs, fun e he => ?_⟩, declared⟩
    rcases mem_append.mp he with old | new
    · exact good.states e old
    · obtain rfl := mem_singleton.mp new
      exact declared

theorem convertDff_keeps : Keeps v σ (convertDff cell) := by
  refine .bind (getState_spec.weaken id (fun _ _ _ => trivial)) fun p => ?_
  refine .bind (convertPort_keeps _) fun _ => ?_
  refine .bind ((emit_spec _).weaken id (fun _ _ _ => trivial)) fun _ => ?_
  refine .bind (convertPort_keeps _) fun _ => ?_
  exact (emit_spec _).weaken id fun _ _ _ => trivial

theorem getState_bounded {p : Name × Name} (run : getState cell s = some (p, t))
    (bounded : Bounded s) : Bounded t ∧ Touched t p.1 ∧ Touched t p.2 := by
  rcases getState_cases run with ⟨rfl, member⟩ | ⟨c, -, names, same⟩
  · exact ⟨bounded, bounded.states _ member⟩
  · have touches : ∀ n, Touched s n → Touched t n := by
      rw [same]
      exact fun n h => h.mono
    have new : ⟨⟨.r, s.wireIndex⟩, c.asInt.toNat, p.1, registerInit cell, p.2⟩ ∈ t.regs := by simp [same]
    have current : Touched t p.1 := .register _ new (Or.inl rfl)
    have next : Touched t p.2 := .register _ new (Or.inr rfl)
    subst same
    refine ⟨⟨?_, ?_, ?_, bounded.wires, ?_⟩, current, next⟩
    · rintro n (⟨u, h⟩ | ⟨d, h⟩ | ⟨sig, h⟩ | ⟨r, h, name⟩ | ⟨j, h, name⟩)
      · exact (bounded.touched n (.wire u h)).mono
      · exact (bounded.touched n (.constant d h)).mono
      · exact (bounded.touched n (.signal sig h)).mono
      · rcases mem_append.mp h with old | new
        · exact (bounded.touched n (.register r old name)).mono
        · obtain rfl := mem_singleton.mp new
          rcases name with rfl | rfl <;> simp [names, Below]
      · exact (bounded.touched n (.instr j h name)).mono
    · exact fun d hd => (bounded.wireDefs d hd).mono
    · exact fun d hd => ⟨(bounded.constDefs d hd).1, touches _ (bounded.constDefs d hd).2⟩
    · intro e he
      rcases mem_append.mp he with old | new
      · exact ⟨touches _ (bounded.states e old).1, touches _ (bounded.states e old).2⟩
      · obtain rfl := mem_singleton.mp new
        exact ⟨current, next⟩

theorem convertPort_bounded {n : Name} {name : PortId}
    (run : convertPort cell name s = some (n, t)) (bounded : Bounded s) :
    Bounded t ∧ Touched t n ∧ ∀ m, Touched s m → Touched t m := by
  have tidy := convertPort_lays name s n t run (bounded.tidy (K := []) (by simp))
  exact ⟨tidy.toBounded, tidy.known n (by simp), tidy.touches⟩

theorem convertDff_bounded {u : Unit} (run : convertDff cell s = some (u, t))
    (bounded : Bounded s) : Bounded t := by
  obtain ⟨p, s₁, hp, run⟩ := bind_eq_some.mp run
  obtain ⟨bounded, current, next⟩ := getState_bounded hp bounded
  obtain ⟨q, s₂, hq, run⟩ := bind_eq_some.mp run
  obtain ⟨bounded, touchedQ, keep⟩ := convertPort_bounded hq bounded
  obtain ⟨_, s₃, hm, run⟩ := bind_eq_some.mp run
  obtain ⟨rfl, rfl⟩ := Prod.mk.inj (Option.some.inj hm)
  have bounded := bounded.emit (i := .MOV q p.1) touchedQ (by
    simpa using keep _ current)
  obtain ⟨d, s₄, hd, run⟩ := bind_eq_some.mp run
  obtain ⟨bounded, touchedD, keep'⟩ := convertPort_bounded hd bounded
  obtain ⟨rfl, rfl⟩ := Prod.mk.inj (Option.some.inj run)
  refine bounded.emit (i := .MOV p.2 d) ?_ (by simpa using touchedD)
  exact keep' _ ((touched_emit _).mpr (Or.inl (keep _ next)))

/-- The operator cells take the last branch of the conversion. -/
def isOperator (type : CellType) : Bool := isUnary type || isBinary type || isShift type

theorem convertCell_operator (operator : isOperator cell.type = true) :
    convertCell cell = selectCell cell >>= fun last => emit last := by
  unfold convertCell
  cases type : cell.type <;> simp [type, isOperator, isUnary, isBinary, isShift] at operator <;> rfl

private theorem modify_keeps {f : Worker → Worker} (grows : ∀ s, Extends s (f s))
    (caches : ∀ s, Caches v σ s → Caches v σ (f s)) : Keeps v σ (modify f : Emit Unit) := by
  intro s u t run
  rw [modify_eq_some.mp run]
  exact ⟨grows s, fun _ _ good => ⟨caches s good, trivial⟩⟩

private theorem pushBack_all {entries : List (IdString × List Cell)} {key : IdString}
    {Q : Cell → Prop} (all : ∀ e ∈ entries, ∀ c ∈ e.2, Q c) (new : Q cell) :
    ∀ e ∈ pushBack entries key cell, ∀ c ∈ e.2, Q c := by
  intro e he c hc
  unfold pushBack at he
  split at he
  · obtain ⟨e', member, rfl⟩ := mem_map.mp he
    split at hc
    · rcases mem_append.mp hc with old | last
      · exact all e' member c old
      · rwa [mem_singleton.mp last]
    · exact all e' member c hc
  · rcases mem_append.mp he with old | last
    · exact all e old c hc
    · rw [mem_singleton.mp last] at hc
      rwa [mem_singleton.mp hc]

theorem convertCell_keeps (checked : check cell = true) : Keeps v σ (convertCell cell) := by
  have other : Keeps v σ (selectCell cell >>= fun last => emit last) :=
    Keeps.bind (selectCell_piece checked : Selected v σ True (selectCell cell) _ {} [] []).spec
      (fun _ => (emit_spec _).weaken id (fun _ _ _ => trivial))
  unfold convertCell
  split
  · rename_i type
    have port : checkMemwrV2 cell = true := by simpa [check, type] using checked
    refine Keeps.bind Keeps.lift (fun _ => modify_keeps (fun s => ?_)
      (fun s good => ⟨good.constants, good.availableSigs, good.states⟩))
    exact ⟨by simp, by simp, by simp, by simp, by simp, fun h => ⟨pushBack_all h.1 port, h.2⟩, by simp⟩
  · rename_i type
    have port : checkMemrdV2 cell = true := by simpa [check, type] using checked
    refine Keeps.bind Keeps.lift (fun _ => modify_keeps (fun s => ?_)
      (fun s good => ⟨good.constants, good.availableSigs, good.states⟩))
    exact ⟨by simp, by simp, by simp, by simp, by simp, fun h => ⟨h.1, pushBack_all h.2 port⟩, by simp⟩
  · exact convertDff_keeps
  · exact modify_keeps fun s => by constructor <;> simp
      (fun s good => ⟨good.constants, good.availableSigs, good.states⟩)
  · exact other

private def Allocates (m : Emit Unit) : Prop := ∀ s u t, m s = some (u, t) → Bounded s → Bounded t

private theorem Allocates.modify {f : Worker → Worker} (keeps : ∀ s, Bounded s → Bounded (f s)) :
    Allocates (modify f : Emit Unit) := by
  intro s u t run bounded
  rw [modify_eq_some.mp run]
  exact keeps s bounded

private theorem Allocates.lift {α : Type} {o : Option α} {f : α → Emit Unit}
    (rest : ∀ a, Allocates (f a)) : Allocates ((liftM o : Emit α) >>= f) := by
  intro s u t run
  obtain ⟨a, s₁, hl, run⟩ := bind_eq_some.mp run
  rw [(lift_eq_some.mp hl).2] at run
  exact rest a s u t run

private theorem convertCell_allocates (checked : check cell = true) :
    Allocates (convertCell cell) := by
  unfold convertCell
  split
  · exact Allocates.lift (fun _ => Allocates.modify (fun s h =>
      h.congr rfl rfl rfl rfl rfl rfl rfl rfl rfl rfl))
  · exact Allocates.lift (fun _ => Allocates.modify (fun s h =>
      h.congr rfl rfl rfl rfl rfl rfl rfl rfl rfl rfl))
  · exact fun s u t run bounded => convertDff_bounded run bounded
  · exact Allocates.modify fun s h => h.congr rfl rfl rfl rfl rfl rfl rfl rfl rfl rfl
  · intro s u t run bounded
    obtain ⟨last, s₁, hs, run⟩ := bind_eq_some.mp run
    obtain ⟨rfl, rfl⟩ := Prod.mk.inj (Option.some.inj run)
    have piece : Selected (fun w => 0#(w.width)) (fun _ => ⟨0, 0#0⟩) True (selectCell cell) _ s []
      [] := selectCell_piece checked
    have tidy := piece.lays s last _ hs (bounded.tidy (by simp))
    exact tidy.toBounded.emit (tidy.known _ mem_cons_self) (fun n hn =>
      tidy.known n (mem_cons_of_mem _ hn))

/-- What holds after any number of conversions: the names are allocated, and a solution of the
program makes the caches true. -/
structure Reached (st : Worker) : Prop where
  bounded : Bounded st
  caches : ∀ {v : Valuation} {σ : Name → Word}, Satisfies v σ st → Caches v σ st
  ports : PortsChecked st.memoryWrites st.memoryReads

theorem reached_initial : Reached {} :=
  ⟨bounded_initial, fun _ => ⟨by simp, by simp, by simp⟩, by simp [PortsChecked]⟩

theorem Reached.step {u : Unit} (reached : Reached s) (checked : check cell = true)
    (run : convertCell cell s = some (u, t)) : Reached t := by
  have keeps := fun v σ => convertCell_keeps (v := v) (σ := σ) checked s u t run
  refine ⟨convertCell_allocates checked s u t run reached.bounded, fun {v σ} sat => ?_, ?_⟩
  · obtain ⟨grow, gives⟩ := keeps v σ
    exact (gives trivial sat (reached.caches (sat.mono grow))).1
  · exact (keeps (fun w => 0#(w.width)) (fun _ => ⟨0, 0#0⟩)).1.ports reached.ports

theorem convertCells_reached {cells : List Cell} {u : Unit} (reached : Reached s)
    (checked : ∀ c ∈ cells, check c = true) (run : convertCells cells s = some (u, t)) :
    Reached t := by
  induction cells generalizing s with
  | nil =>
    obtain ⟨-, rfl⟩ := pure_eq_some.mp run
    exact reached
  | cons c cells ih =>
    obtain ⟨_, s₁, hc, run⟩ := bind_eq_some.mp run
    exact ih (reached.step (checked c (by simp)) hc) (fun d hd => checked d (by simp [hd])) run

variable {st st' : Worker} {y : SigSpec} {r : BitVec y.length}

section

variable {F : Prop} (reached : Reached st) (operator : isOperator cell.type = true)
  (selects : ∀ σ, Selected v σ True (selectCell cell) (fun i => F ∧ Selects v σ y r i) st [] [])
  (run : convertCell cell st = some ((), st'))

include reached operator selects run

omit operator run in
theorem selected_solution {last : Instr} {s₁ : Worker} (hs : selectCell cell st = some (last, s₁))
    (sat : Satisfies v σ st) : ∃ τ, Satisfies v τ s₁ ∧ F ∧ Selects v τ y r last := by
  have tidy := (selects σ).lays st last s₁ hs (reached.bounded.tidy (by simp))
  obtain ⟨τ, after⟩ := tidy.solution sat reached.bounded.touched
  obtain ⟨grow, gives⟩ := (selects τ).spec st last s₁ hs
  exact ⟨τ, after, (gives trivial after (reached.caches (after.mono grow))).2⟩

theorem convertCell_solutions :
    Satisfiable v st' ↔ Satisfiable v st ∧ sigWord v y = ⟨y.length, r⟩ := by
  rw [convertCell_operator operator] at run
  obtain ⟨last, s₁, hs, run⟩ := bind_eq_some.mp run
  obtain ⟨-, rfl⟩ := Prod.mk.inj (Option.some.inj run)
  constructor
  · rintro ⟨σ, sat⟩
    have before : Satisfies v σ s₁ := sat.mono (by constructor <;> simp)
    obtain ⟨grow, gives⟩ := (selects σ).spec st last s₁ hs
    obtain ⟨-, -, selected⟩ := gives trivial before (reached.caches (before.mono grow))
    exact ⟨⟨σ, before.mono grow⟩, selected.iff.mp (sat.instrs last (by simp))⟩
  · rintro ⟨⟨σ, sat⟩, value⟩
    obtain ⟨τ, after, -, selected⟩ := selected_solution reached selects hs sat
    refine ⟨τ, ⟨⟨after.wireDefs, after.wires, after.regs, after.constDefs⟩, fun i hi => ?_⟩⟩
    rcases mem_append.mp hi with old | new
    · exact after.instrs i old
    · obtain rfl := mem_singleton.mp new
      exact selected.iff.mpr value

theorem convertCell_fact (sat : Satisfiable v st) : F ∧ y ≠ [] := by
  rw [convertCell_operator operator] at run
  obtain ⟨last, s₁, hs, -⟩ := bind_eq_some.mp run
  obtain ⟨σ, sat⟩ := sat
  obtain ⟨τ, -, fact, selected⟩ := selected_solution reached selects hs sat
  exact ⟨fact, selected.nonempty⟩

end

theorem name_value {sig : SigSpec} {t : Worker} {n : Name} (reached : Reached st)
    (small : sig.length < intLimit) (run : convertSig sig st = some (n, t))
    (sat : Satisfies v σ t) : Satisfiable v st ∧ σ n = sigWord v sig := by
  obtain ⟨grow, gives⟩ := convertSig_spec (v := v) (σ := σ) (P := True) sig st n t run
  have before := sat.mono grow
  exact ⟨⟨σ, before⟩, (gives trivial sat (reached.caches before)).2.2 small⟩

end ManticoreFrontend.Writer.Translation
