/- source: passes/manticore/manticore_writer.cc
   digest: Every temporary is written once and read only afterwards, so that emitted code has a solution. -/

import ManticoreFrontend.Writer.Denotation

namespace ManticoreFrontend.Writer.Layout

open Foundation BitWord Dataflow Emission Kernel Constants Signals Assembly Generator Denotation
open List

/-- A name allocated by one of the two counters. -/
def Below (st : Worker) (n : Name) : Prop :=
  n.index < if n.kind = .c then st.constIndex else st.wireIndex

theorem Below.mono {s t : Worker} {n : Name} (h : Below s n)
    (wire : s.wireIndex ≤ t.wireIndex := by simp)
    (const : s.constIndex ≤ t.constIndex := by simp) : Below t n := by
  unfold Below at h ⊢
  split at h <;> simp_all <;> omega

/-- A name that stands for something already: a wire, a constant, a signal, a register, or one
that an instruction writes or reads. -/
inductive Touched (st : Worker) (n : Name) : Prop
  | wire (w : Wire) (h : (w, n) ∈ st.wires)
  | constant (c : Const) (h : (c, n) ∈ st.constants)
  | signal (sig : SigSpec) (h : (sig, n) ∈ st.availableSigs)
  | register (r : RegDef) (h : r ∈ st.regs) (name : n = r.input ∨ n = r.output)
  | instr (i : Instr) (h : i ∈ st.instrs) (name : n = i.dest ∨ n ∈ i.uses)

/-- All names in use are allocated; constants have names of their own kind. -/
structure Bounded (st : Worker) : Prop where
  touched : ∀ n, Touched st n → Below st n
  wireDefs : ∀ d ∈ st.wireDefs, Below st d.1
  constDefs : ∀ d ∈ st.constDefs, d.1.kind = .c ∧ Touched st d.1
  wires : ∀ e ∈ st.wires, e.2.kind = .w
  states : ∀ e ∈ st.states, Touched st e.2.1 ∧ Touched st e.2.2

theorem bounded_initial : Bounded {} := by
  constructor
  · rintro n (⟨w, h⟩ | ⟨c, h⟩ | ⟨sig, h⟩ | ⟨r, h, -⟩ | ⟨i, h, -⟩) <;> simp at h
  all_goals intro d h; simp at h

/-- What a run from `base` has added: temporaries `O` that are not yet written or read, names `K`
that may be read, and instructions in use order. -/
structure Tidy (base : Worker) (O K : List Name) (st : Worker) : Prop extends Bounded st where
  grows : ∀ n, Below base n → Below st n
  opened : ∀ n ∈ O, n.kind = .w ∧ Below st n ∧ ¬ Touched st n
  nodup : O.Nodup
  known : ∀ n ∈ K, Touched st n
  layout : ∃ new, st.instrs = base.instrs ++ new ∧ instrSystem.Ordered (Touched base) new ∧
    ∀ i ∈ new, i.dest.kind = .w ∧ ∀ e ∈ st.wires, e.2 ≠ i.dest
  declares : ∀ (v : Valuation) (σ : Name → Word), Declared v σ base →
    ∃ τ, Declared v τ st ∧ ∀ n, Below base n → τ n = σ n
  touches : ∀ n, Touched base n → Touched st n

variable {K : List Name} {st : Worker}

theorem Bounded.tidy (bounded : Bounded st) (h : ∀ n ∈ K, Touched st n) : Tidy st [] K st where
  toBounded := bounded
  grows _ := id
  opened n hn := by simp at hn
  nodup := nodup_nil
  known := h
  layout := ⟨[], by simp, .nil, by simp⟩
  declares v σ declared := ⟨σ, declared, fun _ _ => rfl⟩
  touches _ := id

theorem Tidy.weaken {base : Worker} {O K' : List Name} (tidy : Tidy base O K st) (h : K' ⊆ K) :
    Tidy base O K' st :=
  { tidy with known := fun n hn => tidy.known n (h hn) }

/-- A run lays out its instructions: from a state with the open temporaries `O` and the known
names `K` it leaves `O'` and `K'`. -/
def Lays {α : Type} (base : Worker) (O K : List Name) (m : Emit α) (O' K' : α → List Name) : Prop :=
  ∀ s a t, m s = some (a, t) → Tidy base O K s → Tidy base (O' a) (K' a) t

namespace Lays

variable {α β : Type} {base : Worker} {O K : List Name}

theorem ret {a : α} {K' : α → List Name} (h : K' a ⊆ K) :
    Lays base O K (pure a) (fun _ => O) K' := by
  intro s b t run tidy
  obtain ⟨rfl, rfl⟩ := pure_eq_some.mp run
  exact tidy.weaken h

variable {O₁ K₁ : α → List Name} {m : Emit α}

theorem bind {f : α → Emit β} {O₂ K₂ : β → List Name} (first : Lays base O K m O₁ K₁)
    (second : ∀ a, Lays base (O₁ a) (K₁ a) (f a) O₂ K₂) : Lays base O K (m >>= f) O₂ K₂ := by
  intro s b u run tidy
  obtain ⟨a, t, hm, hf⟩ := bind_eq_some.mp run
  exact second a t b u hf (first s a t hm tidy)

/-- Sequencing where the second part relies on a fact about every result of the first. -/
theorem bind_of {f : α → Emit β} {O₂ K₂ : β → List Name} {Q : α → Prop}
    (first : Lays base O K m O₁ K₁) (returns : Returns m Q)
    (second : ∀ a, Q a → Lays base (O₁ a) (K₁ a) (f a) O₂ K₂) : Lays base O K (m >>= f) O₂ K₂ := by
  intro s b u run tidy
  obtain ⟨a, t, hm, hf⟩ := bind_eq_some.mp run
  exact second a (returns s a t hm) t b u hf (first s a t hm tidy)

theorem weaken {K₂ : α → List Name} (h : Lays base O K m O₁ K₁) (known : ∀ a, K₂ a ⊆ K₁ a) :
    Lays base O K m O₁ K₂ := by
  intro s a t run tidy
  exact (h s a t run tidy).weaken (known a)

theorem abort : Lays base O K (failure : Emit α) O₁ K₁ := by
  intro s a t run
  cases run

theorem ite {c : Prop} [Decidable c] {m' : Emit α} (yes : Lays base O K m O₁ K₁)
    (no : Lays base O K m' O₁ K₁) : Lays base O K (if c then m else m') O₁ K₁ := by
  split
  · exact yes
  · exact no

theorem assert {c : Prop} [Decidable c] :
    Lays base O K (guard c : Emit Unit) (fun _ => O) (fun _ => K) := by
  exact ite (ret (List.Subset.refl _)) abort

theorem lift {o : Option α} : Lays base O K (liftM o : Emit α) (fun _ => O) (fun _ => K) := by
  intro s a t run tidy
  obtain ⟨-, rfl⟩ := lift_eq_some.mp run
  exact tidy

end Lays

variable {base s t : Worker} {O K O' K' : List Name}

theorem Bounded.declared_update {v : Valuation} {τ : Name → Word} {n : Name} (bounded : Bounded s)
    (declared : Declared v τ s) (fresh : ¬ Below s n) (word : Word) :
    Declared v (Function.update τ n word) s := by
  have keep : ∀ m, Below s m → Function.update τ n word m = τ m := by
    intro m hm
    apply Function.update_of_ne
    rintro rfl
    exact fresh hm
  constructor
  · intro d hd
    rw [keep _ (bounded.wireDefs d hd)]
    exact declared.wireDefs d hd
  · intro e he
    rw [keep _ (bounded.touched _ (.wire e.1 he))]
    exact declared.wires e he
  · intro r hr
    rw [keep _ (bounded.touched _ (.register r hr (Or.inl rfl))),
      keep _ (bounded.touched _ (.register r hr (Or.inr rfl)))]
    exact declared.regs r hr
  · intro d hd
    rw [keep _ (bounded.touched _ (bounded.constDefs d hd).2)]
    exact declared.constDefs d hd

theorem Touched.mono {n : Name} (h : Touched s n)
    (wires : s.wires ⊆ t.wires := by simp) (constants : s.constants ⊆ t.constants := by simp)
    (signals : s.availableSigs ⊆ t.availableSigs := by simp) (regs : s.regs ⊆ t.regs := by simp)
    (instrs : s.instrs ⊆ t.instrs := by simp) : Touched t n := by
  cases h with
  | wire w h => exact .wire w (wires h)
  | constant c h => exact .constant c (constants h)
  | signal sig h => exact .signal sig (signals h)
  | register r h name => exact .register r (regs h) name
  | instr i h name => exact .instr i (instrs h) name

/-- A step that allocates one name `n₀` and adds no instruction. Its word is free to choose. -/
theorem Tidy.allocate (tidy : Tidy base O K s) (n₀ : Name) (fresh : ¬ Below s n₀)
    (allocated : Below t n₀) (touched : ∀ n, Touched t n → Touched s n ∨ n = n₀)
    (wireDefs : ∀ d ∈ t.wireDefs, d ∈ s.wireDefs ∨ d.1 = n₀)
    (constDefs : ∀ d ∈ t.constDefs, d ∈ s.constDefs ∨ d.1.kind = .c ∧ Touched t d.1)
    (wires : ∀ e ∈ t.wires, e ∈ s.wires ∨ e.2 = n₀ ∧ n₀.kind = .w) (word : Valuation → Word)
    (declares : ∀ (v : Valuation) (τ : Name → Word), Declared v τ s → τ n₀ = word v → Declared v τ t)
    (opened : ∀ n ∈ O', n ∈ O ∨ n = n₀ ∧ n₀.kind = .w ∧ ¬ Touched t n₀) (nodup : O'.Nodup)
    (known : ∀ n ∈ K', n ∈ K ∨ Touched t n)
    (below : ∀ n, Below s n → Below t n := by exact fun n h => h.mono)
    (touches : ∀ n, Touched s n → Touched t n := by exact fun n h => h.mono)
    (instrs : t.instrs = s.instrs := by rfl) (states : t.states = s.states := by rfl) :
    Tidy base O' K' t where
  touched n hn := by
    rcases touched n hn with old | rfl
    · exact below n (tidy.touched n old)
    · exact allocated
  wireDefs d hd := by
    rcases wireDefs d hd with old | new
    · exact below _ (tidy.wireDefs d old)
    · exact new ▸ allocated
  constDefs d hd := by
    rcases constDefs d hd with old | new
    · exact ⟨(tidy.constDefs d old).1, touches _ (tidy.constDefs d old).2⟩
    · exact new
  wires e he := by
    rcases wires e he with old | new
    · exact tidy.wires e old
    · exact new.1 ▸ new.2
  states e he := by
    have old := tidy.states e (states ▸ he)
    exact ⟨touches _ old.1, touches _ old.2⟩
  grows n hn := below n (tidy.grows n hn)
  opened n hn := by
    rcases opened n hn with old | ⟨rfl, kind, untouched⟩
    · obtain ⟨kind, before, untouched⟩ := tidy.opened n old
      refine ⟨kind, below n before, fun h => ?_⟩
      rcases touched n h with h | rfl
      · exact untouched h
      · exact fresh before
    · exact ⟨kind, allocated, untouched⟩
  nodup := nodup
  known n hn := by
    rcases known n hn with old | new
    · exact touches n (tidy.known n old)
    · exact new
  layout := by
    obtain ⟨new, same, ordered, dests⟩ := tidy.layout
    refine ⟨new, instrs.trans same, ordered, fun i hi => ⟨(dests i hi).1, fun e he equal => ?_⟩⟩
    rcases wires e he with old | ⟨name, -⟩
    · exact (dests i hi).2 e old equal
    · have written : i ∈ s.instrs := by simp [same, hi]
      have before := tidy.touched _ (.instr i written (Or.inl rfl))
      rw [← equal, name] at before
      exact fresh before
  declares v σ declared := by
    obtain ⟨τ, declared, agree⟩ := tidy.declares v σ declared
    have updated := tidy.toBounded.declared_update declared fresh (word v)
    refine ⟨_, declares v _ updated (by simp), fun n hn => ?_⟩
    rw [Function.update_of_ne, agree n hn]
    rintro rfl
    exact fresh (tidy.grows _ hn)
  touches n hn := touches n (tidy.touches n hn)

variable {base : Worker} {O K : List Name} {s : Worker}

theorem Bounded.congr {t : Worker} (bounded : Bounded s) (wireIndex : t.wireIndex = s.wireIndex)
    (constIndex : t.constIndex = s.constIndex) (wireDefs : t.wireDefs = s.wireDefs)
    (wires : t.wires = s.wires) (constDefs : t.constDefs = s.constDefs)
    (constants : t.constants = s.constants) (signals : t.availableSigs = s.availableSigs)
    (regs : t.regs = s.regs) (states : t.states = s.states) (instrs : t.instrs = s.instrs) :
    Bounded t := by
  have touched : ∀ n, Touched t n ↔ Touched s n := by
    intro n
    constructor <;> intro h <;>
      exact h.mono (by simp [wires]) (by simp [constants]) (by simp [signals]) (by simp [regs])
        (by simp [instrs])
  have below : ∀ n, Below s n → Below t n := fun n h =>
    h.mono (by simp [wireIndex]) (by simp [constIndex])
  refine ⟨fun n h => below n (bounded.touched n ((touched n).mp h)), ?_, ?_, ?_, ?_⟩
  · exact fun d hd => below _ (bounded.wireDefs d (wireDefs ▸ hd))
  · intro d hd
    have old := bounded.constDefs d (constDefs ▸ hd)
    exact ⟨old.1, (touched _).mpr old.2⟩
  · exact fun e he => bounded.wires e (wires ▸ he)
  · intro e he
    have old := bounded.states e (states ▸ he)
    exact ⟨(touched _).mpr old.1, (touched _).mpr old.2⟩

private theorem mem_snoc {α : Type} {l : List α} {a b : α} (h : a ∈ l ++ [b]) : a ∈ l ∨ a = b := by
  simpa using h

theorem temp_lays (width : Nat) : Lays base O K (temp width) (fun n => n :: O) (fun _ => K) := by
  intro s n t run tidy
  obtain ⟨rfl, rfl⟩ := Prod.mk.inj (Option.some.inj run)
  have fresh : ¬ Below s ⟨.w, s.wireIndex⟩ := by simp [Below]
  refine tidy.allocate _ fresh (by simp [Below]) ?_ ?_ (fun d hd => Or.inl hd)
    (fun e he => Or.inl he) (fun _ => ⟨width, 0#(width)⟩) ?_ ?_ ?_ (fun n hn => Or.inl hn)
  · exact fun n h => Or.inl h.mono
  · exact fun d hd => (mem_snoc hd).imp id (congrArg Prod.fst)
  · intro v τ declared word
    refine ⟨fun d hd => ?_, declared.wires, declared.regs, declared.constDefs⟩
    rcases mem_snoc hd with old | rfl
    · exact declared.wireDefs d old
    · rw [word]
  · exact forall_mem_cons.mpr
      ⟨Or.inr ⟨rfl, rfl, fun h => fresh (tidy.touched _ h.mono)⟩, fun n hn => Or.inl hn⟩
  · exact nodup_cons.mpr ⟨fun h => fresh (tidy.opened _ h).2.1, tidy.nodup⟩

theorem wireGet_lays (w : Wire) : Lays base O K (wireGet w) (fun _ => O) (fun n => n :: K) := by
  intro s n t run tidy
  unfold wireGet at run
  split at run <;> obtain ⟨rfl, rfl⟩ := Prod.mk.inj (Option.some.inj run)
  · rename_i found
    refine { tidy with known := forall_mem_cons.mpr ⟨.wire w (lookup_mem found), tidy.known⟩ }
  · refine tidy.allocate ⟨.w, s.wireIndex⟩ (by simp [Below]) (by simp [Below]) ?_ ?_
      (fun d hd => Or.inl hd) ?_ (fun v => ⟨w.width, v w⟩) ?_ (fun n hn => Or.inl hn) tidy.nodup
      (forall_mem_cons.mpr ⟨Or.inr (.wire w (by simp)), fun n hn => Or.inl hn⟩)
    · rintro n (⟨u, h⟩ | ⟨c, h⟩ | ⟨sig, h⟩ | ⟨r, h, name⟩ | ⟨i, h, name⟩)
      · exact (mem_snoc h).imp (.wire u) (fun equal => (Prod.mk.inj equal).2)
      · exact Or.inl (.constant c h)
      · exact Or.inl (.signal sig h)
      · exact Or.inl (.register r h name)
      · exact Or.inl (.instr i h name)
    · exact fun d hd => (mem_snoc hd).imp id (congrArg Prod.fst)
    · exact fun e he => (mem_snoc he).imp id (fun equal => ⟨congrArg Prod.snd equal, rfl⟩)
    · intro v τ declared word
      refine ⟨fun d hd => ?_, fun e he => ?_, declared.regs, declared.constDefs⟩
      · rcases mem_snoc hd with old | rfl
        · exact declared.wireDefs d old
        · rw [word]
      · rcases mem_snoc he with old | rfl
        · exact declared.wires e old
        · exact word

theorem constGet_lays (c : Const) : Lays base O K (constGet c) (fun _ => O) (fun n => n :: K) := by
  intro s n t run tidy
  unfold constGet at run
  split at run <;> obtain ⟨rfl, rfl⟩ := Prod.mk.inj (Option.some.inj run)
  · rename_i found
    refine { tidy with
      known := forall_mem_cons.mpr ⟨.constant c (lookup_mem found), tidy.known⟩ }
  · refine tidy.allocate ⟨.c, s.constIndex⟩ (by simp [Below]) (by simp [Below]) ?_
      (fun d hd => Or.inl hd) ?_ (fun e he => Or.inl he) (fun _ => constWord (definedBits c)) ?_
      (fun n hn => Or.inl hn) tidy.nodup
      (forall_mem_cons.mpr ⟨Or.inr (.constant c (by simp)), fun n hn => Or.inl hn⟩)
    · rintro n (⟨u, h⟩ | ⟨d, h⟩ | ⟨sig, h⟩ | ⟨r, h, name⟩ | ⟨i, h, name⟩)
      · exact Or.inl (.wire u h)
      · exact (mem_snoc h).imp (.constant d) (fun equal => (Prod.mk.inj equal).2)
      · exact Or.inl (.signal sig h)
      · exact Or.inl (.register r h name)
      · exact Or.inl (.instr i h name)
    · intro d hd
      rcases mem_snoc hd with old | rfl
      · exact Or.inl old
      · exact Or.inr ⟨rfl, .constant c (by simp)⟩
    · intro v τ declared word
      refine ⟨declared.wireDefs, declared.wires, declared.regs, fun d hd => ?_⟩
      rcases mem_snoc hd with old | rfl
      · exact declared.constDefs d old
      · exact word

theorem available_lays {sig : SigSpec} {n : Name} (h : n ∈ K) :
    Lays base O K (available sig n) (fun _ => O) (fun _ => K) := by
  intro s a t run tidy
  unfold available at run
  split at run <;> obtain ⟨rfl, rfl⟩ := Prod.mk.inj (Option.some.inj run)
  · exact tidy
  · have touched : ∀ m, Touched { s with availableSigs := s.availableSigs ++ [(sig, n)] } m ↔
        Touched s m := by
      intro m
      constructor
      · rintro (⟨u, h⟩ | ⟨d, h⟩ | ⟨sig, h⟩ | ⟨r, h, name⟩ | ⟨i, h, name⟩)
        · exact .wire u h
        · exact .constant d h
        · rcases mem_snoc h with old | new
          · exact .signal sig old
          · obtain ⟨-, rfl⟩ := Prod.mk.inj new
            exact tidy.known m ‹_›
        · exact .register r h name
        · exact .instr i h name
      · exact fun h => h.mono
    exact {
      touched := fun m hm => tidy.touched m ((touched m).mp hm)
      wireDefs := tidy.wireDefs
      constDefs := fun d hd => ⟨(tidy.constDefs d hd).1, (touched _).mpr (tidy.constDefs d hd).2⟩
      wires := tidy.wires
      states := fun e he =>
        ⟨(touched _).mpr (tidy.states e he).1, (touched _).mpr (tidy.states e he).2⟩
      grows := tidy.grows
      opened := fun m hm => ⟨(tidy.opened m hm).1, (tidy.opened m hm).2.1,
        fun h => (tidy.opened m hm).2.2 ((touched m).mp h)⟩
      nodup := tidy.nodup
      known := fun m hm => (touched m).mpr (tidy.known m hm)
      layout := tidy.layout
      declares := fun v σ declared => by
        obtain ⟨τ, declared, agree⟩ := tidy.declares v σ declared
        exact ⟨τ, ⟨declared.wireDefs, declared.wires, declared.regs, declared.constDefs⟩, agree⟩
      touches := fun m hm => (touched m).mpr (tidy.touches m hm) }

variable (sig : SigSpec)

theorem findAvailable_lays :
    Lays base O K (findAvailable sig) (fun _ => O) (fun found => found.toList ++ K) := by
  intro s found t run tidy
  obtain ⟨rfl, rfl⟩ := Prod.mk.inj (Option.some.inj run)
  refine { tidy with known := fun m hm => ?_ }
  rcases mem_append.mp hm with hit | hm
  · exact .signal sig (lookup_mem (Option.mem_toList.mp hit))
  · exact tidy.known m hm

theorem touched_emit {i : Instr} (n : Name) :
    Touched { s with instrs := s.instrs ++ [i] } n ↔ Touched s n ∨ n = i.dest ∨ n ∈ i.uses := by
  constructor
  · rintro (⟨u, h⟩ | ⟨d, h⟩ | ⟨sig, h⟩ | ⟨r, h, name⟩ | ⟨j, h, name⟩)
    · exact Or.inl (.wire u h)
    · exact Or.inl (.constant d h)
    · exact Or.inl (.signal sig h)
    · exact Or.inl (.register r h name)
    · rcases mem_snoc h with old | rfl
      · exact Or.inl (.instr j old name)
      · exact Or.inr name
  · rintro (h | h)
    · exact h.mono
    · exact .instr i (by simp) h

theorem Bounded.emit {i : Instr} (bounded : Bounded s) (dest : Touched s i.dest)
    (uses : ∀ n ∈ i.uses, Touched s n) : Bounded { s with instrs := s.instrs ++ [i] } := by
  have touched : ∀ m, Touched { s with instrs := s.instrs ++ [i] } m → Touched s m := by
    intro m hm
    rcases (touched_emit m).mp hm with old | rfl | used
    · exact old
    · exact dest
    · exact uses m used
  have touches : ∀ m, Touched s m → Touched { s with instrs := s.instrs ++ [i] } m :=
    fun m hm => (touched_emit m).mpr (Or.inl hm)
  exact ⟨fun m hm => bounded.touched m (touched m hm), bounded.wireDefs,
    fun d hd => ⟨(bounded.constDefs d hd).1, touches _ (bounded.constDefs d hd).2⟩, bounded.wires,
    fun e he => ⟨touches _ (bounded.states e he).1, touches _ (bounded.states e he).2⟩⟩

theorem emit_lays (O₁ : List Name) {O₂ : List Name} {i : Instr} (uses : ∀ n ∈ i.uses, n ∈ K) :
    Lays base (O₁ ++ i.dest :: O₂) K (emit i) (fun _ => O₁ ++ O₂) (fun _ => i.dest :: K) := by
  intro s a t run tidy
  obtain ⟨rfl, rfl⟩ := Prod.mk.inj (Option.some.inj run)
  obtain ⟨kind, allocated, untouched⟩ := tidy.opened i.dest (by simp)
  have distinct : i.dest ∉ O₁ ++ O₂ ∧ (O₁ ++ O₂).Nodup := by
    have := tidy.nodup.perm perm_middle
    exact nodup_cons.mp this
  have touched : ∀ m, Touched { s with instrs := s.instrs ++ [i] } m → Touched s m ∨ m = i.dest := by
    intro m hm
    rcases (touched_emit m).mp hm with old | rfl | used
    · exact Or.inl old
    · exact Or.inr rfl
    · exact Or.inl (tidy.known m (uses m used))
  have touches : ∀ m, Touched s m → Touched { s with instrs := s.instrs ++ [i] } m :=
    fun m hm => (touched_emit m).mpr (Or.inl hm)
  exact {
    touched := fun m hm => by
      rcases touched m hm with old | rfl
      · exact tidy.touched m old
      · exact allocated
    wireDefs := tidy.wireDefs
    constDefs := fun d hd => ⟨(tidy.constDefs d hd).1, touches _ (tidy.constDefs d hd).2⟩
    wires := tidy.wires
    states := fun e he => ⟨touches _ (tidy.states e he).1, touches _ (tidy.states e he).2⟩
    grows := tidy.grows
    opened := fun m hm => by
      have still : m ∈ O₁ ++ i.dest :: O₂ := by
        rcases mem_append.mp hm with h | h <;> simp [h]
      refine ⟨(tidy.opened m still).1, (tidy.opened m still).2.1, fun h => ?_⟩
      rcases touched m h with old | rfl
      · exact (tidy.opened m still).2.2 old
      · exact distinct.1 hm
    nodup := distinct.2
    known := forall_mem_cons.mpr ⟨(touched_emit _).mpr (Or.inr (Or.inl rfl)),
      fun m hm => touches m (tidy.known m hm)⟩
    layout := by
      obtain ⟨new, same, ordered, dests⟩ := tidy.layout
      refine ⟨new ++ [i], by simp [same], .snoc ordered ?_ ?_ ?_, ?_⟩
      · exact fun h => untouched (tidy.touches _ h)
      · intro j hj
        have written : j ∈ s.instrs := by simp [same, hj]
        exact ⟨fun equal => untouched (.instr j written (Or.inl equal)),
          fun used => untouched (.instr j written (Or.inr used))⟩
      · exact fun own => untouched (tidy.known _ (uses _ own))
      · intro j hj
        rcases mem_snoc hj with old | rfl
        · exact dests j old
        · exact ⟨kind, fun e he equal => untouched (.wire e.1 (equal ▸ he))⟩
    declares := fun v σ declared => by
      obtain ⟨τ, declared, agree⟩ := tidy.declares v σ declared
      exact ⟨τ, ⟨declared.wireDefs, declared.wires, declared.regs, declared.constDefs⟩, agree⟩
    touches := fun m hm => touches m (tidy.touches m hm) }

/-- Tidy code has a solution: any solution of the base extends to the new names. -/
theorem Tidy.solution {base : Worker} (tidy : Tidy base [] K st) {v : Valuation} {σ : Name → Word}
    (sat : Satisfies v σ base) (bounded : ∀ n, Touched base n → Below base n) :
    ∃ τ, Satisfies v τ st := by
  obtain ⟨new, same, ordered, dests⟩ := tidy.layout
  obtain ⟨τ, declared, agree⟩ := tidy.declares v σ sat.toDeclared
  have widths := instrSystem.exec_width τ new
  have outside : ∀ n, (∀ i ∈ new, i.dest ≠ n) → instrSystem.exec τ new n = τ n := fun n h =>
    instrSystem.exec_of_not_dest h
  refine ⟨instrSystem.exec τ new, ⟨?_, ?_, ?_, ?_⟩, ?_⟩
  · intro d hd
    exact (widths d.1).trans (declared.wireDefs d hd)
  · intro e he
    rw [outside _ (fun i hi equal => (dests i hi).2 e he equal.symm)]
    exact declared.wires e he
  · intro r hr
    exact ⟨(widths _).trans (declared.regs r hr).1, (widths _).trans (declared.regs r hr).2⟩
  · intro d hd
    rw [outside _ (fun i hi equal => ?_)]
    · exact declared.constDefs d hd
    · have kind := (dests i hi).1
      rw [equal, (tidy.constDefs d hd).1] at kind
      cases kind
  · intro i hi
    rw [same] at hi
    rcases mem_append.mp hi with old | new
    · have names : ∀ n, n = i.dest ∨ n ∈ i.uses → Touched base n := fun n hn => .instr i old hn
      have keep : ∀ n, n = i.dest ∨ n ∈ i.uses → τ n = σ n := fun n hn =>
        agree n (bounded n (names n hn))
      have solved : instrSystem.Solves τ i := by
        have equal : instrSystem.value τ i = instrSystem.value σ i :=
          instrSystem.value_congr (fun n hn => keep n (Or.inr hn))
            (congrArg Word.width (keep _ (Or.inl rfl)))
        rw [System.Solves, equal]
        exact (keep _ (Or.inl rfl)).trans (sat.instrs i old)
      exact ordered.solves_fixed solved (names _ (Or.inl rfl)) (fun n hn => names n (Or.inr hn))
    · exact ordered.exec_solves τ i new

variable {v : Valuation} {σ : Name → Word} {P : Prop} {α : Type}

/-- A run that establishes `Q` and lays out its instructions. -/
structure Piece (v : Valuation) (σ : Name → Word) (P : Prop) (m : Emit α) (Q : α → Prop)
    (base : Worker) (O K : List Name) (O' K' : α → List Name) : Prop where
  spec : Spec (ledger v σ) P m Q
  lays : Lays base O K m O' K'

namespace Piece

variable {β : Type} {m : Emit α} {Q : α → Prop} {O₁ K₁ : α → List Name} {c : Prop} [Decidable c]

theorem bind {f : α → Emit β} {R : β → Prop} {O₂ K₂ : β → List Name}
    (first : Piece v σ P m Q base O K O₁ K₁)
    (second : ∀ a, Piece v σ (Q a ∧ P) (f a) R base (O₁ a) (K₁ a) O₂ K₂) :
    Piece v σ P (m >>= f) R base O K O₂ K₂ :=
  ⟨Spec.bind first.spec fun a => (second a).spec, Lays.bind first.lays fun a => (second a).lays⟩

theorem ret {a : α} (known : K₁ a ⊆ K) (h : P → Q a) :
    Piece v σ P (pure a) Q base O K (fun _ => O) K₁ :=
  ⟨Spec.ret h, Lays.ret known⟩

theorem weaken {R : α → Prop} (h : Piece v σ P m Q base O K O₁ K₁)
    (gives : ∀ a, P → Q a → R a) : Piece v σ P m R base O K O₁ K₁ :=
  ⟨h.spec.weaken id gives, h.lays⟩

theorem knowing {K₂ : α → List Name} (h : Piece v σ P m Q base O K O₁ K₁)
    (known : ∀ a, K₂ a ⊆ K₁ a) : Piece v σ P m Q base O K O₁ K₂ :=
  ⟨h.spec, h.lays.weaken known⟩

theorem ite {m' : Emit α} (yes : c → Piece v σ P m Q base O K O₁ K₁)
    (no : ¬ c → Piece v σ P m' Q base O K O₁ K₁) :
    Piece v σ P (if c then m else m') Q base O K O₁ K₁ := by
  split
  · exact yes ‹_›
  · exact no ‹_›

theorem assert : Piece v σ P (guard c : Emit Unit) (fun _ => c) base O K (fun _ => O) (fun _ => K) :=
  ⟨Spec.assert, Lays.assert⟩

theorem note {F : Prop} (fact : P → F) (h : Piece v σ (F ∧ P) m Q base O K O₁ K₁) :
    Piece v σ P m Q base O K O₁ K₁ :=
  ⟨Spec.note fact h.spec, h.lays⟩

theorem abort : Piece v σ P (failure : Emit α) Q base O K O₁ K₁ := ⟨Spec.abort, Lays.abort⟩

theorem lift {o : Option α} :
    Piece v σ P (liftM o : Emit α) (fun _ => True) base O K (fun _ => O) (fun _ => K) :=
  ⟨Spec.lift.weaken id (fun _ _ _ => trivial), Lays.lift⟩

end Piece

abbrev Yields (v : Valuation) (σ : Name → Word) (P : Prop) (m : Emit Name) (Q : Name → Prop)
    (base : Worker) (O K : List Name) : Prop :=
  Piece v σ P m Q base O K (fun _ => O) (fun n => n :: K)

theorem temp_piece (width : Nat) : Piece v σ P (temp width) (fun n => (σ n).width = width) base O K
    (fun n => n :: O) (fun _ => K) :=
  ⟨temp_spec width, temp_lays width⟩

theorem constGet_piece (c : Const) :
    Yields v σ P (constGet c) (fun n => σ n = constWord c) base O K :=
  ⟨constGet_spec c, constGet_lays c⟩

theorem wireGet_piece (w : Wire) :
    Yields v σ P (wireGet w) (fun n => σ n = ⟨w.width, v w⟩) base O K :=
  ⟨wireGet_spec w, wireGet_lays w⟩

theorem available_piece {sig : SigSpec} {n : Name} (known : n ∈ K) (named : P → Names v σ sig n) :
    Piece v σ P (available sig n) (fun _ => True) base O K (fun _ => O) (fun _ => K) :=
  ⟨available_spec named, available_lays known⟩

theorem findAvailable_piece : Piece v σ P (findAvailable sig)
    (fun found => ∀ n, found = some n → Names v σ sig n) base O K (fun _ => O)
    (fun found => found.toList ++ K) :=
  ⟨findAvailable_spec sig, findAvailable_lays sig⟩

theorem emit_piece (O₁ : List Name) {O₂ : List Name} {i : Instr}
    (uses : ∀ n ∈ i.uses, n ∈ K := by simp) :
    Piece v σ P (emit i) (fun _ => i.Holds σ) base (O₁ ++ i.dest :: O₂) K (fun _ => O₁ ++ O₂)
      (fun _ => i.dest :: K) :=
  ⟨emit_spec i, emit_lays O₁ uses⟩

theorem convertChunk_piece (chunk : SigChunk) (nonempty : chunk.bits ≠ []) :
    Yields v σ P (convertChunk chunk) (Names v σ chunk.bits) base O K := by
  refine .bind (findAvailable_piece _) fun found => ?_
  cases found with
  | some n => exact Piece.ret (by simp) (fun facts => facts.1 n rfl)
  | none =>
    cases chunk with
    | data bits =>
      refine (constGet_piece bits).weaken fun n _ word => ⟨nonempty, fun _ => ?_⟩
      rw [word, sigWord_const]
    | wire w offset width le =>
      refine Piece.ite (fun full => ?_) fun _ => ?_
      · refine .bind (wireGet_piece w) fun n => ?_
        refine Piece.note (F := Names v σ (SigChunk.wire w offset width le).bits n) ?_ ?_
        · rintro ⟨word, -⟩
          refine ⟨nonempty, fun _ => ?_⟩
          rw [word, ← sigWord_ofWire]
          subst full
          obtain rfl : offset = 0 := by omega
          simp [SigSpec.ofWire, SigChunk.bits]
        · exact Piece.bind (available_piece (by simp) And.left) fun _ =>
            Piece.ret (by simp) fun facts => facts.2.1
      · refine .bind (temp_piece width) fun c => ?_
        refine .bind (wireGet_piece w) fun n => ?_
        refine .bind (emit_piece []) fun _ => ?_
        refine Piece.note (F := Names v σ (SigChunk.wire w offset width le).bits c) ?_ ?_
        · rintro ⟨holds, word, declared, -⟩
          refine ⟨nonempty, fun _ => ?_⟩
          rw [(slice_iff declared).mp holds, word, sigWord_slice]
        · exact Piece.bind (available_piece (by simp) And.left) fun _ =>
            Piece.ret (by simp) fun facts => facts.2.1

private theorem concat_word {sig tail : SigSpec} {op1 op2 prevRes part shifted pos thisRes : Name}
    (small : (sig ++ tail).length < intLimit) (start : Names v σ sig prevRes)
    (named : Names v σ tail part) (width1 : (σ op1).width = (sig ++ tail).length)
    (width2 : (σ op2).width = (sig ++ tail).length)
    (widthS : (σ shifted).width = (sig ++ tail).length)
    (widthR : (σ thisRes).width = (sig ++ tail).length)
    (pad1 : (Instr.PADZERO op1 prevRes (sig ++ tail).length).Holds σ)
    (pad2 : (Instr.PADZERO op2 part (sig ++ tail).length).Holds σ)
    (amount : σ pos = constWord (Const.ofInt sig.length 32))
    (shift : (Instr.alu .SLL shifted op2 pos).Holds σ)
    (joined : (Instr.alu .OR thisRes shifted op1).Holds σ) :
    σ thisRes = sigWord v (sig ++ tail) := by
  have lengths : (sig ++ tail).length = sig.length + tail.length := length_append
  have small32 : sig.length < 2 ^ 32 := by
    unfold intLimit at small
    omega
  have position : (σ pos).val = sig.length := by
    rw [amount, constWord_ofInt]
    simpa [Word.val] using small32
  rw [(alu_iff widthR).mp joined, (alu_iff widthS).mp shift, (padzero_iff width1).mp pad1,
    (padzero_iff width2).mp pad2,
    start.2 (by omega), named.2 (by omega), sigWord_append]
  simp only [aluBits, resized, position, BitVec.setWidth_eq]
  rfl

theorem concatChunks_piece (rest : List SigChunk) (nonempty : ∀ c ∈ rest, c.bits ≠ [])
    (sig : SigSpec) (n : Name) (known : n ∈ K) (start : P → Names v σ sig n) :
    Yields v σ P (concatChunks rest sig n) (Names v σ (sig ++ rest.flatMap SigChunk.bits)) base O
      K := by
  induction rest generalizing sig n P K with
  | nil => exact Piece.ret (by simp [known]) (by simpa using start)
  | cons chunk rest ih =>
    refine .bind (temp_piece _) fun op1 => ?_
    refine .bind (temp_piece _) fun op2 => ?_
    refine .bind (emit_piece [op2] (by simp [known])) fun _ => ?_
    refine .bind (convertChunk_piece chunk (nonempty chunk (by simp))) fun part => ?_
    refine .bind (emit_piece []) fun _ => ?_
    refine .bind (temp_piece _) fun shifted => ?_
    refine .bind (constGet_piece _) fun pos => ?_
    refine .bind (emit_piece []) fun _ => ?_
    refine .bind (temp_piece _) fun thisRes => ?_
    refine .bind (emit_piece []) fun _ => ?_
    refine Piece.note (F := Names v σ (sig ++ chunk.bits) thisRes) ?_ ?_
    · rintro ⟨joined, widthR, shift, amount, widthS, pad2, named, pad1, width2, width1, facts⟩
      refine ⟨by simp [(start facts).1], fun small => ?_⟩
      exact concat_word small (start facts) named width1 width2 widthS widthR pad1 pad2 amount
        shift joined
    · refine .bind (available_piece (by simp) And.left) fun _ => ?_
      rw [flatMap_cons, ← append_assoc]
      exact (ih (fun c hc => nonempty c (by simp [hc])) (sig ++ chunk.bits) thisRes (by simp)
        (fun facts => facts.2.1)).knowing (by simp +contextual [subset_def])

private theorem packStep_nonempty (done : List SigChunk) (b : SigBit)
    (h : ∀ c ∈ done, c.bits ≠ []) : ∀ c ∈ SigSpec.packStep done b, c.bits ≠ [] := by
  intro c hc
  unfold SigSpec.packStep at hc
  split at hc
  · obtain rfl := mem_singleton.mp hc
    simp [ofBit_bits]
  · split at hc
    · rename_i grown pushed
      rcases mem_cons.mp hc with rfl | hc
      · simp [push_bits pushed]
      · exact h c (by simp [hc])
    · rcases mem_cons.mp hc with rfl | hc
      · simp [ofBit_bits]
      · exact h c hc

theorem chunks_nonempty : ∀ c ∈ SigSpec.chunks sig, c.bits ≠ [] := by
  have fold : ∀ (sig : SigSpec) (done : List SigChunk), (∀ c ∈ done, c.bits ≠ []) →
      ∀ c ∈ sig.foldl SigSpec.packStep done, c.bits ≠ [] := by
    intro sig
    induction sig with
    | nil => exact fun _ h => h
    | cons b sig ih => exact fun done h => ih _ (packStep_nonempty done b h)
  intro c hc
  exact fold sig [] (by simp) c (by simpa [SigSpec.chunks] using hc)

theorem convertSig_piece :
    Yields v σ P (convertSig sig) (Names v σ sig) base O K := by
  refine .bind (findAvailable_piece _) fun found => ?_
  cases found with
  | some n => exact Piece.ret (by simp) (fun facts => facts.1 n rfl)
  | none =>
    cases wire : SigSpec.asWire? sig with
    | some w =>
      obtain rfl := asWire?_eq_some wire
      refine (wireGet_piece w).weaken fun n _ word => ⟨?_, fun _ => ?_⟩
      · intro empty
        rw [empty] at wire
        simp [SigSpec.asWire?, SigSpec.chunks] at wire
      · rw [word, sigWord_ofWire]
    | none =>
      have parts := chunks_nonempty sig
      have bits := chunks_bits sig
      cases packed : SigSpec.chunks sig with
      | nil => exact Piece.abort
      | cons front rest =>
        rw [packed] at parts bits
        rw [← bits, flatMap_cons]
        refine .bind (convertChunk_piece front (parts front (by simp))) fun n => ?_
        exact (concatChunks_piece rest (fun c hc => parts c (by simp [hc])) front.bits n (by simp)
          And.left).knowing (by simp +contextual [subset_def])

theorem convertSig_spec :
    Spec (ledger v σ) P (convertSig sig) (Names v σ sig) :=
  (convertSig_piece sig : Yields v σ P _ _ {} [] []).spec

theorem padConvert_piece (width : Nat) :
    Yields v σ P (padConvert sig width)
      (fun n => sig.length ≤ width ∧ NamesExtended v σ sig false width n) base O K := by
  refine .bind Piece.assert fun _ => ?_
  refine Piece.ite (fun _ => ?_) fun exact => ?_
  · refine .bind (temp_piece width) fun padded => ?_
    refine .bind (convertSig_piece sig) fun n => ?_
    refine Piece.bind (emit_piece []) fun _ => Piece.ret (by simp) ?_
    rintro ⟨holds, named, declared, fits, -⟩
    refine ⟨fits, named.1, fun small => ?_⟩
    rw [(padzero_iff declared).mp holds, named.2 small]
    simp [resized, extendWord]
  · refine (convertSig_piece sig).weaken fun n facts named => ⟨facts.1, ?_⟩
    obtain rfl : sig.length = width := by
      omega
    exact named.extended_self false

private theorem sign_word (a : Word) :
    (a.bits >>> (a.width - 1)).setWidth 1 = BitVec.ofBool a.bits.msb := by
  apply BitVec.eq_of_getLsbD_eq
  intro i hi
  obtain rfl : i = 0 := by omega
  simp [BitVec.msb_eq_getLsbD_last]

theorem constWord_upperMask {w n : Nat} (le : w ≤ n) :
    constWord (Const.ofState .S0 w ++ Const.ofState .S1 (n - w)) = ⟨n, upperMask w n⟩ := by
  apply Word.eq_of_bit
  · simp [Const.ofState]
    omega
  · intro i hi
    have inside : i < n := by
      simp [Const.ofState] at hi
      omega
    rw [constWord, Word.ofBools_bit]
    simp only [Word.bit, upperMask_getLsbD, inside, decide_true, Bool.true_and, map_append,
      Const.ofState, map_replicate, getD]
    by_cases h : i < w
    · simp [h, getElem?_append_left]
    · have shifted : i - w < n - w := by omega
      rw [getElem?_append_right (by simpa using h)]
      simp [h, shifted]

private theorem sext_word {sig : SigSpec} {width : Nat}
    {sign orig amount mask posMask negMask sextended zextended : Name}
    (small : sig.length < intLimit) (fits : sig.length ≤ width) (named : Names v σ sig orig)
    (widthS : (σ sign).width = 1) (widthM : (σ mask).width = width)
    (widthX : (σ sextended).width = width) (widthZ : (σ zextended).width = width)
    (wordA : σ amount = constWord (Const.ofInt ((sig.length : Int) - 1) 32))
    (wordP : σ posMask = constWord (Const.ofState .S0 width))
    (wordN : σ negMask =
      constWord (Const.ofState .S0 sig.length ++ Const.ofState .S1 (width - sig.length)))
    (shift : (Instr.alu .SRL sign orig amount).Holds σ)
    (select : (Instr.MUX mask sign posMask negMask).Holds σ)
    (pad : (Instr.PADZERO zextended orig width).Holds σ)
    (joined : (Instr.alu .OR sextended zextended mask).Holds σ) :
    σ sextended = extendWord true width (sigWord v sig) := by
  have positive : 0 < sig.length := length_pos_iff.mpr named.1
  have amountVal : (σ amount).val = sig.length - 1 := by
    unfold intLimit at small
    rw [wordA, constWord_ofInt,
      show (sig.length : Int) - 1 = ((sig.length - 1 : Nat) : Int) by omega]
    simp only [Word.val, BitVec.ofInt_natCast, BitVec.toNat_ofNat]
    omega
  have signWord : σ sign = ⟨1, BitVec.ofBool (sigWord v sig).bits.msb⟩ := by
    have top : (σ amount).val = (sigWord v sig).width - 1 := by
      rw [amountVal, sigWord_width]
    rw [(alu_iff widthS).mp shift, named.2 small]
    simp only [aluBits, top]
    rw [sign_word]
  rw [(alu_iff widthX).mp joined, (padzero_iff widthZ).mp pad, (mux_iff widthM).mp select, signWord,
    wordP, wordN,
    named.2 small, constWord_ofState_S0, constWord_upperMask fits]
  simp only [extendWord, extendTo_true, signExtend_eq_mask, aluBits, resized, BitVec.setWidth_eq,
    sigWord_width]
  cases (sigWord v sig).bits.msb <;> simp [Word.val]

theorem sextConvert_piece (width : Nat) :
    Yields v σ P (sextConvert sig width)
      (fun n => sig.length ≤ width ∧ NamesExtended v σ sig true width n) base O K := by
  refine .bind Piece.assert fun _ => ?_
  refine Piece.ite (fun _ => ?_) fun exact => ?_
  · refine .bind (temp_piece 1) fun sign => ?_
    refine .bind (convertSig_piece sig) fun orig => ?_
    refine .bind (constGet_piece _) fun amount => ?_
    refine .bind (emit_piece []) fun _ => ?_
    refine .bind (temp_piece width) fun mask => ?_
    refine .bind (constGet_piece _) fun posMask => ?_
    refine .bind (constGet_piece _) fun negMask => ?_
    refine .bind (emit_piece []) fun _ => ?_
    refine .bind (temp_piece width) fun sextended => ?_
    refine .bind (temp_piece width) fun zextended => ?_
    refine .bind (emit_piece []) fun _ => ?_
    refine Piece.bind (emit_piece []) fun _ =>
      Piece.ret (by simp +contextual [subset_def]) ?_
    rintro ⟨joined, pad, widthZ, widthX, select, wordN, wordP, widthM, shift, wordA, named, widthS,
      fits, -⟩
    exact ⟨fits, named.1, fun small => sext_word small fits named widthS widthM widthX widthZ wordA
      wordP wordN shift select pad joined⟩
  · refine (convertSig_piece sig).weaken fun n facts named => ⟨facts.1, ?_⟩
    obtain rfl : sig.length = width := by
      omega
    exact named.extended_self true

theorem extendOrSlice_piece (width : Nat) (s : Bool) :
    Yields v σ P (extendOrSlice sig width s) (NamesExtended v σ sig s width) base O K := by
  refine Piece.ite (fun h => ?_) fun h => ?_
  · obtain ⟨-, rfl⟩ := h
    exact (sextConvert_piece sig width).weaken fun n _ named => named.2
  · refine Piece.ite (fun h' => ?_) fun h' => ?_
    · obtain ⟨-, rfl⟩ := h'
      exact (padConvert_piece sig width).weaken fun n _ named => named.2
    · have wider : width < sig.length := by
        cases s <;> simp at h h' <;> omega
      refine (convertSig_piece _).weaken fun n _ named => ⟨?_, fun small => ?_⟩
      · intro empty
        simp [empty] at wider
      · have length : (SigSpec.extract sig 0 width).length = width := by
          simp [SigSpec.extract, wider.le]
        rw [named.2 (by omega), sigWord_extract v sig width wider.le, extendWord,
          extendTo_of_le s (by simpa using wider.le)]

end ManticoreFrontend.Writer.Layout
