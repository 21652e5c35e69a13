/- source: passes/sat/async2sync.cc (Async2syncPass::execute), kernel/ff.h, kernel/ff.cc
     (FfData::FfData, unmap_ce, unmap_srst)
   digest: Registers with asynchronous inputs against the clocked circuits that replace them. -/

import Mathlib.Tactic.ByContra

namespace ManticoreFrontend.Passes.Async2sync

abbrev Lanes (w : Nat) := Fin w → Bool

/-- What the inputs of a register carry in one cycle. -/
structure Inputs (w : Nat) where
  (d ad set clr : Lanes w)
  (ce aload arst srst : Bool)

/-- A signal, read off the inputs, the old output of the register and its new output. -/
abbrev Sig (w : Nat) := Inputs w → Lanes w → Lanes w → Lanes w

structure FfData (w : Nat) where
  (hasClk hasGclk hasCe hasAload hasSrst hasArst hasSr ceOverSrst : Bool := false)
  (polCe polAload polArst polSrst polClr polSet : Bool := false)
  (valArst valSrst : Lanes w := fun _ => false)
  sigD : Sig w := fun x _ _ => x.d
  (sigArst : Inputs w → Bool := (·.arst))
  (sigSrst : Inputs w → Bool := (·.srst))

variable {w : Nat}

def oldQ : Sig w := fun _ q _ => q
def newQ : Sig w := fun _ _ n => n

def addMux (pol : Bool) (a b : Sig w) (s : Inputs w → Bool) : Sig w :=
  if pol then fun x q n => if s x then b x q n else a x q n
  else fun x q n => if s x then a x q n else b x q n

private theorem addMux_eq (pol : Bool) (a b : Sig w) (s : Inputs w → Bool) :
    addMux pol a b s = fun x q n i => if s x == pol then b x q n i else a x q n i := by
  funext x q n i
  cases pol <;> cases on : s x <;> simp [addMux, on]

namespace FfData

variable (ff : FfData w)

def ceMux : FfData w := { ff with hasCe := false, sigD := addMux ff.polCe oldQ ff.sigD (·.ce) }

def srstMux : FfData w :=
  { ff with
    hasSrst := false
    sigD := addMux ff.polSrst ff.sigD (fun _ _ _ => ff.valSrst) ff.sigSrst }

def unmapCe : FfData w :=
  if ff.hasCe then ceMux (if ff.hasSrst && ff.ceOverSrst then srstMux ff else ff) else ff

def unmapSrst : FfData w :=
  if ff.hasSrst then srstMux (if ff.hasCe && !ff.ceOverSrst then ceMux ff else ff) else ff

/-- The value under the set and clear inputs, as `$or` and `$and` cells compute it. -/
def setClear (sig : Sig w) : Sig w := fun x q n i =>
  let set := if ff.polSet then x.set i else !x.set i
  let clr := if ff.polClr then !x.clr i else x.clr i
  (sig x q n i || set) && clr

def loaded (sig : Sig w) : Sig w := addMux ff.polAload sig (fun x _ _ => x.ad) (·.aload)

def resetTo (sig : Sig w) : Sig w := addMux ff.polArst sig (fun _ _ _ => ff.valArst) ff.sigArst

/-- The end of the constructor: a plain latch whose data are the constant is one that is reset to it. -/
def constLatch (const : Option (Lanes w)) : FfData w :=
  match const with
  | some val =>
    if ff.hasAload && !ff.hasClk && !ff.hasSr && !ff.hasArst then
      { ff with
        hasAload := false, hasArst := true, sigArst := (·.aload), polArst := ff.polAload, valArst := val }
    else ff
  | none => ff

@[simp] theorem constLatch_hasGclk (const : Option (Lanes w)) :
    (ff.constLatch const).hasGclk = ff.hasGclk := by
  unfold constLatch
  split
  · split <;> rfl
  · rfl

/-- What drives the old output, and the register that is emitted on the new one. -/
abbrev Circuit (w : Nat) := Sig w × FfData w

def syncSetClear : Circuit w :=
  let ff := ff.unmapCe.unmapSrst
  (ff.setClear newQ, { ff with sigD := ff.setClear ff.sigD, hasSr := false })

def syncLoad : Circuit w :=
  let ff := ff.unmapCe.unmapSrst
  (ff.loaded newQ, { ff with sigD := ff.loaded ff.sigD, hasAload := false })

def syncReset : Circuit w :=
  let ff := ff.unmapSrst
  (ff.resetTo newQ, { ff with
    hasArst := false, hasSrst := true, ceOverSrst := false, valSrst := ff.valArst
    sigSrst := ff.sigArst, polSrst := ff.polArst })

def syncLatch : Circuit w :=
  let newD := if ff.hasAload then ff.loaded newQ else newQ
  (if ff.hasSr then ff.setClear newD else if ff.hasArst then ff.resetTo newD else newD,
    { ff with sigD := newD, hasAload := false, hasArst := false, hasSr := false, hasGclk := true })

/-- The circuit that replaces a register, unless it is left alone. -/
def async2sync : Option (Circuit w) :=
  if ff.hasGclk then none
  else if ff.hasClk then
    if ff.hasSr then some ff.syncSetClear
    else if ff.hasAload then some ff.syncLoad
    else if ff.hasArst then some ff.syncReset
    else none
  else some ff.syncLatch

def forced (x : Inputs w) (i : Fin w) : Option Bool :=
  if ff.hasSr && x.clr i == ff.polClr then some false
  else if ff.hasSr && x.set i == ff.polSet then some true
  else if ff.hasArst && ff.sigArst x == ff.polArst then some (ff.valArst i)
  else if ff.hasAload && x.aload == ff.polAload then some (x.ad i)
  else none

def output (x : Inputs w) (stored : Lanes w) (i : Fin w) : Bool := (ff.forced x i).getD (stored i)

def edge (x : Inputs w) (q own : Lanes w) (i : Fin w) : Bool :=
  let enabled := !ff.hasCe || x.ce == ff.polCe
  if ff.ceOverSrst && !enabled then own i
  else if ff.hasSrst && ff.sigSrst x == ff.polSrst then ff.valSrst i
  else if enabled then ff.sigD x q own i
  else own i

/-- The value that is stored after a cycle. Asynchronous inputs win, a latch keeps its output. -/
def next (x : Inputs w) (q own : Lanes w) (i : Fin w) : Bool :=
  if ff.hasGclk then ff.sigD x q own i
  else (ff.forced x i).getD (if ff.hasClk then ff.edge x q own i else own i)

private theorem unmapped {ff : FfData w} (port : ff.sigD = fun x _ _ => x.d) : ff.unmapCe.unmapSrst =
    { ff with hasCe := false, hasSrst := false, sigD := fun x q _ => ff.edge x q q } := by
  obtain ⟨_, _, hasCe, _, hasSrst, _, _, ceOverSrst⟩ := ff
  obtain rfl := port
  cases hasCe <;> cases hasSrst <;> cases ceOverSrst <;>
    simp [unmapCe, unmapSrst, ceMux, srstMux, addMux_eq, oldQ] <;> funext x q _ i <;> simp [edge]
  all_goals grind

private theorem setClear_eq (sig : Sig w) (x : Inputs w) (q n : Lanes w) (i : Fin w) :
    ff.setClear sig x q n i = if x.clr i == ff.polClr then false
      else if x.set i == ff.polSet then true else sig x q n i := by
  unfold setClear
  cases ff.polSet <;> cases ff.polClr <;> cases x.set i <;> cases x.clr i <;> simp

end FfData

/-- The stored values of a trace; the asynchronous inputs change with the clock only. -/
def trace (step : Inputs w → Lanes w → Lanes w) (start : Lanes w) (x : Nat → Inputs w) :
    Nat → Lanes w
  | 0 => start
  | t + 1 => step (x t) (trace step start x t)

/-- A register cell, with the record of its ports and the constant at the asynchronous data input, if
it is one. With a clock it has one kind of asynchronous input at most. -/
structure Register (w : Nat) extends FfData w where
  constAd : Option (Lanes w) := none
  portD : sigD = fun x _ _ => x.d := by rfl
  portArst : sigArst = (·.arst) := by rfl
  exclusive : hasClk → (hasSr → !(hasAload || hasArst)) ∧ (hasAload → !hasArst) := by decide

namespace Register

variable (r : Register w)

def ffData : FfData w := r.constLatch r.constAd

def step (x : Inputs w) (stored : Lanes w) : Lanes w :=
  r.next x (r.output x stored) (r.output x stored)

/-- In every trace that has the constant at its input, the circuit shows what the register shows. -/
def Preserved : Prop :=
  ∀ made, r.ffData.async2sync = some made → ∀ start x, (∀ t, ∀ val ∈ r.constAd, (x t).ad = val) → ∀ t,
    let stored := trace (fun x n => made.2.next x (made.1 x n n) n) start x t
    made.1 (x t) stored stored = r.output (x t) (trace r.step start x t)

/-- The circuit shows and stores what the register does. -/
def Matches (made : FfData.Circuit w) : Prop :=
  ∀ x n i, made.1 x n n i = r.output x n i ∧ made.2.next x (r.output x n) n i = r.step x n i

/-- The registers whose state is forced by nothing that is released before a clock stores it. -/
def Stores : Prop :=
  r.hasGclk ∨ r.hasClk ∨ ¬ (r.hasSr ∨ r.hasArst ∨ r.hasAload ∧ r.constAd.isSome)

variable {r}

open FfData

theorem ffData_eq (plain : r.hasClk ∨ r.hasSr ∨ r.hasArst ∨ ¬ (r.hasAload ∧ r.constAd.isSome)) :
    r.ffData = r.toFfData := by
  unfold ffData constLatch
  cases const : r.constAd with
  | none => rfl
  | some val =>
    refine if_neg fun latch => ?_
    simp_all

private theorem matches_clocked {made : FfData.Circuit w} (clk : r.hasClk = true)
    (found : r.async2sync = some made) : r.Matches made := by
  intro x n i
  have only := r.exclusive clk
  have unmapped := unmapped r.portD
  have port := r.portArst
  cases gclk : r.hasGclk <;> cases sr : r.hasSr <;> cases aload : r.hasAload <;>
    cases arst : r.hasArst <;> simp [async2sync, gclk, clk, sr, aload, arst] at only found
  · subst found
    cases srst : r.hasSrst <;> cases ce : r.hasCe <;> cases first : r.ceOverSrst <;>
      by_cases active : x.arst = r.polArst <;>
      simp [syncReset, unmapSrst, srstMux, ceMux, oldQ, addMux_eq, resetTo, newQ, step, next, output,
        forced, edge, r.portD, *]
    all_goals grind
  · subst found
    by_cases active : x.aload = r.polAload <;>
      simp [syncLoad, addMux_eq, loaded, newQ, step, next, output, forced, edge, r.portD, *]
  · subst found
    by_cases clear : x.clr i = r.polClr <;> by_cases set : x.set i = r.polSet <;>
      simp [syncSetClear, setClear_eq, newQ, step, next, output, forced, edge, r.portD, *]

theorem matches_syncLatch (gclk : r.hasGclk = false) (clk : r.hasClk = false) (sr : r.hasSr = false)
    (arst : r.hasArst = false) : r.Matches r.syncLatch := by
  intro x n i
  cases aload : r.hasAload <;> by_cases active : x.aload = r.polAload <;>
    simp [syncLatch, step, next, loaded, addMux_eq, output, forced, newQ, *]

private theorem Matches.preserves {made : FfData.Circuit w} (same : r.Matches made) (start : Lanes w)
    (x : Nat → Inputs w) (t : Nat) :
    trace (fun x n => made.2.next x (made.1 x n n) n) start x t = trace r.step start x t := by
  congr
  funext x n i
  rw [funext fun i => (same x n i).1, (same x n i).2]

variable (r)

def idle : Inputs w :=
  { d := fun _ => false, ad := r.constAd.getD fun _ => false, set := fun _ => !r.polSet
    clr := fun _ => !r.polClr, ce := false, aload := !r.polAload, arst := !r.polArst, srst := false }

/-- The set or reset is active in the first cycle only, or else the load of a constant. -/
def pulse (t : Nat) : Inputs w :=
  if t = 0 then
    if r.hasSr || r.hasArst then { r.idle with set := fun _ => r.polSet, arst := r.polArst }
    else { r.idle with aload := r.polAload }
  else r.idle

variable {r}

private theorem pulse_lost (unstored : ¬ r.Stores) (i : Fin w) : ¬ r.Preserved := by
  intro preserved
  rw [Stores, not_or, not_or, not_not, Bool.not_eq_true, Bool.not_eq_true, ← or_assoc] at unstored
  obtain ⟨gclk, clk, released⟩ := unstored
  have port := r.portArst
  have inputs : ∀ t, ∀ val ∈ r.constAd, (r.pulse t).ad = val := by
    intro t val const
    have idle : r.idle.ad = val := by simp [idle, Option.mem_def.mp const]
    unfold pulse
    split
    · split <;> exact idle
    · exact idle
  by_cases forced : r.hasSr = true ∨ r.hasArst = true
  · have same := congrFun (preserved r.syncLatch
      (by rw [ffData_eq (.inr (or_assoc.mp (.inl forced)))]; simp [async2sync, gclk, clk])
      (fun i => !(r.hasSr || r.valArst i)) r.pulse inputs 1) i
    -- the latch still shows what was forced on it, the circuit shows the start value again
    cases sr : r.hasSr <;> cases aload : r.hasAload <;>
      simp_all [trace, pulse, idle, syncLatch, setClear_eq, resetTo, loaded, addMux_eq, step, next,
        output, FfData.forced, newQ]
  · obtain ⟨sr, arst⟩ : r.hasSr = false ∧ r.hasArst = false := by simpa using forced
    obtain ⟨aload, const⟩ := released.resolve_left forced
    obtain ⟨val, const⟩ := Option.isSome_iff_exists.mp const
    have record : r.ffData = { r.toFfData with
        hasAload := false, hasArst := true, sigArst := (·.aload), polArst := r.polAload
        valArst := val } := by
      simp [ffData, constLatch, const, sr, arst, aload, clk]
    have same := congrFun (preserved r.ffData.syncLatch (by simp [record, async2sync, gclk, clk])
      (fun i => !val i) r.pulse inputs 1) i
    simp_all [trace, pulse, idle, syncLatch, resetTo, addMux_eq, step, next, output, FfData.forced, newQ]

/-- A register is kept exactly when it is clocked, or is a latch without set, clear and reset whose
data are no constant. -/
theorem preserved_iff (r : Register w) : r.Preserved ↔ r.Stores ∨ w = 0 := by
  constructor
  · intro preserved
    by_contra bad
    obtain ⟨unstored, bits⟩ := not_or.mp bad
    exact pulse_lost unstored ⟨0, by omega⟩ preserved
  · intro good made found start x _ t
    funext i
    obtain stores | rfl := good
    · have same : r.Matches made := by
        cases gclk : r.hasGclk with
        | true =>
          simp [async2sync, ffData, gclk] at found
        | false =>
          cases clk : r.hasClk with
          | true =>
            rw [ffData_eq (.inl clk)] at found
            exact matches_clocked clk found
          | false =>
            obtain ⟨sr, arst, plain⟩ : r.hasSr = false ∧ r.hasArst = false ∧
                ¬ (r.hasAload = true ∧ r.constAd.isSome = true) := by
              simpa [Stores, gclk, clk] using stores
            rw [ffData_eq (.inr (.inr (.inr plain)))] at found
            obtain rfl : r.syncLatch = made := by simpa [async2sync, gclk, clk] using found
            exact matches_syncLatch gclk clk sr arst
      rw [same.preserves]
      exact (same _ _ i).1
    · exact i.elim0

/-- An `$adlatch` of one bit with the reset value one. -/
def adlatch : Register 1 :=
  { hasAload := true, hasArst := true, polAload := true, polArst := true, valArst := fun _ => true }

/-- A `$dlatch` of one bit with the constant one at its data input. -/
def constantLatch : Register 1 :=
  { hasAload := true, polAload := true, constAd := some fun _ => true }

theorem adlatch_not_preserved : ¬ adlatch.Preserved ∧ ¬ constantLatch.Preserved :=
  ⟨pulse_lost (by simp [Stores, adlatch]) 0, pulse_lost (by simp [Stores, constantLatch]) 0⟩

end Register

end ManticoreFrontend.Passes.Async2sync
