/- source: passes/proc/proc_arst.cc
   digest: The chains of cells that a reset is tested through; removing its tests keeps what the tree assigns while it is inactive. -/

import ManticoreFrontend.Foundation.Outcome
import ManticoreFrontend.Kernel.CellChecker
import ManticoreFrontend.Passes.ProcArstReset
import ManticoreFrontend.Passes.ProcCleanRuns

namespace ManticoreFrontend.Passes.ProcArstElim

open Option

open Foundation.Outcome hiding check
open Kernel.CellTypes hiding evalCell
open Foundation.GuardedChoice Kernel Constants Signals SigTools Netlist InformationOrder Processes
open AliasValues
open Kernel.CellChecker (check evalCell PortWidth signedParam param checkUnary checkUnary_shape)
open ProcClean ProcCleanSize ProcCleanRuns ProcArst ProcArstReset

variable {v : Valuation}

/-- The output of an operator cell has the value of the reference evaluator, where it has one. -/
def CellHolds (v : Valuation) (cell : Cell) : Prop :=
  ∀ a y r, cell.getPort .A = some a → cell.getPort .Y = some y →
    evalCell cell (sigConst v a) (sigConst v ((cell.getPort .B).getD [])) = some r →
    RefinesAll r (sigConst v y)

/-- The cell, which compares a bit with a constant, is true exactly when the bit is the truth value
of the constant, or when it is not. -/
def ComparesBit (cell : Cell) (invertedBy : Bool) : Prop :=
  ∀ a b, cell.getPort .A = some a → cell.getPort .B = some b → ∀ x : Bool,
    (isFullyConst a = true → b.length = 1 →
      evalCell cell (constBits a) [State.ofBool x] =
        some [State.ofBool (x != ((constBits a).asBool == invertedBy))]) ∧
    (isFullyConst a = false → isFullyConst b = true → a.length = 1 →
      evalCell cell [State.ofBool x] (constBits b) =
        some [State.ofBool (x != ((constBits b).asBool == invertedBy))])

/-- Comparisons of a bit with a constant look at its truth value only. -/
def PlainComparison (cell : Cell) : Prop :=
  ((cell.type = .eq ∨ cell.type = .eqx) → ComparesBit cell false) ∧
    ((cell.type = .ne ∨ cell.type = .nex) → ComparesBit cell true)

private theorem sigConst_const {sig : SigSpec} (h : isFullyConst sig = true) :
    sigConst v sig = constBits sig := by
  refine List.map_congr_left (fun b member => ?_)
  have const := List.all_eq_true.mp h b member
  cases b with
  | wire w offset => cases const
  | const s => rfl

private theorem refinesAll_bit {x : Bool} {sig : SigSpec}
    (h : RefinesAll [State.ofBool x] (sigConst v sig)) : sigConst v sig = [State.ofBool x] :=
  h.eq_of_isFullyDef (by cases x <;> rfl)

variable {signal : SigSpec} {inverts : Bool} {cell : Cell} {next : SigSpec}

private theorem comparedWith_bit {invertedBy : Bool} (holds : CellHolds v cell)
    (plain : ComparesBit cell invertedBy) (output : cell.getPort .Y = some signal)
    (h : comparedWith cell invertedBy = some (next, inverts)) {n : Bool}
    (value : sigConst v next = [State.ofBool n]) :
    sigConst v signal = [State.ofBool (n != inverts)] := by
  have one : next.length = 1 := by
    have := congrArg List.length value
    simpa [sigConst_eq] using this
  unfold comparedWith at h
  cases portA : cell.getPort .A with
  | none => simp [portA] at h
  | some a =>
    cases portB : cell.getPort .B with
    | none => simp [portB] at h
    | some b =>
      simp only [portA, portB, bind_eq_bind, bind_some] at h
      have eval := plain a b portA portB n
      cases constA : isFullyConst a with
      | true =>
        simp only [constA, if_true, some.injEq, Prod.mk.injEq] at h
        obtain ⟨rfl, rfl⟩ := h
        have result := holds a signal _ portA output (by
          rw [portB, getD_some, sigConst_const constA, value]
          exact eval.1 constA one)
        exact refinesAll_bit result
      | false =>
        simp only [constA, Bool.false_eq_true, if_false] at h
        split at h
        · rename_i constB
          simp only [some.injEq, Prod.mk.injEq] at h
          obtain ⟨rfl, rfl⟩ := h
          have result := holds a signal _ portA output (by
            rw [portB, getD_some, sigConst_const constB, value]
            exact eval.2 constA constB one)
          exact refinesAll_bit result
        · cases h

private theorem evalCell_one {y : SigSpec} {a b : Const} (one : y.length = 1)
    (portY : PortWidth cell .Y .Y_WIDTH y) :
    evalCell cell a b =
      eval cell.type a b (signedParam cell .A_SIGNED)
        (signedParam cell .B_SIGNED) 1 := by
  obtain ⟨c, value, width⟩ := portY.param
  have len : (param cell .Y_WIDTH).getD (-1) = 1 := by
    simp [param, value, width, one]
  rw [evalCell, len]

/-- A cell of the type passes a bit on, or its inverse. -/
def Buffers (type : CellType) (inverts : Bool) : Prop :=
  ((type = .reduceOr ∨ type = .reduceBool) ∧ inverts = false) ∨
    ((type = .logicNot ∨ type = .not) ∧ inverts = true)

private theorem eval_bit {type : CellType} (n s t : Bool) (b : Const) (h : Buffers type inverts) :
    eval type [State.ofBool n] b s t 1 = some [State.ofBool (n != inverts)] := by
  rcases h with ⟨rfl | rfl, rfl⟩ | ⟨rfl | rfl, rfl⟩ <;>
    cases n <;> cases s <;> cases t <;> rfl

section

variable (checked : check cell = true) (holds : CellHolds v cell) (one : signal.length = 1)
  {n : Bool} (value : sigConst v next = [State.ofBool n])

include checked holds one value

theorem buffer_bit (output : cell.getPort .Y = some signal) (type : Buffers cell.type inverts)
    (portA : cell.getPort .A = some next) : sigConst v signal = [State.ofBool (n != inverts)] := by
  have unary : checkUnary cell = true := by
    unfold check at checked
    rcases type with ⟨h | h, -⟩ | ⟨h | h, -⟩ <;> rwa [h] at checked
  obtain ⟨a, y, shape⟩ := checkUnary_shape unary
  obtain rfl : y = signal := some.inj (shape.portY.connected.symm.trans output)
  have result := holds next y _ portA output (by
    rw [evalCell_one one shape.portY, value, eval_bit n _ _ _ type])
  exact refinesAll_bit result

private theorem drivenFrom_bit (plain : PlainComparison cell)
    (h : drivenFrom signal cell = some (next, inverts)) :
    sigConst v signal = [State.ofBool (n != inverts)] := by
  unfold drivenFrom at h
  split at h
  · rename_i output
    have buffer : ∀ inv, (cell.getPort .A).map (·, inv) = some (next, inverts) →
        Buffers cell.type inv → sigConst v signal = [State.ofBool (n != inverts)] := by
      intro inv found type
      obtain ⟨a, portA, same⟩ := map_eq_some_iff.mp found
      obtain ⟨rfl, rfl⟩ := Prod.mk.inj same
      exact buffer_bit checked holds one value output type portA
    split at h <;> rename_i type
    · exact buffer _ h (.inl ⟨.inl type, rfl⟩)
    · exact buffer _ h (.inl ⟨.inr type, rfl⟩)
    · exact buffer _ h (.inr ⟨.inl type, rfl⟩)
    · exact buffer _ h (.inr ⟨.inr type, rfl⟩)
    · exact comparedWith_bit holds (plain.1 (.inl type)) output h value
    · exact comparedWith_bit holds (plain.1 (.inr type)) output h value
    · exact comparedWith_bit holds (plain.2 (.inl type)) output h value
    · exact comparedWith_bit holds (plain.2 (.inr type)) output h value
    · cases h
  · cases h

end

/-- What is known of the cells of a module. -/
structure Understood (v : Valuation) (cells : List Cell) : Prop where
  checked : ∀ cell ∈ cells, check cell = true
  holds : ∀ cell ∈ cells, CellHolds v cell
  plain : ∀ cell ∈ cells, PlainComparison cell

/-- A signal found by `check_signal` follows the reference signal through the chain of cells. -/
theorem checkSignal_value {cells : List Cell} (known : Understood v cells) {fuel : Nat}
    {ref : SigSpec} {polarity result x : Bool}
    (h : checkSignal cells fuel signal ref polarity = some result)
    (value : sigConst v ref = [State.ofBool x]) :
    sigConst v signal = [State.ofBool ((x == polarity) == result)] := by
  induction fuel generalizing signal polarity with
  | zero =>
    unfold checkSignal at h
    split at h
    · cases h
    · split at h
      · rename_i same
        obtain rfl := some.inj h
        rw [same, value]
        cases x <;> cases polarity <;> rfl
      · cases h
  | succ fuel ih =>
    unfold checkSignal at h
    split at h
    · cases h
    · rename_i one
      split at h
      · rename_i same
        obtain rfl := some.inj h
        rw [same, value]
        cases x <;> cases polarity <;> rfl
      · dsimp only at h
        split at h
        · cases h
        · rename_i next inverts found
          obtain ⟨cell, member, driven⟩ := List.exists_of_findSome?_eq_some found
          rw [drivenFrom_bit (known.checked cell member) (known.holds cell member)
            (by simpa using one) (ih h) (known.plain cell member) driven]
          cases x <;> cases polarity <;> cases inverts <;> cases result <;> rfl

variable {test : SigSpec → Option Bool}

/-- A test of the reset compares with constant bits only, and no case with both of them. -/
structure Decisive (test : SigSpec → Option Bool) (sw : SwitchRule) : Prop where
  patterns : ∀ polarity, test sw.signal = some polarity → ∀ cs ∈ sw.cases, ∀ pattern ∈ cs.compare,
    pattern = [.const .S0] ∨ pattern = [.const .S1]
  oneValue : ∀ polarity, test sw.signal = some polarity → ∀ cs ∈ sw.cases,
    ¬ ([.const .S0] ∈ cs.compare ∧ [.const .S1] ∈ cs.compare)

variable {cs : CaseRule} {polarity : Bool}

private theorem takenAt_iff {value : Bool} :
    takenAt value cs = true ↔ [.const (State.ofBool value)] ∈ cs.compare := by
  simp [takenAt]

/-- Where the selector does not have the value `polarity`, a decisive case matches exactly when it
is not taken at `polarity`. -/
private theorem matches_eq_not_takenAt {signal : SigSpec}
    (inactive : sigConst v signal = [State.ofBool (!polarity)])
    (patterns : ∀ pattern ∈ cs.compare, pattern = [.const .S0] ∨ pattern = [.const .S1])
    (oneValue : ¬ ([.const .S0] ∈ cs.compare ∧ [.const .S1] ∈ cs.compare)) :
    cs.matches v signal = !takenAt polarity cs := by
  rw [CaseRule.matches, hits_eq_takenAt inactive patterns, Bool.eq_iff_iff, Bool.or_eq_true,
    List.isEmpty_iff, takenAt_iff, Bool.not_eq_true', ← Bool.not_eq_true, takenAt_iff]
  constructor
  · rintro (none | other) member
    · simp [none] at member
    · cases polarity with
      | true => exact oneValue ⟨other, member⟩
      | false => exact oneValue ⟨member, other⟩
  · intro absent
    cases compare : cs.compare with
    | nil => exact .inl rfl
    | cons pattern rest =>
      right
      rcases patterns pattern (by simp [compare]) with rfl | rfl <;> cases polarity <;>
        simp [compare, State.ofBool] at absent ⊢

private theorem remainingCase_run {signal : SigSpec} {cases : List CaseRule}
    (inactive : sigConst v signal = [State.ofBool (!polarity)])
    (patterns : ∀ cs ∈ cases, ∀ pattern ∈ cs.compare, pattern = [.const .S0] ∨ pattern = [.const .S1])
    (oneValue : ∀ cs ∈ cases, ¬ ([.const .S0] ∈ cs.compare ∧ [.const .S1] ∈ cs.compare))
    (s : Assigned) :
    choose (CaseRule.matches v []) (CaseRule.exec v) (remainingCase polarity cases) s =
      choose (CaseRule.matches v signal) (CaseRule.exec v) cases s := by
  induction cases with
  | nil => rfl
  | cons cs rest ih =>
    have here := matches_eq_not_takenAt inactive (patterns cs (by simp)) (oneValue cs (by simp))
    have ih := ih (fun c hc => patterns c (by simp [hc])) (fun c hc => oneValue c (by simp [hc]))
    unfold remainingCase at ih ⊢
    cases taken : takenAt polarity cs with
    | true =>
      rw [List.find?_cons_of_neg (by simp [taken]), ih, choose_closed (by simp [here, taken])]
    | false =>
      rw [List.find?_cons_of_pos (by simp [taken])]
      show choose _ _ [({ cs with compare := [] } : CaseRule)] s = _
      rw [choose_open rfl, choose_open (by simp [here, taken]), exec_compare]

variable {step : CaseRule → CaseRule → Prop}

private theorem cleanTop_ends (covers : Covers step) (cs : CaseRule) :
    ∃ result, cleanTop cs = some result ∧ ∀ v, cs.Every (Sound step v) → Rewritten step v cs result := by
  obtain ⟨result, ends⟩ := cleanLoop_ends (fun _ => 1) (cs.size + 1) cs (by omega)
  exact ⟨result.1, by rw [cleanTop, ends, map_some], fun v sound => cleanLoop_keeps covers sound ends⟩

private theorem eliminateConst_eq (cs : CaseRule) :
    eliminateConst test cs = (eliminateSwitches test cs.switches).bind
      (fun switches => cleanTop { cs with switches := switches }) := by
  cases cs
  rfl

variable {sw : SwitchRule}

private theorem eliminateSwitch_none (h : test sw.signal = none) :
    eliminateSwitch test sw = (eliminateCases test sw.cases).map
      (fun cases => { sw with cases := cases }) := by
  cases sw
  rw [eliminateSwitch, h]
  cases eliminateCases test _ <;> rfl

private theorem eliminateSwitch_some (h : test sw.signal = some polarity) :
    eliminateSwitch test sw =
      some { sw with signal := [], cases := remainingCase polarity sw.cases } := by
  cases sw
  rw [eliminateSwitch, h]

/-- With the reset inactive the tests have the other values. -/
def Inactive (v : Valuation) (test : SigSpec → Option Bool) : Prop :=
  ∀ signal polarity, test signal = some polarity → sigConst v signal = [State.ofBool (!polarity)]

/-- With the reset inactive the reduced tree runs as the tree did. -/
def Kept (step : CaseRule → CaseRule → Prop) (test : SigSpec → Option Bool) (cs result : CaseRule) :
    Prop :=
  ∀ v, Inactive v test → cs.Every (Sound step v) → cs.Every (Decisive test) →
    Rewritten step v cs result

private theorem eliminateCases_ends {l : List CaseRule}
    (each : ∀ c ∈ l, ∃ result, eliminateConst test c = some result ∧ Kept step test c result) :
    ∃ result, eliminateCases test l = some result ∧ ∀ v, Inactive v test →
      (∀ c ∈ l, c.Every (Sound step v)) → (∀ c ∈ l, c.Every (Decisive test)) →
      List.Forall₂ (Rewritten step v) l result := by
  induction l with
  | nil => exact ⟨[], by rw [eliminateCases], fun _ _ _ _ => .nil⟩
  | cons c rest ih =>
    obtain ⟨c', done, kept⟩ := each c (by simp)
    obtain ⟨rest', dones, kepts⟩ := ih (fun c'' h => each c'' (by simp [h]))
    refine ⟨c' :: rest', by simp [eliminateCases, done, dones], fun v inactive sound decisive => ?_⟩
    rw [List.forall_mem_cons] at sound decisive
    exact .cons (kept v inactive sound.1 decisive.1) (kepts v inactive sound.2 decisive.2)

theorem remainingCase_keeps (tested : test sw.signal = some polarity) (inactive : Inactive v test)
    (sound : sw.Every (Sound step v)) (decisive : Decisive test sw) :
    Keeps step v sw { sw with signal := [], cases := remainingCase polarity sw.cases } := by
  refine ⟨SwitchRule.every_iff.mpr ⟨?_, ?_⟩, fun s => ?_⟩
  · unfold remainingCase
    cases sw.cases.find? (fun cs => !takenAt polarity cs) with
    | none => exact ⟨by simp [SwitchRule.Checked], True.intro⟩
    | some c =>
      refine ⟨by simp [SwitchRule.Checked], (chosen_open rfl).mpr ⟨fun _ => .inl (.inl rfl), ?_⟩⟩
      exact fun _ _ _ member => absurd member List.not_mem_nil
  · intro c member
    obtain ⟨o, found, rfl⟩ : ∃ o, sw.cases.find? (fun cs => !takenAt polarity cs) = some o ∧
        ({ o with compare := [] } : CaseRule) = c := by
      simpa [remainingCase] using member
    have every := (SwitchRule.every_iff.mp sound).2 o (List.mem_of_find?_eq_some found)
    rw [CaseRule.every_iff] at every ⊢
    exact every
  · rw [SwitchRule.exec_eq, SwitchRule.exec_eq]
    exact remainingCase_run (inactive _ _ tested) (decisive.patterns polarity tested)
      (decisive.oneValue polarity tested) s

private theorem eliminateSwitch_ends
    (each : ∀ c ∈ sw.cases, ∃ result, eliminateConst test c = some result ∧ Kept step test c result) :
    ∃ result, eliminateSwitch test sw = some result ∧ ∀ v, Inactive v test →
      sw.Every (Sound step v) → sw.Every (Decisive test) → Keeps step v sw result := by
  cases tested : test sw.signal with
  | some polarity =>
    exact ⟨_, eliminateSwitch_some tested, fun v inactive sound decisive =>
      remainingCase_keeps tested inactive sound (SwitchRule.every_iff.mp decisive).1⟩
  | none =>
    obtain ⟨result, done, kept⟩ := eliminateCases_ends each
    refine ⟨_, by rw [eliminateSwitch_none tested, done, map_some],
      fun v inactive sound decisive => ?_⟩
    obtain ⟨here, below⟩ := SwitchRule.every_iff.mp sound
    exact rewritten_keeps (kept v inactive below (SwitchRule.every_iff.mp decisive).2) here rfl

private theorem eliminateSwitches_ends {l : List SwitchRule}
    (each : ∀ sw ∈ l, ∀ c ∈ sw.cases, ∃ result, eliminateConst test c = some result ∧
      Kept step test c result) :
    ∃ result, eliminateSwitches test l = some result ∧ ∀ v, Inactive v test →
      (∀ sw ∈ l, sw.Every (Sound step v)) → (∀ sw ∈ l, sw.Every (Decisive test)) →
      (∀ sw ∈ result, sw.Every (Sound step v)) ∧
        ∀ s, execSwitches v result s = execSwitches v l s := by
  induction l with
  | nil => exact ⟨[], by rw [eliminateSwitches], fun _ _ _ _ => ⟨by simp, fun _ => rfl⟩⟩
  | cons sw rest ih =>
    rw [List.forall_mem_cons] at each
    obtain ⟨sw', done, keeps⟩ := eliminateSwitch_ends each.1
    obtain ⟨rest', dones, kepts⟩ := ih each.2
    refine ⟨sw' :: rest', by simp [eliminateSwitches, done, dones],
      fun v inactive sound decisive => ?_⟩
    rw [List.forall_mem_cons] at sound decisive
    have keeps := keeps v inactive sound.1 decisive.1
    obtain ⟨everys, runs⟩ := kepts v inactive sound.2 decisive.2
    refine ⟨List.forall_mem_cons.mpr ⟨keeps.every, everys⟩, fun s => ?_⟩
    rw [execSwitches_cons, execSwitches_cons, keeps.run, runs]

/-- The elimination always ends. With the reset inactive it keeps what the tree assigns. -/
theorem eliminateConst_ends (covers : Covers step)
    (eliminates : ∀ cs result, eliminateConst test cs = some result → step cs result)
    (cs : CaseRule) :
    ∃ result, eliminateConst test cs = some result ∧ Kept step test cs result := by
  induction cs using CaseRule.byCases with
  | step cs ih =>
    obtain ⟨switches, done, kept⟩ := eliminateSwitches_ends ih
    obtain ⟨result, ends, keeps⟩ := cleanTop_ends covers { cs with switches := switches }
    have whole : eliminateConst test cs = some result := by
      rw [eliminateConst_eq, done, bind_some, ends]
    refine ⟨result, whole, fun v inactive sound decisive => ?_⟩
    obtain ⟨everys, runs⟩ :=
      kept v inactive (CaseRule.every_iff.mp sound) (CaseRule.every_iff.mp decisive)
    have cleaned := keeps v (CaseRule.every_iff.mpr everys)
    refine ⟨cleaned.compare, cleaned.every, fun s => ?_, .single (eliminates cs result whole)⟩
    rw [cleaned.run, CaseRule.exec_eq, CaseRule.exec_eq]
    exact runs _

theorem eliminateConst_returns (test : SigSpec → Option Bool) (cs : CaseRule) :
    ∃ result, eliminateConst test cs = some result := by
  have covers : Covers fun _ _ => True := fun _ _ _ => True.intro
  obtain ⟨result, done, -⟩ := eliminateConst_ends covers (fun _ _ _ => True.intro) cs
  exact ⟨result, done⟩

private theorem cleanTop_size {result : CaseRule} (done : cleanTop cs = some result) :
    result.size + (procCleanCase 1 cs).2.didSomething.toNat ≤ cs.size := by
  obtain ⟨r, ends, rfl⟩ := map_eq_some_iff.mp done
  exact cleanLoop_size ends

private theorem remainingCase_size (polarity : Bool) (cases : List CaseRule) :
    caseSizes (remainingCase polarity cases) ≤ caseSizes cases := by
  unfold remainingCase
  cases found : cases.find? (fun cs => !takenAt polarity cs) with
  | none => simp
  | some c =>
    have member := size_of_mem_cases (List.mem_of_find?_eq_some found)
    have same : ({ c with compare := [] } : CaseRule).size = c.size := by
      rw [CaseRule.size_eq, CaseRule.size_eq]
    simp only [map_some, toList_some, caseSizes_cons, caseSizes_nil, same]
    omega

/-- A tested switch that is the only one of the root goes away. -/
theorem eliminateConst_smaller {result : CaseRule} (only : cs.switches = [sw])
    (tested : test sw.signal = some polarity) (done : eliminateConst test cs = some result) :
    result.size < cs.size := by
  rw [eliminateConst_eq, only, eliminateSwitches, eliminateSwitch_some tested] at done
  simp only [bind_eq_bind, bind_some, eliminateSwitches, pure_def] at done
  have top := cleanTop_size done
  have did : (procCleanCase 1 { cs with switches :=
      [{ sw with signal := [], cases := remainingCase polarity sw.cases }] }).2.didSomething = true := by
    unfold remainingCase
    cases sw.cases.find? (fun cs => !takenAt polarity cs) with
    | none => simp [procCleanCase, cleanCase, cleanFirst, SwitchRule.empty, Progress.and]
    | some c =>
      simp [procCleanCase, cleanCase, cleanFirst, SwitchRule.empty, Progress.and, procCleanSwitch,
        pruneSwitch, soleCase?]
  have less := remainingCase_size polarity sw.cases
  rw [did, CaseRule.size_eq { cs with switches := _ }] at top
  rw [CaseRule.size_eq cs, only]
  simp only [switchSizes_cons, switchSizes_nil, SwitchRule.size_eq, Bool.toNat_true] at top ⊢
  omega

end ManticoreFrontend.Passes.ProcArstElim
