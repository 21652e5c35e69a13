/- source: passes/manticore/manticore_writer.cc
   digest: What a read port loads, with the register of a clocked port. -/

import ManticoreFrontend.Writer.MemoryPorts
import ManticoreFrontend.Writer.Translation

namespace ManticoreFrontend.Writer.ReadPorts

open Foundation BitWord Emission MaskedStores Kernel Constants CellTypes Signals CellChecker
open Assembly Generator Denotation Cells CellContracts MemoryCells MemoryAddress MemoryPorts
open Translation

def paramConst (cell : Cell) (p : ParamId) : Const := (cell.getParam p).getD []

theorem getParam_const {cell : Cell} {p : ParamId} (h : ∃ c, cell.getParam p = some c) :
    getParam cell p = pure (paramConst cell p) := by
  obtain ⟨c, value⟩ := h
  rw [getParam_eq value, paramConst, value]
  rfl

structure Controls where
  en : SigBit
  arst : SigBit
  srst : SigBit

structure ReadShape (cell : Cell) (addr data : SigSpec) (ctl : Controls) : Prop where
  portAddr : PortWidth cell .ADDR .ABITS addr
  portData : PortWidth cell .DATA .WIDTH data
  portEn : cell.getPort .EN = some [ctl.en]
  portArst : cell.getPort .ARST = some [ctl.arst]
  portSrst : cell.getPort .SRST = some [ctl.srst]
  clockParam : ∃ c, cell.getParam .CLK_ENABLE = some c
  ceParam : ∃ c, cell.getParam .CE_OVER_SRST = some c
  arstParam : ∃ c, cell.getParam .ARST_VALUE = some c
  srstParam : ∃ c, cell.getParam .SRST_VALUE = some c
  arstLength : (paramConst cell .ARST_VALUE).length = data.length
  srstLength : (paramConst cell .SRST_VALUE).length = data.length

private theorem paramConst_length {cell : Cell} {p : ParamId} {data : SigSpec}
    (portData : PortWidth cell .DATA .WIDTH data) (h : paramBits cell p (param cell .WIDTH) = true) :
    (∃ c, cell.getParam p = some c) ∧ (paramConst cell p).length = data.length := by
  obtain ⟨width, value, length⟩ := portData.param
  rw [param, value, Option.map_some] at h
  obtain ⟨c, found, bits⟩ := paramBits_eq_true h
  refine ⟨⟨c, found⟩, ?_⟩
  rw [paramConst, found, Option.getD_some]
  omega

theorem checkMemrdV2_shape {cell : Cell} (h : checkMemrdV2 cell = true) :
    ∃ addr data ctl, ReadShape cell addr data ctl := by
  simp only [checkMemrdV2, Bool.and_eq_true] at h
  obtain ⟨⟨⟨⟨⟨⟨⟨⟨⟨⟨⟨⟨⟨⟨⟨-, clock⟩, -⟩, -⟩, -⟩, ce⟩, harst⟩, hsrst⟩, -⟩, -⟩, en⟩, arst⟩, srst⟩, haddr⟩,
    hdata⟩, -⟩ := h
  obtain ⟨addr, portAddr⟩ := port_eq_true haddr
  obtain ⟨data, portData⟩ := port_eq_true hdata
  obtain ⟨bitEn, portEn⟩ := port_one en
  obtain ⟨bitArst, portArst⟩ := port_one arst
  obtain ⟨bitSrst, portSrst⟩ := port_one srst
  obtain ⟨arstParam, arstLength⟩ := paramConst_length portData harst
  obtain ⟨srstParam, srstLength⟩ := paramConst_length portData hsrst
  exact ⟨addr, data, ⟨bitEn, bitArst, bitSrst⟩, portAddr, portData, portEn, portArst, portSrst,
    paramBool_eq_true clock, paramBool_eq_true ce, arstParam, srstParam, arstLength, srstLength⟩

variable {v : Valuation} {σ : Name → Word} {P : Prop} {mem : Memory} {cell : Cell}
  {addr data : SigSpec} {ctl : Controls}

section Families

/-- The generator state as a ledger for a family of assignments, in which the initial value
and the names of every register are related by `R`. -/
def runs {ι : Type} (v : ι → Valuation) (σ : ι → Name → Word)
    (R : Option Const → Name × Name → Prop) : Ledger Worker where
  le := Extends
  refl := Extends.refl
  trans := Extends.trans
  Sat st := (∀ k, Satisfies (v k) (σ k) st) ∧ ∀ r ∈ st.regs, R r.init (r.input, r.output)
  mono le sat := ⟨fun k => (sat.1 k).mono le, fun r member => sat.2 r (le.regs member)⟩
  Good st := (∀ k, Caches (v k) (σ k) st) ∧ ∀ e ∈ st.states, R (registerInit e.1) e.2

variable {ι : Type} {v : ι → Valuation} {σ : ι → Name → Word}
  {R : Option Const → Name × Name → Prop} {α : Type} {m : Emit α}

theorem all [Inhabited ι] {Q : ι → α → Prop} (each : ∀ k, Spec (ledger (v k) (σ k)) P m (Q k)) :
    Spec (runs v σ R) P m (fun a => ∀ k, Q k a) := by
  intro s a t run
  have grow : Extends s t := (each default s a t run).1
  refine ⟨grow, fun facts sat good => ?_⟩
  have gives := fun k => (each k s a t run).2 facts (sat.1 k) (good.1 k)
  exact ⟨⟨fun k => (gives k).1, grow.states R sat.2 good.2⟩, fun k => (gives k).2⟩

theorem single {v : Valuation} {σ : Name → Word} {Q : α → Prop}
    (h : Spec (runs (fun _ : Unit => v) (fun _ => σ) (fun _ _ => True)) P m Q) :
    Spec (ledger v σ) P m Q := by
  intro s a t run
  obtain ⟨grow, gives⟩ := h s a t run
  refine ⟨grow, fun facts sat good => ?_⟩
  obtain ⟨good, fact⟩ := gives facts ⟨fun _ => sat, by simp⟩ ⟨fun _ => good, by simp⟩
  exact ⟨good.1 (), fact⟩

theorem getState_runs [Inhabited ι] : Spec (runs v σ R) P (getState cell) (fun p => R (registerInit cell) p ∧
    ∀ k c, cell.getParam .WIDTH = some c →
      (σ k p.1).width = c.asInt.toNat ∧ (σ k p.2).width = c.asInt.toNat) := by
  intro s p t run
  obtain ⟨grow, gives⟩ := all (R := R) (fun k => getState_spec (v := v k) (σ := σ k) (P := P)) s p t run
  refine ⟨grow, fun facts sat good => ?_⟩
  obtain ⟨good', widths⟩ := gives facts sat good
  refine ⟨good', ?_, widths⟩
  rcases getState_cases run with ⟨-, member⟩ | ⟨c, -, -, rfl⟩
  · exact good.2 _ member
  · exact sat.2 ⟨⟨.r, s.wireIndex⟩, c.asInt.toNat, p.1, registerInit cell, p.2⟩ (by simp)

end Families

section Register

variable (v σ cell data ctl)

/-- The next value of the register of a clocked port. The asynchronous reset goes first, the
synchronous one before the enable or under it. -/
def registerNext (current loaded : Word) : Word :=
  if bitVal v ctl.arst then constWord (paramConst cell .ARST_VALUE)
  else if signedParam cell .CE_OVER_SRST then
    if bitVal v ctl.en then
      if bitVal v ctl.srst then constWord (paramConst cell .SRST_VALUE) else loaded
    else current
  else if bitVal v ctl.srst then constWord (paramConst cell .SRST_VALUE)
  else if bitVal v ctl.en then loaded else current

/-- The register of a clocked port that loads the word `loaded`. -/
structure Register (loaded : Word) (current nextState : Name) : Prop where
  output : sigWord v data =
    if bitVal v ctl.arst then constWord (paramConst cell .ARST_VALUE) else σ current
  next : σ nextState = registerNext v cell ctl (σ current) loaded

/-- The word a port reads: its data, or what the register of a clocked port takes. -/
def Reads (loaded : Word) : Prop :=
  if signedParam cell .CLK_ENABLE then
    ∃ current nextState, Register v σ cell data ctl loaded current nextState
  else sigWord v data = loaded

/-- What the branches of `convertReadData` know of the names they are given. -/
structure Prepared (dataName current nextState : Name) : Prop where
  named : Holding v σ data dataName
  widthCurrent : (σ current).width = data.length
  widthNext : (σ nextState).width = data.length

/-- What the branches establish of the name they load. -/
abbrev Registers (current nextState n : Name) : Prop :=
  (σ n).width = data.length ∧ Register v σ cell data ctl (σ n) current nextState

variable {v σ cell data ctl}

/-- The words a port reads in a family of solutions, where the register has one pair of names. -/
def ReadsAll {ι : Type} (v : ι → Valuation) (σ : ι → Name → Word)
    (R : Option Const → Name × Name → Prop) (cell : Cell) (data : SigSpec) (ctl : Controls)
    (loaded : ι → Word) : Prop :=
  if signedParam cell .CLK_ENABLE then ∃ current nextState,
    R (registerInit cell) (current, nextState) ∧
    ∀ k, Register (v k) (σ k) cell data ctl (loaded k) current nextState
  else ∀ k, sigWord (v k) data = loaded k

theorem resized_self {a : Word} {w : Nat} (width : a.width = w) : resized a w = a := by
  subst width
  simp [resized]

theorem mux_word {rd sel rfalse rtrue : Name} {b : Bool} {w : Nat}
    (holds : (Instr.MUX rd sel rfalse rtrue).Holds σ) (select : σ sel = bitWord b)
    (width : (σ rd).width = w) (widthFalse : (σ rfalse).width = w)
    (widthTrue : (σ rtrue).width = w) : σ rd = if b then σ rtrue else σ rfalse := by
  rw [(mux_iff width).mp holds, select, bitWord_val]
  cases b with
  | true => exact resized_self widthTrue
  | false => exact resized_self widthFalse

theorem mov_word {rd rs : Name} {w : Nat} (holds : (Instr.MOV rd rs).Holds σ)
    (width : (σ rd).width = w) (widthSource : (σ rs).width = w) : σ rd = σ rs := by
  rw [(mov_iff width).mp holds, resized_self widthSource]

theorem bitVal_of_fullyOnes {b : SigBit} (h : SigSpec.isFullyOnes [b] = true) : bitVal v b = true := by
  have constant : b = .const .S1 := by simpa [SigSpec.isFullyOnes] using h
  rw [constant]
  rfl

theorem bitVal_of_fullyZero {b : SigBit} (h : SigSpec.isFullyZero [b] = true) :
    bitVal v b = false := by
  have constant : b = .const .S0 := by simpa [SigSpec.isFullyZero] using h
  rw [constant]
  rfl

variable {dataName current nextState : Name}

theorem convertAsyncReset_spec (shape : ReadShape cell addr data ctl)
    (unset : P → bitVal v ctl.srst = false)
    (prepared : P → Prepared v σ data dataName current nextState) :
    Spec (ledger v σ) P (convertAsyncReset cell dataName current nextState [ctl.arst] [ctl.en]
        (!SigSpec.isFullyOnes [ctl.en]) data.length)
      (Registers v σ cell data ctl current nextState) := by
  have resetWidth : (constWord (paramConst cell .ARST_VALUE)).width = data.length := by
    rw [constWord_width, shape.arstLength]
  unfold convertAsyncReset
  rw [getParam_const shape.arstParam]
  refine .bind (temp_spec _) fun loaded => ?_
  refine .bind (convertBit_spec _) fun arst => ?_
  rw [pure_bind]
  refine .bind (constGet_spec _) fun value => ?_
  refine .bind (emit_spec _) fun _ => ?_
  refine Spec.note (F := (σ loaded).width = data.length ∧ sigWord v data =
    if bitVal v ctl.arst then constWord (paramConst cell .ARST_VALUE) else σ current) ?_ ?_
  · rintro ⟨select, word, arstWord, width, facts⟩
    obtain ⟨named, widthCurrent, -⟩ := prepared facts
    refine ⟨width, ?_⟩
    rw [← named.2, mux_word select arstWord named.width widthCurrent (by rw [word, resetWidth]), word]
  · refine Spec.ite (fun _ => ?_) fun constant => ?_
    · refine .bind (temp_spec _) fun enabled => ?_
      refine .bind (convertBit_spec _) fun en => ?_
      refine .bind (emit_spec _) fun _ => ?_
      refine .bind (convertBit_spec _) fun arst' => ?_
      refine .bind (constGet_spec _) fun value' => ?_
      refine Spec.bind (emit_spec _) fun _ => Spec.ret ?_
      rintro ⟨select, word', arstWord', chooses, enWord, widthE, ⟨widthL, output⟩, -, -, -, -, facts⟩
      obtain ⟨named, widthCurrent, widthNext⟩ := prepared facts
      refine ⟨widthL, output, ?_⟩
      rw [mux_word select arstWord' widthNext widthE (by rw [word', resetWidth]), word',
        mux_word chooses enWord widthE widthCurrent widthL, registerNext, unset facts]
      simp
    · have always := bitVal_of_fullyOnes (v := v) (b := ctl.en) (by simpa using constant)
      refine .bind (convertBit_spec _) fun arst' => ?_
      refine .bind (constGet_spec _) fun value' => ?_
      refine Spec.bind (emit_spec _) fun _ => Spec.ret ?_
      rintro ⟨select, word', arstWord', ⟨widthL, output⟩, -, -, -, -, facts⟩
      obtain ⟨named, widthCurrent, widthNext⟩ := prepared facts
      refine ⟨widthL, output, ?_⟩
      rw [mux_word select arstWord' widthNext widthL (by rw [word', resetWidth]), word',
        registerNext, unset facts, always]
      simp

theorem convertSyncReset_spec (shape : ReadShape cell addr data ctl)
    (unset : bitVal v ctl.arst = false)
    (prepared : P → Prepared v σ data dataName current nextState) :
    Spec (ledger v σ) P (convertSyncReset cell dataName current nextState [ctl.srst] [ctl.en]
        (!SigSpec.isFullyOnes [ctl.en]) data.length)
      (Registers v σ cell data ctl current nextState) := by
  have resetWidth : (constWord (paramConst cell .SRST_VALUE)).width = data.length := by
    rw [constWord_width, shape.srstLength]
  have overrides : (paramConst cell .CE_OVER_SRST).asBool = signedParam cell .CE_OVER_SRST := by
    obtain ⟨c, value⟩ := shape.ceParam
    simp [paramConst, signedParam, value]
  unfold convertSyncReset
  rw [getParam_const shape.ceParam, getParam_const shape.srstParam]
  simp only [pure_bind]
  refine .bind (emit_spec _) fun _ => ?_
  refine .bind (temp_spec _) fun loaded => ?_
  refine .bind (convertBit_spec _) fun srst => ?_
  refine .bind (constGet_spec _) fun value => ?_
  refine Spec.note (F := sigWord v data =
    if bitVal v ctl.arst then constWord (paramConst cell .ARST_VALUE) else σ current) ?_ ?_
  · rintro ⟨-, -, -, move, facts⟩
    obtain ⟨named, widthCurrent, -⟩ := prepared facts
    rw [unset, ← named.2, mov_word move named.width widthCurrent]
    simp
  · refine Spec.ite (fun both => ?_) (fun notBoth => Spec.ite (fun dynamic => ?_) (fun constant => ?_))
    · refine .bind (temp_spec _) fun reset => ?_
      refine .bind (emit_spec _) fun _ => ?_
      refine .bind (convertBit_spec _) fun en => ?_
      refine Spec.bind (emit_spec _) fun _ => Spec.ret ?_
      rintro ⟨select, enWord, resets, widthR, output, word, srstWord, widthL, -, facts⟩
      obtain ⟨named, widthCurrent, widthNext⟩ := prepared facts
      refine ⟨widthL, output, ?_⟩
      rw [mux_word select enWord widthNext widthCurrent widthR,
        mux_word resets srstWord widthR widthL (by rw [word, resetWidth]), word, registerNext, unset,
        ← overrides, both.2]
      simp
    · have below : signedParam cell .CE_OVER_SRST = false := by
        rw [← overrides]
        exact Bool.eq_false_iff.mpr fun set => notBoth ⟨dynamic, set⟩
      refine .bind (temp_spec _) fun enabled => ?_
      refine .bind (convertBit_spec _) fun en => ?_
      refine .bind (emit_spec _) fun _ => ?_
      refine Spec.bind (emit_spec _) fun _ => Spec.ret ?_
      rintro ⟨select, chooses, enWord, widthE, output, word, srstWord, widthL, -, facts⟩
      obtain ⟨named, widthCurrent, widthNext⟩ := prepared facts
      refine ⟨widthL, output, ?_⟩
      rw [mux_word select srstWord widthNext widthE (by rw [word, resetWidth]), word,
        mux_word chooses enWord widthE widthCurrent widthL, registerNext, unset, below]
      simp
    · have always := bitVal_of_fullyOnes (v := v) (b := ctl.en) (by simpa using constant)
      refine Spec.bind (emit_spec _) fun _ => Spec.ret ?_
      rintro ⟨select, output, word, srstWord, widthL, -, facts⟩
      obtain ⟨named, widthCurrent, widthNext⟩ := prepared facts
      refine ⟨widthL, output, ?_⟩
      rw [mux_word select srstWord widthNext widthL (by rw [word, resetWidth]), word, registerNext,
        unset, always]
      cases signedParam cell .CE_OVER_SRST <;> simp

theorem convertReadData_runs {ι : Type} [Inhabited ι] {v : ι → Valuation} {σ : ι → Name → Word}
    {R : Option Const → Name × Name → Prop} (shape : ReadShape cell addr data ctl) :
    Spec (runs v σ R) P (convertReadData cell) (fun n =>
      (∀ k, (σ k n).width = data.length) ∧ ReadsAll v σ R cell data ctl (fun k => σ k n)) := by
  have getPort_single : ∀ {name : PortId} {b : SigBit}, cell.getPort name = some [b] →
      getPort cell name = pure [b] := by
    intro name b connected
    rw [getPort, connected]
    rfl
  unfold convertReadData
  rw [getBool_eq shape.clockParam, convertPort_eq shape.portData, getPort_single shape.portArst,
    getPort_single shape.portSrst, getPort_single shape.portEn, getWidth_eq shape.portData]
  simp only [pure_bind]
  refine .bind (all fun k => convert_spec shape.portData) fun dataName => ?_
  refine Spec.ite (fun clocked => ?_) fun free => ?_
  · refine .bind getState_runs fun p => ?_
    obtain ⟨current, nextState⟩ := p
    refine (all (Q := fun k => Registers (v k) (σ k) cell data ctl current nextState)
      fun k => ?_).weaken id ?_
    rotate_left
    · rintro n ⟨⟨related, -⟩, -⟩ registers
      refine ⟨fun k => (registers k).1, ?_⟩
      rw [ReadsAll, if_pos clocked]
      exact ⟨current, nextState, related, fun k => (registers k).2⟩
    refine Spec.note (F := Prepared (v k) (σ k) data dataName current nextState) ?_ ?_
    · rintro ⟨⟨-, widths⟩, named, -⟩
      obtain ⟨c, param, length⟩ := shape.portData.param
      obtain ⟨widthCurrent, widthNext⟩ := widths k c param
      rw [length, Int.toNat_natCast] at widthCurrent widthNext
      exact ⟨named k, widthCurrent, widthNext⟩
    · refine .bind Spec.assert fun _ => ?_
      refine Spec.ite (fun hasArst => ?_) fun noArst => ?_
      · refine Spec.note (F := bitVal (v k) ctl.srst = false) ?_ ?_
        · rintro ⟨single, -⟩
          refine bitVal_of_fullyZero ?_
          simpa [hasArst] using single
        · exact convertAsyncReset_spec shape And.left fun facts => facts.2.2.1
      · have unset : bitVal (v k) ctl.arst = false := bitVal_of_fullyZero (by simpa using noArst)
        refine Spec.ite (fun hasSrst => ?_) fun noSrst => ?_
        · exact convertSyncReset_spec shape unset fun facts => facts.2.1
        · have unset' : bitVal (v k) ctl.srst = false := bitVal_of_fullyZero (by simpa using noSrst)
          refine Spec.ite (fun dynamic => ?_) fun constant => ?_
          · refine .bind (emit_spec _) fun _ => ?_
            refine .bind (temp_spec _) fun loaded => ?_
            refine .bind (convertBit_spec _) fun en => ?_
            refine Spec.bind (emit_spec _) fun _ => Spec.ret ?_
            rintro ⟨select, enWord, widthL, move, -, ⟨named, widthCurrent, widthNext⟩, -⟩
            refine ⟨widthL, ?_, ?_⟩
            · rw [← named.2, mov_word move named.width widthCurrent, unset]
              simp
            · rw [mux_word select enWord widthNext widthCurrent widthL, registerNext, unset, unset']
              cases signedParam cell .CE_OVER_SRST <;> simp
          · have always := bitVal_of_fullyOnes (v := v k) (b := ctl.en) (by simpa using constant)
            refine Spec.bind (emit_spec _) fun _ => Spec.ret ?_
            rintro ⟨move, -, ⟨named, widthCurrent, widthNext⟩, -⟩
            -- without an enable the register itself is loaded
            refine ⟨widthNext, ?_, ?_⟩
            · rw [← named.2, mov_word move named.width widthCurrent, unset]
              simp
            · rw [registerNext, unset, unset', always]
              cases signedParam cell .CE_OVER_SRST <;> simp
  · refine .bind Spec.assert fun _ => ?_
    refine .bind Spec.assert fun _ => ?_
    refine Spec.bind Spec.assert fun _ => Spec.ret ?_
    rintro ⟨-, -, -, named, -⟩
    refine ⟨fun k => (named k).width, ?_⟩
    rw [ReadsAll, if_neg free]
    exact fun k => (named k).2.symm

end Register

variable (v σ mem cell addr data ctl)

/-- The word an access reads: the word it hits, and zero when the bound check fails. -/
def emittedRead (m : Contents mem.width) : BitVec mem.width :=
  (hit mem addr.length (sigWord v addr).val).elim 0#_ m

structure ReadCode (order : Nat) (i : MemInstr) : Prop where
  isLoad : i.isStore = false
  number : i.order = order
  reads : ∀ m : Contents mem.width, i.Loads σ m →
    Reads v σ cell data ctl ⟨mem.width, emittedRead v mem addr m⟩

variable {v σ mem cell addr data ctl}

theorem ReadShape.width_eq {c : Const} (shape : ReadShape cell addr data ctl)
    (param : cell.getParam .WIDTH = some c) (width : c.asInt = mem.width) :
    data.length = mem.width := by
  obtain ⟨c', value, length⟩ := shape.portData.param
  obtain rfl := Option.some.inj (param.symm.trans value)
  omega

private theorem load_word {rd addrName memName : Name} {order : Nat} {m : Contents mem.width}
    (address : AddressOf v σ mem addr addrName) (width : (σ rd).width = mem.width)
    (loads : (MemInstr.LLD rd addrName memName order).Loads σ m) :
    σ rd = ⟨mem.width, m (accessed v mem addr)⟩ := by
  rw [MemInstr.Loads, width, address.2] at loads
  rw [loads]
  exact resized_self rfl

variable {writePortOrder : List Nat}

theorem convertRead_runs {ι : Type} [Inhabited ι] {v : ι → Valuation} {σ : ι → Name → Word}
    {R : Option Const → Name × Name → Prop} {memName : Name} (sized : Sized mem)
    (shape : ReadShape cell addr data ctl) :
    Spec (runs v σ R) P (convertRead mem memName writePortOrder cell)
      (fun i => data.length = mem.width ∧ ∃ mask order, cell.getParam .TRANSPARENCY_MASK = some mask ∧
        transparentOrder writePortOrder mask 0 0 = some order ∧ i.isStore = false ∧ i.order = order ∧
        ∀ m : ι → Contents mem.width, (∀ k, i.Loads (σ k) (m k)) → ReadsAll v σ R cell data ctl
          (fun k => ⟨mem.width, emittedRead (v k) mem addr (m k)⟩)) := by
  unfold convertRead
  rw [getWidth_eq shape.portAddr, getPort_eq shape.portAddr, getWidth_eq shape.portData]
  simp only [pure_bind]
  refine .bind Spec.lift fun mask => ?_
  refine .bind Spec.lift fun order => ?_
  refine .bind Spec.lift fun collision => ?_
  refine .bind Spec.assert fun _ => ?_
  refine .bind Spec.lift fun width => ?_
  refine .bind Spec.assert fun _ => ?_
  refine .bind (all fun k => addrFromLowerBound_spec shape.portAddr) fun addrName => ?_
  refine .bind (convertReadData_runs shape) fun rdata => ?_
  refine Spec.note (F := data.length = mem.width)
    (fun facts => shape.width_eq facts.2.2.2.1 facts.2.2.1) ?_
  refine Spec.ite (fun free => Spec.ret ?_) fun checks => ?_
  · rintro ⟨length, ⟨widthR, reads⟩, address, -, -, -, -, ordered, found, -⟩
    refine ⟨length, mask, order, found, ordered, rfl, rfl, fun m loads => ?_⟩
    have word := fun k => load_word (address k) ((widthR k).trans length) (loads k)
    rw [funext word] at reads
    simpa [emittedRead, hit, passes, free] using reads
  · refine .bind (all fun k => temp_spec _) fun raw => ?_
    refine .bind (all fun k => createBoundOk_spec sized (fun facts => facts.2.2.2.1 k)) fun ok => ?_
    refine .bind (all fun k => constGet_spec _) fun zero => ?_
    refine Spec.bind (all fun k => emit_spec _) (fun _ => Spec.ret ?_)
    rintro ⟨select, zeroWord, bound, widthRaw, length, ⟨widthR, reads⟩, address, -, -, -, -, ordered,
      found, -⟩
    refine ⟨length, mask, order, found, ordered, rfl, rfl, fun m loads => ?_⟩
    have checked : hasUpperBoundCheck mem addr.length = true := by simpa using checks
    have value : ∀ k, σ k rdata = ⟨mem.width, emittedRead (v k) mem addr (m k)⟩ := by
      intro k
      have word := load_word (address k) ((widthRaw k).trans length) (loads k)
      have zero_eq : σ k zero = ⟨mem.width, 0#_⟩ := by
        rw [zeroWord k, constWord_ofInt, length]
        simp
      rw [mux_word (select k) (bound k) ((widthR k).trans length) (by rw [zero_eq]) (by rw [word]), word,
        zero_eq]
      by_cases inside : accessed (v k) mem addr < mem.size <;>
        simp [emittedRead, hit, passes, checked, inside]
    rwa [funext value] at reads

theorem convertRead_spec {memName : Name} (sized : Sized mem)
    (shape : ReadShape cell addr data ctl) :
    Spec (ledger v σ) P (convertRead mem memName writePortOrder cell)
      (fun i => data.length = mem.width ∧ ∃ mask order, cell.getParam .TRANSPARENCY_MASK = some mask ∧
        transparentOrder writePortOrder mask 0 0 = some order ∧
        ReadCode v σ mem cell addr data ctl order i) := by
  refine single ((convertRead_runs sized shape).weaken id ?_)
  rintro i - ⟨length, mask, order, found, ordered, isLoad, number, reads⟩
  refine ⟨length, mask, order, found, ordered, isLoad, number, fun m loads => ?_⟩
  simpa [Reads, ReadsAll] using reads (fun _ => m) (fun _ => loads)

end ManticoreFrontend.Writer.ReadPorts
