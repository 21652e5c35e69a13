/- source: passes/manticore/manticore_writer.cc
   digest: Each write port emits one masked store, each read port a load of the word it hits. -/

import ManticoreFrontend.Writer.CellContracts
import ManticoreFrontend.Writer.MemoryAddress

namespace ManticoreFrontend.Writer.MemoryPorts

open Foundation BitWord Emission MaskedStores Kernel Constants CellTypes Signals SigTools
open CellChecker Passes.Repeats Assembly Generator Denotation Layout CellContracts
open MemoryCells MemoryAddress List

variable {cell : Cell}

structure WriteShape (cell : Cell) (en addr data : SigSpec) : Prop where
  portEn : PortWidth cell .EN .WIDTH en
  portAddr : PortWidth cell .ADDR .ABITS addr
  portData : PortWidth cell .DATA .WIDTH data
  clockParam : ∃ c, cell.getParam .CLK_ENABLE = some c

theorem checkMemwrV2_shape (h : checkMemwrV2 cell = true) :
    ∃ en addr data, WriteShape cell en addr data := by
  simp only [checkMemwrV2, Bool.and_eq_true] at h
  obtain ⟨⟨⟨⟨⟨⟨⟨⟨⟨-, clock⟩, -⟩, -⟩, -⟩, -⟩, hen⟩, haddr⟩, hdata⟩, -⟩ := h
  obtain ⟨en, portEn⟩ := port_eq_true hen
  obtain ⟨addr, portAddr⟩ := port_eq_true haddr
  obtain ⟨data, portData⟩ := port_eq_true hdata
  exact ⟨en, addr, data, portEn, portAddr, portData, paramBool_eq_true clock⟩

variable {v : Valuation} {σ : Name → Word} {P : Prop} {mem : Memory} {en addr data : SigSpec}

theorem sigWord_single (v : Valuation) (b : SigBit) : sigWord v [b] = bitWord (bitVal v b) := by
  apply Word.eq_of_bit
  · rfl
  · intro i hi
    obtain rfl : i = 0 := by
      simp only [sigWord_width, length_singleton] at hi
      omega
    rw [sigWord, Word.ofBools_bit]
    simp [bitWord, Word.bit, boolBits]

theorem convertBit_spec (b : SigBit) :
    Spec (ledger v σ) P (convertSig [b]) (fun n => σ n = bitWord (bitVal v b)) := by
  refine (convertSig_spec [b]).weaken id fun n _ named => ?_
  rw [named.2 (by simp [intLimit]), sigWord_single]

/-- A name for the real address of an access at `addr`. -/
def AddressOf (v : Valuation) (σ : Name → Word) (mem : Memory) (addr : SigSpec) (n : Name) : Prop :=
  (σ n).width = addr.length ∧ (σ n).val = realAddr mem addr.length (sigWord v addr).val

theorem sigWord_val_lt (v : Valuation) (sig : SigSpec) : (sigWord v sig).val < 2 ^ sig.length := by
  have bound : (sigWord v sig).val < 2 ^ (sigWord v sig).width := (sigWord v sig).bits.isLt
  rwa [sigWord_width] at bound

theorem addrFromLowerBound_spec {width : ParamId} (port : PortWidth cell .ADDR width addr) :
    Spec (ledger v σ) P (addrFromLowerBound mem cell) (AddressOf v σ mem addr) := by
  rw [addrFromLowerBound, getPort_eq port, pure_bind]
  refine .bind (convert_spec port) fun cellAddr => ?_
  refine Spec.ite (fun shifted => ?_) fun start => ?_
  · refine .bind (temp_spec _) fun real => ?_
    refine .bind (constGet_spec _) fun offset => ?_
    refine Spec.bind (emit_spec _) fun _ => Spec.ret ?_
    rintro ⟨holds, offsetWord, width, named, -⟩
    refine ⟨width, ?_⟩
    rw [(alu_iff width).mp holds, offsetWord, constWord_ofInt, named.2]
    exact sub_toNat_eq_realAddr mem _ _
  · refine Spec.ret ?_
    rintro ⟨named, -⟩
    refine ⟨named.width, ?_⟩
    have zero : mem.startOffset = 0 := not_not.mp start
    have fits := sigWord_val_lt v addr
    rw [named.2, realAddr_of_le (by omega) fits, zero, Nat.sub_zero]

theorem createBoundOk_spec {real : Name} (sized : Sized mem)
    (address : P → AddressOf v σ mem addr real) :
    Spec (ledger v σ) P (createBoundOk mem real addr.length)
      (fun n => σ n = bitWord (decide (realAddr mem addr.length (sigWord v addr).val < mem.size))) := by
  refine .bind (temp_spec _) fun padded => ?_
  refine .bind (temp_spec 1) fun boundOk => ?_
  refine .bind (emit_spec _) fun _ => ?_
  refine .bind (constGet_spec _) fun size => ?_
  refine Spec.bind (emit_spec _) fun _ => Spec.ret ?_
  rintro ⟨less, sizeWord, pad, boundWidth, paddedWidth, facts⟩
  obtain ⟨-, value⟩ := address facts
  have real_lt : (σ real).val < 2 ^ (max addr.length (memAddrBits mem) + 1) := by
    rw [value]
    refine (realAddr_lt mem addr.length _).trans_le (Nat.pow_le_pow_right (by omega) ?_)
    omega
  have paddedVal : (σ padded).val = realAddr mem addr.length (sigWord v addr).val := by
    rw [(padzero_iff paddedWidth).mp pad, ← value]
    simp only [resized, Word.val, BitVec.setWidth_eq, BitVec.toNat_setWidth]
    exact Nat.mod_eq_of_lt real_lt
  have sizeVal : (σ size).val = mem.size := by
    rw [sizeWord, constWord_ofInt, Word.val, BitVec.ofInt_natCast, BitVec.toNat_ofNat]
    exact Nat.mod_eq_of_lt (size_lt_pow sized _)
  refine alu_bitWord less boundWidth ?_
  simp only [aluBits, paddedVal, sizeVal, boolBits]

theorem checkedPredicate_spec {real pred : Name} {b : Bool} (sized : Sized mem)
    (port : PortWidth cell .ADDR .ABITS addr) (address : P → AddressOf v σ mem addr real)
    (enabled : P → σ pred = bitWord b) :
    Spec (ledger v σ) P (checkedPredicate mem cell real addr.length pred)
      (fun n => σ n = bitWord (b && passes mem addr.length
        (realAddr mem addr.length (sigWord v addr).val))) := by
  rw [checkedPredicate, getPort_eq port, pure_bind]
  refine Spec.ite (fun checks => ?_) fun free => ?_
  · refine .bind (createBoundOk_spec sized address) fun boundOk => ?_
    refine .bind (temp_spec 1) fun checked => ?_
    refine Spec.bind (emit_spec _) fun _ => Spec.ret ?_
    rintro ⟨both, width, bound, facts⟩
    refine alu_bitWord both width ?_
    rw [enabled facts, bound, and_bits, passes, checks]
    rfl
  · refine Spec.ret fun facts => ?_
    rw [enabled facts, passes, Bool.eq_false_iff.mpr free]
    simp

variable {w : Nat}

def runMask (w : Nat) (p : RepeatPattern) : BitVec w := (BitVec.allOnes p.width).setWidth w <<< p.offset

theorem runMask_getLsbD (p : RepeatPattern) {i : Nat} (h : i < w) :
    (runMask w p).getLsbD i = decide (p.offset ≤ i ∧ i < p.offset + p.width) := by
  rw [runMask, BitVec.getLsbD_shiftLeft, BitVec.getLsbD_setWidth, BitVec.getLsbD_allOnes]
  by_cases low : i < p.offset
  · simp [low]
  · have inside : i - p.offset < w := by omega
    have equal : (i - p.offset < p.width) ↔ (i < p.offset + p.width) := by omega
    simp [h, inside, Nat.le_of_not_lt low, equal]

theorem constWord_createMask (p : RepeatPattern) (b : Bool) :
    constWord (createMask w p b) = ⟨w, if b then runMask w p else ~~~ runMask w p⟩ := by
  apply Word.eq_of_bit
  · simp [createMask]
  · intro i hi
    have inside : i < w := by simpa [createMask] using hi
    have bit : (constWord (createMask w p b)).bit i =
        if p.offset ≤ i ∧ i < p.offset + p.width then b else !b := by
      rw [constWord, Word.ofBools_bit]
      simp only [createMask, map_map, getD, getElem?_map, getElem?_range inside,
        Option.map_some, Option.getD_some, Function.comp_apply]
      split <;> cases b <;> rfl
    rw [bit]
    have value := runMask_getLsbD p inside
    cases b with
    | true =>
      simp only [Word.bit, if_true, value]
      split <;> simp [*]
    | false =>
      simp only [Word.bit, Bool.false_eq_true, if_false, BitVec.getLsbD_not, value, inside]
      split <;> simp [*]

variable (v)

def lastEnabled (runs : List RepeatPattern) : Option RepeatPattern :=
  (runs.filter (fun p => bitVal v p.bit)).getLast?

def lastMask (w : Nat) (runs : List RepeatPattern) : BitVec w :=
  match lastEnabled v runs with
  | some p => runMask w p
  | none => 0#w

theorem lastEnabled_cons (p : RepeatPattern) (runs : List RepeatPattern) :
    lastEnabled v (p :: runs) =
      (lastEnabled v runs).or (if bitVal v p.bit then some p else none) := by
  cases enabled : bitVal v p.bit with
  | true =>
    have kept : (p :: runs).filter (fun p => bitVal v p.bit) =
        p :: runs.filter (fun p => bitVal v p.bit) := by simp [enabled]
    rw [lastEnabled, kept, getLast?_cons, if_pos rfl, lastEnabled]
    cases (runs.filter (fun p => bitVal v p.bit)).getLast? <;> rfl
  | false => simp [lastEnabled, enabled]

/-- A store instruction that puts `word` at the index `x` when `b` holds. -/
structure StoresAt (σ : Name → Word) (b : Bool) (x : Nat) (word : BitVec w) (i : MemInstr) : Prop where
  isStore : i.isStore = true
  step : ∀ m : Contents w, i.step σ m = if b then Function.update m x word else m

theorem StoresAt.lst {rs addrName pred memName : Name} {order x : Nat} {b : Bool} {word : BitVec w}
    (predicate : σ pred = bitWord b) (address : (σ addrName).val = x)
    (value : (σ rs).bits.setWidth w = word) :
    StoresAt σ b x word (.LST rs addrName pred memName order) := by
  constructor
  · rfl
  · intro m
    have zero : (σ pred).val = 0 ↔ b = false := by
      rw [predicate, bitWord_val]
      cases b <;> simp
    rw [MemInstr.step, address, value]
    cases b <;> simp [zero]

/-- The index an access computes, whether or not the bound check passes. -/
abbrev accessed (mem : Memory) (addr : SigSpec) : Nat :=
  realAddr mem addr.length (sigWord v addr).val

def offered (mem : Memory) (data : SigSpec) : BitVec mem.width :=
  (sigWord v data).bits.setWidth mem.width

variable {v} {addrName memName : Name} {order : Nat}

theorem storeFull_spec (sized : Sized mem) (shape : WriteShape cell en addr data) (bit : SigBit)
    (address : P → AddressOf v σ mem addr addrName) :
    Spec (ledger v σ) P (storeFull mem memName cell addrName addr.length bit order)
      (fun r => ∃ i, r = ([i], order + 1) ∧ i.order = order ∧
        StoresAt σ (bitVal v bit && passes mem addr.length (accessed v mem addr))
          (accessed v mem addr) (offered v mem data) i) := by
  unfold storeFull
  rw [convertPort_eq shape.portData]
  refine .bind (convertBit_spec bit) fun pred => ?_
  refine .bind (convert_spec shape.portData) fun wdata => ?_
  refine Spec.bind (checkedPredicate_spec sized shape.portAddr (fun facts => address facts.2.2)
    (fun facts => facts.2.1)) (fun checked => Spec.ret ?_)
  rintro ⟨checkedWord, named, -, facts⟩
  refine ⟨_, rfl, rfl, StoresAt.lst checkedWord (address facts).2 ?_⟩
  rw [named.2, offered]

variable {originalValue writeWord : Name}

theorem storePart_spec (sized : Sized mem)
    (shape : WriteShape cell en addr data) (p : RepeatPattern)
    (address : P → AddressOf v σ mem addr addrName) (offer : P → Holding v σ data writeWord) :
    Spec (ledger v σ) P
      (storePart mem memName cell addrName addr.length originalValue writeWord p order)
      (fun i => i.order = order ∧
        StoresAt σ (bitVal v p.bit && passes mem addr.length (accessed v mem addr))
          (accessed v mem addr)
          (blend (runMask mem.width p) (offered v mem data)
            ((σ originalValue).bits.setWidth mem.width)) i) := by
  refine .bind (temp_spec _) fun wdata => ?_
  refine .bind (temp_spec _) fun rdata => ?_
  refine .bind (constGet_spec _) fun storeMask => ?_
  refine .bind (emit_spec _) fun _ => ?_
  refine .bind (constGet_spec _) fun loadMask => ?_
  refine .bind (emit_spec _) fun _ => ?_
  refine .bind (temp_spec _) fun combined => ?_
  refine .bind (emit_spec _) fun _ => ?_
  refine .bind (convertBit_spec p.bit) fun pred => ?_
  refine Spec.bind (checkedPredicate_spec sized shape.portAddr
    (fun facts => address facts.2.2.2.2.2.2.2.2.2) (fun facts => facts.1)) (fun checked => Spec.ret ?_)
  rintro ⟨checkedWord, -, joined, widthC, masked, loadWord, kept, storeWord, widthR, widthW, facts⟩
  have new : σ wdata = ⟨mem.width, offered v mem data &&& runMask mem.width p⟩ := by
    rw [(alu_iff widthW).mp kept, storeWord, constWord_createMask, (offer facts).2]
    simp [aluBits, offered]
  have old : σ rdata = ⟨mem.width, (σ originalValue).bits.setWidth mem.width &&&
      ~~~ runMask mem.width p⟩ := by
    rw [(alu_iff widthR).mp masked, loadWord, constWord_createMask]
    simp [aluBits]
  refine ⟨rfl, StoresAt.lst checkedWord (address facts).2 ?_⟩
  rw [(alu_iff widthC).mp joined, new, old]
  simp [aluBits, blend]

variable {p : RepeatPattern} {sigmap : SigMap}

theorem bitVal_of_not_stores (h : stores p = false) : bitVal v p.bit = false := by
  obtain ⟨bit, width, offset⟩ := p
  cases bit with
  | const s =>
    simp only [stores, SigBit.isWire, Bool.false_or, beq_eq_false_iff_ne, ne_eq,
      SigBit.const.injEq] at h
    simpa [bitVal] using h
  | wire => simp [stores, SigBit.isWire] at h

/-- The stores of the runs. Each puts its run into the word that was loaded before all of them, so
the last enabled one wins. -/
structure Parts (v : Valuation) (σ : Name → Word) (b : Bool) (x : Nat) (new old : BitVec w)
    (runs : List RepeatPattern) (order : Nat) (r : List MemInstr × Nat) : Prop where
  isStore : ∀ i ∈ r.1, i.isStore = true
  orders : r.1.map MemInstr.order = List.range' order r.1.length
  next : r.2 = order + r.1.length
  run : ∀ m : Contents w, MemInstr.run σ m r.1 =
    match lastEnabled v runs with
    | some p => if b then Function.update m x (blend (runMask w p) new old) else m
    | none => m

theorem storeParts_spec (sized : Sized mem)
    (shape : WriteShape cell en addr data) (runs : List RepeatPattern) (order : Nat)
    (address : P → AddressOf v σ mem addr addrName) (offer : P → Holding v σ data writeWord) :
    Spec (ledger v σ) P
      (storeParts mem memName cell addrName addr.length originalValue writeWord runs order)
      (Parts v σ (passes mem addr.length (accessed v mem addr)) (accessed v mem addr)
        (offered v mem data) ((σ originalValue).bits.setWidth mem.width) runs order) := by
  induction runs generalizing order P with
  | nil => exact Spec.ret (fun _ => ⟨by simp, by simp, by simp, fun m => rfl⟩)
  | cons p runs ih =>
    refine Spec.ite (fun _ => ?_) fun skipped => ?_
    · refine .bind (storePart_spec sized shape p address offer) fun i => ?_
      refine Spec.bind (ih (order + 1) (fun facts => address facts.2) (fun facts => offer facts.2))
        (fun r => Spec.ret ?_)
      rintro ⟨rest, ⟨number, store⟩, -⟩
      constructor
      · exact forall_mem_cons.mpr ⟨store.isStore, rest.isStore⟩
      · simp [number, rest.orders, range'_succ]
      · simp only [rest.next, length_cons]
        omega
      · intro m
        -- a later store overwrites the whole word
        rw [MemInstr.run_cons, store.step, rest.run, lastEnabled_cons]
        cases lastEnabled v runs with
        | some q =>
          cases bitVal v p.bit <;> cases passes mem addr.length (accessed v mem addr) <;> simp
        | none => cases bitVal v p.bit <;> simp
    · have silent := bitVal_of_not_stores (v := v) (Bool.eq_false_iff.mpr skipped)
      refine (ih order address offer).weaken id fun r _ rest => ?_
      refine ⟨rest.isStore, rest.orders, rest.next, fun m => ?_⟩
      rw [rest.run, lastEnabled_cons, silent]
      simp

variable (v σ mem addr data)

/-- The masked store that the code of a write port amounts to. -/
def emittedStore (runs : List RepeatPattern) : Store mem.width where
  target := hit mem addr.length (sigWord v addr).val
  mask := lastMask v mem.width runs
  data := offered v mem data

/-- The code of one write port, numbered from `order` on: a store, or a load followed by stores. -/
structure PortCode (runs : List RepeatPattern) (order : Nat) (code : List MemInstr) : Prop where
  orders : code.map MemInstr.order = List.range' order code.length
  first : ∃ i rest, code = i :: rest ∧ (i.isStore = true ↔ runs.length = 1) ∧
    (runs.length = 1 → rest = [])
  effect : ∀ m : Contents mem.width, MemInstr.Executes σ m code →
    MemInstr.run σ m code = (emittedStore v mem addr data runs).apply m

theorem emittedStore_apply (runs : List RepeatPattern) (m : Contents mem.width) :
    (emittedStore v mem addr data runs).apply m =
      match lastEnabled v runs with
      | some p =>
        if passes mem addr.length (accessed v mem addr) then
          Function.update m (accessed v mem addr)
            (blend (runMask mem.width p) (offered v mem data) (m (accessed v mem addr)))
        else m
      | none => m := by
  simp only [emittedStore, Store.apply, hit, lastMask]
  cases lastEnabled v runs <;> cases passes mem addr.length (accessed v mem addr) <;>
    simp [blend_zero]

variable {v σ mem addr data}

theorem storeStrobed_spec (sized : Sized mem) (shape : WriteShape cell en addr data)
    {runs : List RepeatPattern} (several : runs.length ≠ 1)
    (address : P → AddressOf v σ mem addr addrName) :
    Spec (ledger v σ) P (storeStrobed mem memName cell addrName addr.length runs order)
      (fun r => PortCode v σ mem addr data runs order r.1 ∧ r.2 = order + r.1.length) := by
  unfold storeStrobed
  rw [convertPort_eq shape.portData]
  refine .bind (temp_spec _) fun originalValue => ?_
  refine .bind (convert_spec shape.portData) fun writeWord => ?_
  refine Spec.bind (storeParts_spec sized shape runs (order + 1)
    (fun facts => address facts.2.2) (fun facts => facts.1)) (fun parts => Spec.ret ?_)
  rintro ⟨stores, -, width, facts⟩
  obtain ⟨-, real⟩ := address facts
  refine ⟨⟨?_, ⟨_, _, rfl, ?_, fun one => absurd one several⟩, ?_⟩, ?_⟩
  · simp [MemInstr.order, stores.orders, range'_succ]
  · simp [MemInstr.isStore, several]
  · intro m executes
    have loaded : (σ originalValue).bits.setWidth mem.width = m (accessed v mem addr) := by
      have load : σ originalValue = resized ⟨mem.width, m (σ addrName).val⟩ mem.width := by
        have := executes.1
        rwa [MemInstr.Loads, width] at this
      rw [load, real]
      simp [resized]
    rw [MemInstr.run_cons, MemInstr.step, stores.run, loaded, emittedStore_apply]
  · simp only [stores.next, length_cons]
    omega

theorem runMask_single (repeats : getRepeats en sigmap = some [p]) :
    runMask en.length p = BitVec.allOnes en.length := by
  have tiles := getRepeats_tiles repeats
  apply BitVec.eq_of_getLsbD_eq
  intro i hi
  obtain ⟨r, member, range⟩ := tiles.covered (Nat.zero_le i) (by simpa using hi)
  obtain rfl := mem_singleton.mp member
  rw [runMask_getLsbD r hi, BitVec.getLsbD_allOnes]
  simp [range, hi]

theorem storeFull_portCode {i : MemInstr} (width : en.length = mem.width)
    (repeats : getRepeats en sigmap = some [p]) (number : i.order = order)
    (store : StoresAt σ (bitVal v p.bit && passes mem addr.length (accessed v mem addr))
      (accessed v mem addr) (offered v mem data) i) :
    PortCode v σ mem addr data [p] order [i] := by
  refine ⟨by simp [number], ⟨i, [], rfl, by simp [store.isStore], fun _ => rfl⟩, fun m _ => ?_⟩
  have full : runMask mem.width p = BitVec.allOnes mem.width := by
    rw [← width]
    exact runMask_single repeats
  rw [MemInstr.run_cons, MemInstr.run_nil, store.step, emittedStore_apply, lastEnabled_cons]
  cases bitVal v p.bit <;> cases passes mem addr.length (accessed v mem addr) <;>
    simp [lastEnabled, full, blend_allOnes]

theorem WriteShape.width_eq {c : Const} (shape : WriteShape cell en addr data)
    (param : cell.getParam .WIDTH = some c) (width : c.asInt = mem.width) :
    en.length = mem.width ∧ data.length = mem.width := by
  obtain ⟨c', value, lengthEn⟩ := shape.portEn.param
  obtain ⟨c'', value', lengthData⟩ := shape.portData.param
  obtain rfl := Option.some.inj (param.symm.trans value)
  obtain rfl := Option.some.inj (param.symm.trans value')
  omega

theorem convertWrite_spec (sized : Sized mem) (shape : WriteShape cell en addr data) :
    Spec (ledger v σ) P (convertWrite sigmap mem memName cell order)
      (fun r => en.length = mem.width ∧ data.length = mem.width ∧
        ∃ runs, getRepeats en sigmap = some runs ∧
          PortCode v σ mem addr data runs order r.1 ∧ r.2 = order + r.1.length) := by
  unfold convertWrite
  rw [getBool_eq shape.clockParam, getWidth_eq shape.portAddr, getPort_eq shape.portEn]
  simp only [pure_bind]
  refine .bind Spec.assert fun _ => ?_
  refine .bind Spec.lift fun width => ?_
  refine .bind Spec.assert fun _ => ?_
  refine .bind Spec.lift fun runs => ?_
  refine .bind (addrFromLowerBound_spec shape.portAddr) fun addrName => ?_
  refine Spec.note (F := en.length = mem.width ∧ data.length = mem.width)
    (fun facts => shape.width_eq facts.2.2.2.1 facts.2.2.1) ?_
  split
  · rename_i p
    refine (storeFull_spec sized shape p.bit (fun facts => facts.2.1)).weaken id ?_
    rintro r ⟨⟨widthEn, widthData⟩, -, repeats, -⟩ ⟨i, rfl, number, store⟩
    exact ⟨widthEn, widthData, [p], repeats, storeFull_portCode widthEn repeats number store, rfl⟩
  · rename_i several
    refine Spec.ite (fun _ => Spec.abort) fun _ => ?_
    have length : runs.length ≠ 1 := fun one => by
      obtain ⟨p, rfl⟩ := length_eq_one_iff.mp one
      exact several p rfl
    refine (storeStrobed_spec sized shape length (fun facts => facts.2.1)).weaken id ?_
    rintro r ⟨⟨widthEn, widthData⟩, -, repeats, -⟩ ⟨code, next⟩
    exact ⟨widthEn, widthData, runs, repeats, code, next⟩

end ManticoreFrontend.Writer.MemoryPorts
