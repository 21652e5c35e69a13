/- source: passes/manticore/manticore_meminit.cc (execute, constToHexString)
   digest: The initial image of a memory from its init cells, and the lines of its file. -/

import ManticoreFrontend.Foundation.Outcome
import ManticoreFrontend.Kernel.Signals
import Mathlib.Data.List.Sort

namespace ManticoreFrontend.Passes.MemoryInit

open Foundation.Outcome Kernel Constants Calc Signals List

/-- `Const::extract`; positions past the end read as zero. -/
def extract (c : Const) (offset len : Nat) : Const :=
  (List.range len).map (fun i => c.getD (offset + i) .S0)

def hexAlphabet : List Char :=
  ['0', '1', '2', '3', '4', '5', '6', '7', '8', '9', 'a', 'b', 'c', 'd', 'e', 'f']

/-- The low `n` hexadecimal digits, most significant first. -/
def hexDigits : Nat → Nat → List Char
  | 0, _ => []
  | n + 1, value => hexDigits n (value / 16) ++ [hexAlphabet.getD (value % 16) '0']

/-- `stringf("%08x", value)`: an `int` is printed as unsigned, so it never has a ninth digit. -/
def hex08 (value : Int) : List Char := hexDigits 8 (BitVec.ofInt 32 value).toNat

def numParts (value : Const) : Nat := (value.length - 1) / 32 + 1

def constToHexString (value : Const) : List Char :=
  (List.range (numParts value)).reverse.flatMap (fun i => hex08 (extract value (i * 32) 32).asInt)

/-- A digit string read as one number in base 16, after the digits of `start`. -/
def readHexFrom (start : Nat) (text : List Char) : Option Nat :=
  text.foldlM (fun n c => (hexAlphabet.idxOf? c).map (16 * n + ·)) start

def readHex (text : List Char) : Option Nat := readHexFrom 0 text

private theorem readHexFrom_append (start : Nat) (left right : List Char) :
    readHexFrom start (left ++ right) = (readHexFrom start left).bind (readHexFrom · right) :=
  foldlM_append

private theorem readHexFrom_digits (n start value : Nat) :
    readHexFrom start (hexDigits n value) = some (16 ^ n * start + value % 16 ^ n) := by
  have read : ∀ d < 16, ∀ m, readHexFrom m [hexAlphabet.getD d '0'] = some (16 * m + d) := by
    have digit : ∀ d < 16, hexAlphabet.idxOf? (hexAlphabet.getD d '0') = some d := by decide
    intro d small m
    rw [readHexFrom, foldlM_cons, digit d small]
    rfl
  induction n generalizing value with
  | zero => simp [hexDigits, readHexFrom, Nat.mod_one]
  | succ n ih =>
    have split : value % (16 * 16 ^ n) = value % 16 + 16 * (value / 16 % 16 ^ n) :=
      Nat.mod_mul
    rw [hexDigits, readHexFrom_append, ih, Option.bind_some, read _ (Nat.mod_lt _ (by omega)),
      Nat.pow_succ', split, Nat.mul_add, Nat.mul_assoc]
    congr 1
    omega

private theorem hexDigits_length (n value : Nat) : (hexDigits n value).length = n := by
  induction n generalizing value with
  | zero => rfl
  | succ n ih => simp [hexDigits, ih]

private theorem part_bits (word : Const) (i : Nat) :
    (BitVec.ofInt 32 (extract word (i * 32) 32).asInt).toNat =
      (bitsOf word).toNat / 2 ^ (32 * i) % 2 ^ 32 := by
  have bits : BitVec.ofInt 32 (extract word (i * 32) 32).asInt =
      (bitsOf word >>> (i * 32)).setWidth 32 := by
    rw [Const.asInt, BitVec.ofInt_toInt]
    apply BitVec.eq_of_getLsbD_eq
    intro k inside
    rw [BitVec.getLsbD_setWidth, BitVec.getLsbD_ofBoolListLE, BitVec.getLsbD_setWidth,
      BitVec.getLsbD_ushiftRight]
    by_cases here : i * 32 + k < word.length
    · rw [bitsOf_getLsbD word _ here]
      simp [extract, inside, here]
    · rw [BitVec.getLsbD_of_ge _ _ (by omega)]
      simp [extract, inside, getElem?_eq_none (Nat.le_of_not_lt here)]
  rw [bits, BitVec.toNat_setWidth, BitVec.toNat_ushiftRight, Nat.shiftRight_eq_div_pow,
    Nat.mul_comm]

private theorem readHex_parts (word : Const) (k : Nat) :
    ∀ start, readHexFrom start ((List.range k).reverse.flatMap
        (fun i => hex08 (extract word (i * 32) 32).asInt)) =
      some (2 ^ (32 * k) * start + (bitsOf word).toNat % 2 ^ (32 * k)) := by
  induction k with
  | zero => simp [readHexFrom, Nat.mod_one]
  | succ k ih =>
    intro start
    have split : (bitsOf word).toNat % (2 ^ (32 * k) * 2 ^ 32) =
        (bitsOf word).toNat % 2 ^ (32 * k) +
          2 ^ (32 * k) * ((bitsOf word).toNat / 2 ^ (32 * k) % 2 ^ 32) := Nat.mod_mul
    have power : 2 ^ (32 * (k + 1)) = 2 ^ (32 * k) * 2 ^ 32 := by rw [← Nat.pow_add, Nat.mul_succ]
    have digits : 16 ^ 8 = 2 ^ 32 := by decide
    rw [range_succ, reverse_append, reverse_singleton, singleton_append,
      flatMap_cons, readHexFrom_append, hex08, part_bits, readHexFrom_digits,
      digits, Option.bind_some, ih, power, split, Nat.mod_mod, Nat.mul_add, ← Nat.mul_assoc,
      Nat.add_assoc, Nat.add_comm (2 ^ (32 * k) * _)]

private theorem readHex_constToHexString (word : Const) :
    readHex (constToHexString word) = some (bitsOf word).toNat := by
  have fits : (bitsOf word).toNat < 2 ^ (32 * numParts word) := by
    refine (bitsOf word).isLt.trans_le (Nat.pow_le_pow_right (by omega) ?_)
    unfold numParts
    omega
  rw [readHex, constToHexString, readHex_parts, Nat.mod_eq_of_lt fits]
  simp

/-- Every line of the file has the same number of digits, which read as one number are the word, so
different words have different lines. -/
theorem constToHexString_faithful {width : Nat} (positive : 0 < width) :
    (∀ word : Const, word.length = width → word.isFullyDef = true →
      readHex (constToHexString word) = some (bitsOf word).toNat ∧
        (constToHexString word).length = 8 * ((width + 31) / 32)) ∧
      ∀ word other : Const, word.length = width → other.length = width →
        word.isFullyDef = true → other.isFullyDef = true → word ≠ other →
        constToHexString word ≠ constToHexString other := by
  constructor
  · rintro word rfl -
    refine ⟨readHex_constToHexString word, ?_⟩
    have parts : numParts word = (word.length + 31) / 32 := by
      unfold numParts
      omega
    simp [constToHexString, hex08, hexDigits_length, parts, Nat.mul_comm]
  · intro word other length length' defined defined' differ same
    apply differ
    have numbers := readHex_constToHexString word
    rw [same, readHex_constToHexString other] at numbers
    have lengths : word.length = other.length := length.trans length'.symm
    rw [← toConst_bitsOf defined, ← toConst_bitsOf defined']
    apply ext_getElem
    · simpa using lengths
    · intro i hi hi'
      rw [toConst_getElem, toConst_getElem, ← BitVec.testBit_toNat, ← BitVec.testBit_toNat,
        Option.some.inj numbers]

theorem constToHexString_faithful_word :
    readHex (constToHexString (Const.ofInt (-2) 33)) = some 8589934590 :=
  ((constToHexString_faithful (show 0 < 33 by decide)).1 (Const.ofInt (-2) 33) (by decide)
    (by decide)).1.trans (by decide)

/-- A memory, the first of its words at address `startOffset`. -/
structure InitMemory where
  width : Nat
  positive : 0 < width
  startOffset : Int
  size : Nat

/-- A `$meminit` or `$meminit_v2` cell: the integers of its parameters and its signals. -/
structure InitCell where
  priority : Int
  width : Int
  words : Int
  addr : SigSpec
  data : SigSpec
  en : Option SigSpec

/-- A failed `log_assert` or a `log_error`; and behaviour that C++ leaves undefined, an index
outside of a vector or an `int` that overflows. -/
inductive Failure
  | rejected
  | undefined
  deriving DecidableEq

def asConst (sig : SigSpec) : Option Const :=
  sig.mapM (fun b => match b with
    | .const s => some s
    | .wire _ _ => none)

def constPort (sig : SigSpec) : Except Failure Const := orFail (asConst sig) .rejected

def inInt (z : Int) : Prop := -2147483648 ≤ z ∧ z < 2147483648

instance (z : Int) : Decidable (inInt z) := inferInstanceAs (Decidable (_ ∧ _))

variable (mem : InitMemory)

def storeWord (data enMask : Const) (initAddr : Int) (resolved : List Const) (offset : Nat) :
    Except Failure (List Const) := do
  let word := extract data (offset * mem.width) mem.width
  let masked := constAnd word enMask false false mem.width
  let addr := offset + initAddr - mem.startOffset
  check (0 ≤ addr) .undefined
  let original ← orFail resolved[addr.toNat]? .undefined
  let negMask := constNot enMask false mem.width
  let origMasked := constAnd original negMask false false mem.width
  pure (resolved.set addr.toNat (constOr masked origMasked false false mem.width))

/-- The enable mask; a cell without an enable port writes whole words. -/
def enMask (cell : InitCell) : Except Failure Const :=
  match cell.en with
  | some en => constPort en
  | none => .ok (Const.ofState .S1 mem.width)

def resolveCell (resolved : List Const) (cell : InitCell) : Except Failure (List Const) := do
  check (cell.width = mem.width) .rejected
  let initData ← constPort cell.data
  let initAddr := (← constPort cell.addr).asInt
  let enMask ← enMask mem cell
  check (inInt (cell.words + initAddr)) .undefined
  check (inInt (cell.words + initAddr - mem.startOffset)) .undefined
  check (cell.words + initAddr - mem.startOffset ≤ mem.size) .rejected
  let resolved ← (List.range cell.words.toNat).foldlM (storeWord mem initData enMask initAddr)
    resolved
  check (initData.length % mem.width = 0) .rejected
  pure resolved

/-- The order in which the queue gives out the cells: its comparison is inverted, so the lowest
priority is on top. -/
def queueOrder (cells : List InitCell) : List InitCell :=
  cells.insertionSort (fun c d => c.priority ≤ d.priority)

def resolve (cells : List InitCell) : Except Failure (List Const) :=
  (queueOrder cells).foldlM (resolveCell mem)
    (List.replicate mem.size (Const.ofState .S0 mem.width))

/-- The three-valued reading of a state. -/
def settle (s : State) : State := if s.isDef then s else .Sx

namespace InitCell

variable (cell : InitCell)

def address : Int := ((asConst cell.addr).getD []).asInt

def bits : Const := (asConst cell.data).getD []

def mask : Const := (enMask mem cell).toOption.getD []

/-- One of the first `k` words of the cell goes to word `a` of the memory, with bit `b` enabled. -/
def CoversIn (k : Int) (a b : Nat) : Prop :=
  cell.address ≤ a + mem.startOffset ∧ a + mem.startOffset < cell.address + k ∧
    (cell.mask mem).getD b .S0 = .S1

instance (k : Int) (a b : Nat) : Decidable (cell.CoversIn mem k a b) :=
  inferInstanceAs (Decidable (_ ∧ _))

def Covers (a b : Nat) : Prop := cell.CoversIn mem cell.words a b

/-- The bit the cell has for bit `b` of word `a`, where every undefined state is `Sx`. -/
def initBit (a b : Nat) : State :=
  settle (cell.bits.getD ((a + mem.startOffset - cell.address).toNat * mem.width + b) .S0)

/-- The ports are constants, with a mask of zeros and ones and whole words of data. -/
structure WellFormed : Prop where
  width : cell.width = mem.width
  data : (asConst cell.data).isSome
  addr : (asConst cell.addr).isSome
  en : (enMask mem cell).isOk
  mask : (cell.mask mem).isFullyDef = true
  whole : cell.bits.length % mem.width = 0

def Fits : Prop :=
  mem.startOffset ≤ cell.address ∧ cell.address + cell.words ≤ mem.startOffset + mem.size

def Strays : Prop :=
  ∃ k : Nat, k < cell.words ∧
    ¬ (mem.startOffset ≤ cell.address + k ∧ cell.address + k < mem.startOffset + mem.size)

def EndsInt : Prop :=
  inInt (cell.words + cell.address) ∧ inInt (cell.words + cell.address - mem.startOffset)

instance : Decidable (cell.EndsInt mem) := inferInstanceAs (Decidable (_ ∧ _))

def PastEnd : Prop :=
  cell.EndsInt mem ∧ mem.size < cell.words + cell.address - mem.startOffset

/-- The cell has a word below the start of the memory and none past its end, or its end is no
`int`. -/
def Unchecked : Prop :=
  ¬ cell.EndsInt mem ∨ ¬ mem.size < cell.words + cell.address - mem.startOffset ∧
    0 < cell.words ∧ cell.address < mem.startOffset

instance : Decidable (cell.Unchecked mem) := inferInstanceAs (Decidable (_ ∨ _))

end InitCell

/-- The resolution stays defined, computes the image when all cells lie inside of the memory, and
rejects any word outside. -/
structure Resolves (cells : List InitCell) : Prop where
  defined : resolve mem cells ≠ .error .undefined
  image : (∀ cell ∈ cells, cell.Fits mem) → ∃ resolved, resolve mem cells = .ok resolved ∧
    resolved.length = mem.size ∧ (∀ word ∈ resolved, word.length = mem.width) ∧
    ∀ a < mem.size, ∀ b < mem.width,
      (∀ cell ∈ cells, cell.Covers mem a b →
        (∀ other ∈ cells, other.Covers mem a b → other.priority ≤ cell.priority) →
        (resolved.getD a []).getD b .Sx = cell.initBit mem a b) ∧
      ((∀ cell ∈ cells, ¬ cell.Covers mem a b) → (resolved.getD a []).getD b .Sx = .S0)
  rejects : (∃ cell ∈ cells, cell.Strays mem) → resolve mem cells = .error .rejected

def row (width : Nat) (f : Nat → State) : Const := (List.range width).map f

variable {width : Nat}

theorem row_getD (f : Nat → State) {b : Nat} (inside : b < width) (s : State) :
    (row width f).getD b s = f b := by
  simp [row, inside]

private theorem extendU0_row (c : Const) : extendU0 c width false = row width (c.getD · .S0) := by
  apply ext_getElem
  · simp [extendU0, row]
    omega
  · intro b inside _
    by_cases here : b < c.length
    · simp [extendU0, row, here]
    · simp [extendU0, row, here, getElem_append_right (Nat.le_of_not_lt here)]

private theorem logic_row (f : State → State → State) (x y : Const) :
    logicWrapper f x y false false width =
      row width (fun b => f (x.getD b .S0) (y.getD b .S0)) := by
  simp only [logicWrapper, resultLenOr_natCast, extendU0_row]
  simp [row]

private theorem constNot_row (x : Const) :
    constNot x false width = row width (fun b => invertBit (x.getD b .S0)) := by
  rw [constNot, resultLenOr_natCast, extendU0_row, row, map_map]
  rfl

variable {mem : InitMemory} {cell : InitCell} {f : Nat → Nat → State}

def image (mem : InitMemory) (f : Nat → Nat → State) : List Const :=
  (List.range mem.size).map (fun a => row mem.width (f a))

/-- The bits after the first `k` words of an init cell. -/
def overlay (mem : InitMemory) (k : Int) (f : Nat → Nat → State) (cell : InitCell) (a b : Nat) :
    State :=
  if cell.CoversIn mem k a b then cell.initBit mem a b else f a b

theorem overlay_none {k : Int} (none : k ≤ 0) : overlay mem k f cell = f := by
  funext a b
  refine if_neg fun covers => ?_
  have := covers.1.trans_lt covers.2.1
  omega

def Settled (f : Nat → Nat → State) : Prop := ∀ a b, settle (f a b) = f a b

theorem Settled.overlay (settled : Settled f) (k : Int) : Settled (overlay mem k f cell) := by
  have twice : ∀ s, settle (settle s) = settle s := by
    intro s
    cases s <;> rfl
  intro a b
  unfold MemoryInit.overlay
  split
  · exact twice _
  · exact settled a b

private theorem masked_or (d e r : State) (defined : e.isDef = true) (settled : settle r = r) :
    logicOr (logicAnd d e) (logicAnd r (invertBit e)) = if e = .S1 then settle d else r := by
  cases e with
  | S0 => cases r <;> cases settled <;> cases d <;> rfl
  | S1 => cases d <;> cases r <;> rfl
  | Sx | Sz | Sa | Sm => cases defined

private theorem getD_isDef {mask : Const} (defined : mask.isFullyDef = true) (b : Nat) :
    (mask.getD b .S0).isDef = true := by
  rw [getD]
  cases found : mask[b]? with
  | none => rfl
  | some s => exact all_eq_true.mp defined s (mem_of_getElem? found)

theorem storeWord_image {data mask : Const} {addr : Int} {offset : Nat} (settled : Settled f)
    (defined : mask.isFullyDef = true) (above : 0 ≤ offset + addr - mem.startOffset)
    (below : offset + addr - mem.startOffset < mem.size) :
    storeWord mem data mask addr (image mem f) offset = .ok (image mem (fun a b =>
      if (a : Int) = offset + addr - mem.startOffset ∧ mask.getD b .S0 = .S1
        then settle (data.getD (offset * mem.width + b) .S0) else f a b)) := by
  obtain ⟨i, index⟩ := Int.eq_ofNat_of_zero_le above
  have inside : i < mem.size := by omega
  have found : (image mem f)[i]? = some (row mem.width (f i)) := by simp [image, inside]
  unfold storeWord
  dsimp only
  rw [index, check_true (Int.natCast_nonneg i), ok_bind, Int.toNat_natCast, orFail_some found,
    ok_bind, constAnd, constOr, constNot_row, logic_row, logic_row, logic_row]
  refine congrArg Except.ok (ext_getElem (by simp [image]) fun a inA _ => ?_)
  rw [getElem_set]
  simp only [image, getElem_map, getElem_range, Int.natCast_inj]
  by_cases here : a = i
  · rw [if_pos here.symm]
    refine map_congr_left fun b inB => ?_
    have low := mem_range.mp inB
    rw [row_getD _ low, row_getD _ low, row_getD _ low, row_getD _ low, extract,
      masked_or _ _ _ (getD_isDef defined b) (settled i b)]
    simp [here, low]
  · rw [if_neg (fun same => here same.symm)]
    simp [here]

theorem storeWords_image (settled : Settled f) (defined : (cell.mask mem).isFullyDef = true)
    (start : mem.startOffset ≤ cell.address) (k : Nat)
    (fits : cell.address + k ≤ mem.startOffset + mem.size) :
    (List.range k).foldlM (storeWord mem cell.bits (cell.mask mem) cell.address) (image mem f) =
      .ok (image mem (overlay mem k f cell)) := by
  induction k with
  | zero =>
    rw [overlay_none (by simp)]
    rfl
  | succ k ih =>
    rw [range_succ, foldlM_append, ih (by omega), ok_bind, foldlM_cons,
      storeWord_image (settled.overlay k) defined (by omega) (by omega)]
    refine congrArg Except.ok (congrArg (image mem) ?_)
    funext a b
    have last : cell.CoversIn mem (k + 1 : Nat) a b ↔ ((a : Int) = k + cell.address -
        mem.startOffset ∧ (cell.mask mem).getD b .S0 = .S1) ∨ cell.CoversIn mem k a b := by
      unfold InitCell.CoversIn
      rw [← and_assoc, ← and_assoc, ← or_and_right]
      refine and_congr_left fun _ => ?_
      omega
    by_cases here : (a : Int) = k + cell.address - mem.startOffset ∧
        (cell.mask mem).getD b .S0 = .S1
    · have position : (a + mem.startOffset - cell.address).toNat = k := by omega
      rw [if_pos here, overlay, if_pos (last.mpr (.inl here)), InitCell.initBit, position]
    · rw [if_neg here, overlay, overlay]
      simp only [last, here, false_or]

theorem resolveCell_eq (formed : cell.WellFormed mem) (resolved : List Const) :
    resolveCell mem resolved cell =
      if ¬ cell.EndsInt mem then .error .undefined
      else if mem.size < cell.words + cell.address - mem.startOffset then .error .rejected
      else (List.range cell.words.toNat).foldlM
        (storeWord mem cell.bits (cell.mask mem) cell.address) resolved := by
  obtain ⟨d, data⟩ := Option.isSome_iff_exists.mp formed.data
  obtain ⟨a, addr⟩ := Option.isSome_iff_exists.mp formed.addr
  have bits : cell.bits = d := by rw [InitCell.bits, data, Option.getD_some]
  have address : cell.address = a.asInt := by rw [InitCell.address, addr, Option.getD_some]
  have mask : enMask mem cell = .ok (cell.mask mem) := by
    have constant := formed.en
    unfold InitCell.mask
    cases port : enMask mem cell with
    | ok m => rfl
    | error e =>
      rw [port] at constant
      cases constant
  have whole := formed.whole
  unfold resolveCell
  rw [check_true formed.width, constPort, orFail_some data, constPort, orFail_some addr, mask]
  simp only [ok_bind, ← address, ← bits, check_true whole]
  by_cases sum : inInt (cell.words + cell.address)
  · by_cases difference : inInt (cell.words + cell.address - mem.startOffset)
    · rw [check_true sum, check_true difference, if_neg (not_not.mpr ⟨sum, difference⟩)]
      by_cases past : mem.size < cell.words + cell.address - mem.startOffset
      · rw [if_pos past, check, if_neg (by omega)]
        rfl
      · rw [if_neg past, check_true (by omega)]
        simp [ok_bind]
    · rw [check_true sum, if_pos (fun ends => difference ends.2), check, if_neg difference]
      rfl
  · rw [if_pos (fun ends => sum ends.1), check, if_neg sum]
    rfl

theorem resolveCell_unchecked (formed : cell.WellFormed mem) (unchecked : cell.Unchecked mem)
    (resolved : List Const) : resolveCell mem resolved cell = .error .undefined := by
  rw [resolveCell_eq formed]
  by_cases ends : cell.EndsInt mem
  · obtain ⟨within, positive, below⟩ := unchecked.resolve_left (not_not.mpr ends)
    obtain ⟨n, words⟩ : ∃ n, cell.words.toNat = n + 1 := ⟨cell.words.toNat - 1, by omega⟩
    rw [if_neg (not_not.mpr ends), if_neg within, words, range_succ_eq_map, foldlM_cons, storeWord]
    rw [check, if_neg (by omega)]
    rfl
  · rw [if_pos ends]

theorem resolveCell_image (formed : cell.WellFormed mem) (settled : Settled f)
    (within : ¬ cell.PastEnd mem) (checked : ¬ cell.Unchecked mem) :
    resolveCell mem (image mem f) cell = .ok (image mem (overlay mem cell.words f cell)) := by
  obtain ⟨ends, inside⟩ := not_or.mp checked
  have ends := not_not.mp ends
  have within : ¬ mem.size < cell.words + cell.address - mem.startOffset :=
    fun past => within ⟨ends, past⟩
  rw [resolveCell_eq formed, if_neg (not_not.mpr ends), if_neg within]
  by_cases positive : 0 < cell.words
  · have count : (cell.words.toNat : Int) = cell.words := by omega
    rw [storeWords_image settled formed.mask (by omega) _ (by omega), count]
  · have count : cell.words.toNat = 0 := by omega
    rw [count, overlay_none (by omega)]
    rfl

/-- A run over cells of rising priority computes the overlay of all of them, or ends with the
first cell that is past the end or unchecked. -/
theorem resolveCells_cases {cells : List InitCell} (formed : ∀ cell ∈ cells, cell.WellFormed mem)
    (sorted : cells.Pairwise (fun c d => c.priority < d.priority)) (settled : Settled f) :
    ((∀ cell ∈ cells, ¬ cell.PastEnd mem ∧ ¬ cell.Unchecked mem) ∧
      cells.foldlM (resolveCell mem) (image mem f) =
        .ok (image mem (cells.foldl (fun f c => overlay mem c.words f c) f))) ∨
    ∃ cell ∈ cells,
      (∀ other ∈ cells, other.PastEnd mem ∨ other.Unchecked mem →
        other = cell ∨ cell.priority < other.priority) ∧
      (cell.PastEnd mem ∧ cells.foldlM (resolveCell mem) (image mem f) = .error .rejected ∨
        cell.Unchecked mem ∧ cells.foldlM (resolveCell mem) (image mem f) = .error .undefined) := by
  induction cells generalizing f with
  | nil => exact .inl ⟨by simp, rfl⟩
  | cons cell cells ih =>
    obtain ⟨first, sorted⟩ := pairwise_cons.mp sorted
    obtain ⟨here, formed⟩ := forall_mem_cons.mp formed
    have lowest : ∀ other ∈ cell :: cells, other.PastEnd mem ∨ other.Unchecked mem →
        other = cell ∨ cell.priority < other.priority := fun other member _ =>
      (mem_cons.mp member).imp_right (first other)
    by_cases past : cell.PastEnd mem
    · refine .inr ⟨cell, by simp, lowest, .inl ⟨past, ?_⟩⟩
      rw [foldlM_cons, resolveCell_eq here, if_neg (not_not.mpr past.1), if_pos past.2]
      rfl
    by_cases unchecked : cell.Unchecked mem
    · refine .inr ⟨cell, by simp, lowest, .inr ⟨unchecked, ?_⟩⟩
      rw [foldlM_cons, resolveCell_unchecked here unchecked]
      rfl
    rw [foldlM_cons, resolveCell_image here settled past unchecked, ok_bind, foldl_cons]
    rcases ih formed sorted (settled.overlay cell.words) with ⟨rest, run⟩ | ⟨c, member, lower, run⟩
    · exact .inl ⟨forall_mem_cons.mpr ⟨⟨past, unchecked⟩, rest⟩, run⟩
    · refine .inr ⟨c, mem_cons_of_mem _ member, forall_mem_cons.mpr ⟨?_, lower⟩, run⟩
      exact fun bad => absurd bad (not_or.mpr ⟨past, unchecked⟩)

theorem overlays_none {cells : List InitCell} {a b : Nat}
    (none : ∀ cell ∈ cells, ¬ cell.Covers mem a b) :
    cells.foldl (fun f c => overlay mem c.words f c) f a b = f a b := by
  induction cells generalizing f with
  | nil => rfl
  | cons cell cells ih =>
    obtain ⟨here, rest⟩ := forall_mem_cons.mp none
    rw [foldl_cons, ih rest]
    exact if_neg here

theorem overlays_highest {cells : List InitCell} {a b : Nat}
    (sorted : cells.Pairwise (fun c d => c.priority < d.priority)) (member : cell ∈ cells)
    (covers : cell.Covers mem a b)
    (highest : ∀ other ∈ cells, other.Covers mem a b → other.priority ≤ cell.priority) :
    cells.foldl (fun f c => overlay mem c.words f c) f a b = cell.initBit mem a b := by
  induction cells generalizing f with
  | nil => cases member
  | cons first cells ih =>
    obtain ⟨lower, sorted⟩ := pairwise_cons.mp sorted
    have rest := (forall_mem_cons.mp highest).2
    rw [foldl_cons]
    rcases mem_cons.mp member with rfl | member
    · have none : ∀ other ∈ cells, ¬ other.Covers mem a b := fun other inside covers =>
        (rest other inside covers).not_gt (lower other inside)
      rw [overlays_none none]
      exact if_pos covers
    · exact ih sorted member rest

variable {cells : List InitCell}

theorem queueOrder_sorted (distinct : cells.Pairwise (fun c d => c.priority ≠ d.priority)) :
    (queueOrder cells).Pairwise (fun c d => c.priority < d.priority) := by
  have rising : (queueOrder cells).Pairwise (fun c d => c.priority ≤ d.priority) :=
    pairwise_insertionSort _ cells
  have apart := ((perm_insertionSort (fun c d : InitCell => c.priority ≤ d.priority)
    cells).pairwise_iff (fun h => h.symm)).mpr distinct
  exact rising.imp₂ (fun _ _ le ne => lt_of_le_of_ne le ne) apart

/-- The resolution meets its contract exactly when every cell that would be indexed outside of
the memory comes after one that is rejected. -/
theorem resolves_iff (distinct : cells.Pairwise (fun c d => c.priority ≠ d.priority))
    (formed : ∀ cell ∈ cells, cell.WellFormed mem) :
    Resolves mem cells ↔ ∀ cell ∈ cells, cell.Unchecked mem →
      ∃ other ∈ cells, other.priority < cell.priority ∧ other.PastEnd mem := by
  have order : ∀ cell, cell ∈ queueOrder cells ↔ cell ∈ cells := fun _ => mem_insertionSort _
  have sorted := queueOrder_sorted distinct
  have blank : replicate mem.size (Const.ofState .S0 mem.width) =
      image mem (fun _ _ => .S0) := by
    simp [image, row, Const.ofState]
  have run := resolveCells_cases (fun cell member => formed cell ((order cell).mp member)) sorted
    (show Settled (fun _ _ => .S0) from fun _ _ => rfl)
  rw [← blank, ← resolve] at run
  simp only [order] at run
  have strays : ∀ cell : InitCell, cell.Strays mem → cell.PastEnd mem ∨ cell.Unchecked mem := by
    rintro cell ⟨k, inside, outside⟩
    by_cases ends : cell.EndsInt mem
    · by_cases past : mem.size < cell.words + cell.address - mem.startOffset
      · exact .inl ⟨ends, past⟩
      · exact .inr (.inr ⟨past, by omega, by omega⟩)
    · exact .inr (.inl ends)
  have fits : ∀ cell : InitCell, cell.Fits mem → ¬ cell.PastEnd mem := by
    rintro cell ⟨-, below⟩ ⟨-, past⟩
    omega
  constructor
  · intro resolves cell member unchecked
    rcases run with ⟨fine, -⟩ | ⟨first, inside, lowest, ⟨past, -⟩ | ⟨-, undefined⟩⟩
    · exact absurd unchecked (fine cell member).2
    · refine ⟨first, inside, (lowest cell member (.inr unchecked)).resolve_left ?_, past⟩
      rintro rfl
      exact unchecked.elim (· past.1) (·.1 past.2)
    · exact absurd undefined resolves.defined
  · intro guarded
    rcases run with ⟨fine, run⟩ | ⟨first, inside, lowest, ⟨past, run⟩ | ⟨unchecked, -⟩⟩
    · refine ⟨by rw [run]; simp, fun _ => ⟨_, run, by simp [image], ?_, ?_⟩, ?_⟩
      · intro word member
        obtain ⟨a, -, rfl⟩ := mem_map.mp member
        simp [row]
      · intro a inA b inB
        have bit : ((image mem ((queueOrder cells).foldl (fun f c => overlay mem c.words f c)
            (fun _ _ => .S0))).getD a []).getD b .Sx =
            (queueOrder cells).foldl (fun f c => overlay mem c.words f c) (fun _ _ => .S0) a b := by
          simp [image, row, inA, inB]
        rw [bit]
        constructor
        · intro cell member covers highest
          refine overlays_highest sorted ((order cell).mpr member) covers fun other inside => ?_
          exact highest other ((order other).mp inside)
        · exact fun none => overlays_none fun cell member => none cell ((order cell).mp member)
      · rintro ⟨cell, member, stray⟩
        rcases strays cell stray with past | unchecked
        · exact absurd past (fine cell member).1
        · exact absurd unchecked (fine cell member).2
    · exact ⟨by rw [run]; simp, fun all => absurd past (fits first (all first inside)), fun _ => run⟩
    · obtain ⟨other, member, lower, past⟩ := guarded first inside unchecked
      rcases lowest other member (.inl past) with rfl | higher
      · exact absurd lower (lt_irrefl _)
      · exact absurd higher lower.asymm

/-- One word at address 3 for a memory that starts at address 4. -/
def lowMemory : InitMemory := ⟨1, by decide, 4, 2⟩

def lowCell : InitCell :=
  ⟨0, 1, 1, SigSpec.ofConst (Const.ofInt 3 3), SigSpec.ofConst [.S1], none⟩

theorem lowCell_undefined : ¬ Resolves lowMemory [lowCell] :=
  fun resolves => resolves.defined (by decide)

/-- Two overlapping cells, the second with a mask. -/
def wideCells : List InitCell :=
  [⟨1, 1, 2, SigSpec.ofConst (Const.ofInt 4 3), SigSpec.ofConst [.S1, .S1], none⟩,
    ⟨2, 1, 1, SigSpec.ofConst (Const.ofInt 5 3), SigSpec.ofConst [.S0],
      some (SigSpec.ofConst [.S1])⟩]

theorem wideCells_resolve : Resolves lowMemory wideCells :=
  (resolves_iff (by decide) (by
    intro cell member
    rcases mem_pair.mp member with rfl | rfl
    · exact ⟨by decide, by decide, by decide, by decide, by decide, by decide⟩
    · exact ⟨by decide, by decide, by decide, by decide, by decide, by decide⟩)).mpr (by
    intro cell member unchecked
    rcases mem_pair.mp member with rfl | rfl
    · exact absurd unchecked (by decide)
    · exact absurd unchecked (by decide))

end ManticoreFrontend.Passes.MemoryInit
