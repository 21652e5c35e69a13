/- source: passes/proc/proc_mux.cc, techlibs/common/simlib.v ($mux, $pmux)
   digest: The pass that turns the decision tree of a process into multiplexers, in default mode. -/

import ManticoreFrontend.Kernel.BitPatterns
import ManticoreFrontend.Passes.ProcDff
import ManticoreFrontend.Passes.ProcMuxSnippets

namespace ManticoreFrontend.Passes.ProcMux

open Kernel Constants Calc Signals Processes BitPatterns
open Passes.ProcDff (removeSig)
open ProcMuxSnippets

mutual

structure WorkCase where
  compare : List SigSpec
  actions : List Action
  switches : List WorkSwitch

/-- A switch with its entries in `SnippetSwCache`: the snippets assigned below it, and the bits that
all its cases assign, once asked for. -/
structure WorkSwitch where
  signal : SigSpec
  fullCase : Bool
  parallelCase : Bool
  cases : List WorkCase
  snippets : List SigSpec
  fullCaseBits : Option (List SigBit)

end

mutual

/-- The decision tree without the tables. -/
def WorkCase.rule : WorkCase → CaseRule
  | ⟨compare, actions, switches⟩ => ⟨compare, actions, switchRules switches⟩

def WorkSwitch.rule : WorkSwitch → SwitchRule
  | ⟨signal, full, parallel, cases, _, _⟩ => ⟨signal, full, parallel, caseRules cases⟩

def switchRules : List WorkSwitch → List SwitchRule
  | [] => []
  | sw :: rest => sw.rule :: switchRules rest

def caseRules : List WorkCase → List CaseRule
  | [] => []
  | cs :: rest => cs.rule :: caseRules rest

end

mutual

/-- The left sides at and below a case, in the order in which `SigSnippets::insert` takes them. -/
def caseLefts : CaseRule → List SigSpec
  | ⟨_, actions, switches⟩ => actions.map Action.lhs ++ switchLefts switches

def switchLefts : List SwitchRule → List SigSpec
  | [] => []
  | ⟨_, _, _, cases⟩ :: rest => casesLefts cases ++ switchLefts rest

def casesLefts : List CaseRule → List SigSpec
  | [] => []
  | cs :: rest => caseLefts cs ++ casesLefts rest

end

def insertCase (fuel : Nat) (cs : CaseRule) (s : SigSnippets) : Option SigSnippets :=
  (caseLefts cs).foldlM (fun s sig => insertSig fuel sig s) s

variable (owner : SigBit → Option SigSpec)

mutual

/-- `SnippetSwCache::insert`: every switch learns the snippets of the bits assigned below it. -/
def labelCase : CaseRule → WorkCase
  | ⟨compare, actions, switches⟩ => ⟨compare, actions, labelSwitches switches⟩

def labelSwitch : SwitchRule → WorkSwitch
  | ⟨signal, full, parallel, cases⟩ =>
    ⟨signal, full, parallel, labelCases cases, (casesLefts cases).flatten.filterMap owner, none⟩

def labelSwitches : List SwitchRule → List WorkSwitch
  | [] => []
  | sw :: rest => labelSwitch sw :: labelSwitches rest

def labelCases : List CaseRule → List WorkCase
  | [] => []
  | cs :: rest => labelCase cs :: labelCases rest

end

/-- The bits that a case assigns, by what the tables say of its switches. -/
def caseBits (cs : WorkCase) : List SigBit :=
  cs.actions.flatMap Action.lhs ++ cs.switches.flatMap (fun sw => sw.fullCaseBits.getD [])

def commonBits : List WorkCase → List SigBit
  | [] => []
  | cs :: rest => rest.foldl (fun bits c => bits.filter (· ∈ caseBits c)) (caseBits cs)

mutual

/-- `get_full_case_bits`: fill the entry of a switch, and those of the switches below it that it
needs. -/
def fillSwitch : WorkSwitch → WorkSwitch
  | ⟨signal, full, parallel, cases, snippets, some bits⟩ =>
    ⟨signal, full, parallel, cases, snippets, some bits⟩
  | ⟨signal, true, parallel, cases, snippets, none⟩ =>
    ⟨signal, true, parallel, fillCases cases, snippets, some (commonBits (fillCases cases))⟩
  | ⟨signal, false, parallel, cases, snippets, none⟩ =>
    ⟨signal, false, parallel, cases, snippets, some []⟩

def fillCase : WorkCase → WorkCase
  | ⟨compare, actions, switches⟩ => ⟨compare, actions, fillSwitches switches⟩

def fillCases : List WorkCase → List WorkCase
  | [] => []
  | cs :: rest => fillCase cs :: fillCases rest

def fillSwitches : List WorkSwitch → List WorkSwitch
  | [] => []
  | sw :: rest => fillSwitch sw :: fillSwitches rest

end

def isFullyDef (sig : SigSpec) : Bool := sig.all (fun b => b == .const .S0 || b == .const .S1)

def isSimple (compares : List (List SigSpec)) : Bool :=
  compares.flatten.all isFullyDef && decide compares.flatten.Nodup

def takeAll (pool : BitPatternPool) (compare : List SigSpec) : BitPatternPool :=
  (compare.filter isFullyConst).foldl BitPatternPool.take pool

/-- The groups of the cases behind one of group `group`. The pool holds what the group has left. -/
def groupsFrom (width : Nat) : BitPatternPool → Bool → Nat → List (List SigSpec) → List Nat
  | _, _, _, [] => []
  | pool, extraGroup, group, compare :: rest =>
    let fresh := extraGroup || compare.isEmpty ||
      compare.any (fun pat => !isFullyConst pat || !pool.hasAll pat)
    let group := if fresh then group + 1 else group
    let pool := if fresh then BitPatternPool.ofWidth width else pool
    group :: groupsFrom width (takeAll pool compare) (compare.any (fun pat => !isFullyConst pat))
      group rest

/-- `pgroups`: neighbours in one group may share a `$pmux`. -/
def pgroups (width : Nat) (parallelCase : Bool) (compares : List (List SigSpec)) : List Nat :=
  if parallelCase || isSimple compares then List.replicate compares.length 0
  else
    match compares with
    | [] => []
    | compare :: rest =>
      0 :: groupsFrom width (takeAll (BitPatternPool.ofWidth width) compare)
        (compare.any (fun pat => !isFullyConst pat)) 0 rest

/-- A bit after the pass: a bit that was there, or an output bit of a new multiplexer. -/
inductive MuxBit
  | bit (b : SigBit)
  | out (cell index : Nat)
  deriving DecidableEq

abbrev MuxSig := List MuxBit

/-- A bit of a `_CMP` wire: the selector bit itself, or the output of an `$eq` cell. -/
inductive Compare
  | bit (b : SigBit)
  | eq (sig comp : SigSpec)
  deriving DecidableEq

/-- A `$mux` or `$pmux` cell. Each select bit, given by its `_CMP` wire, stands with its part of
the `B` port. -/
structure MuxCell where
  id : Nat
  a : MuxSig
  parts : List (List Compare × MuxSig)
  deriving DecidableEq

/-- The cells that are finished and the next number for a name. -/
structure Builder where
  autoidx : Nat
  cells : List MuxCell := []

namespace Builder

def next (b : Builder) : Builder := { b with autoidx := b.autoidx + 1 }

def close (b : Builder) (cell : Option MuxCell) : Builder :=
  { b with cells := b.cells ++ cell.toList }

end Builder

/-- The compared bits of a selector: those that the pattern cares for. -/
def careBits (signal pattern : SigSpec) : List (SigBit × SigBit) :=
  (signal.zip pattern).filter (fun p => p.2 ≠ .const .Sa)

def comparePattern (signal pattern : SigSpec) : Compare :=
  match careBits signal pattern with
  | [(b, .const .S1)] => .bit b
  | bits => .eq (bits.map Prod.fst) (bits.map Prod.snd)

/-- `gen_cmp`: the bits of the `_CMP` wire, or no signal when a pattern cares for no bit. -/
def genCmp (signal : SigSpec) : List SigSpec → Option (Option (List Compare))
  | [] => some (some [])
  | pattern :: rest =>
    if signal.length ≠ pattern.length then none
    else if (careBits signal pattern).isEmpty then some none
    else (genCmp signal rest).map (Option.map (comparePattern signal pattern :: ·))

/-- The loop over the cases of a switch. The last multiplexer is still open. -/
structure Loop where
  result : MuxSig
  lastMuxCell : Option MuxCell := none
  builder : Builder

def outputs (cell width : Nat) : MuxSig := (List.range width).map (MuxBit.out cell)

variable (signal : SigSpec) (compare : List SigSpec)

def genMux (whenSignal : MuxSig) (l : Loop) : Option Loop :=
  if whenSignal.length ≠ l.result.length then none
  else if compare.isEmpty || whenSignal == l.result then
    some { l with result := whenSignal, builder := l.builder.next }
  else
    match genCmp signal compare with
    | none => none
    | some none => some { l with result := whenSignal, builder := l.builder.next.next }
    | some (some ctrl) =>
      some
        { result := outputs l.builder.autoidx whenSignal.length
          lastMuxCell := some
            { id := l.builder.autoidx, a := l.result, parts := [(ctrl, whenSignal)] }
          builder := (l.builder.close l.lastMuxCell).next.next }

def appendPmux (whenSignal : MuxSig) (cell : MuxCell) (l : Loop) : Option Loop :=
  if whenSignal.length ≠ cell.a.length then none
  else if whenSignal == cell.a then some l
  else
    match genCmp signal compare with
    | some (some ctrl) =>
      some
        { l with
          lastMuxCell := some { cell with parts := cell.parts ++ [(ctrl, whenSignal)] }
          builder := l.builder.next }
    | _ => none

/-- One case: a case that is joined with the one behind it extends the last multiplexer. -/
def muxStep (joined : Bool) (value : MuxSig) (l : Loop) : Option Loop :=
  match l.lastMuxCell with
  | some cell =>
    if joined then appendPmux signal compare value cell l else genMux signal compare value l
  | none => genMux signal compare value l

variable (sig : SigSpec)

def replaceMux (result : MuxSig) (a : Action) : MuxSig :=
  List.zipWith (fun b r => a.pairs.foldl
    (fun r p => if p.1.isWire && b == p.1 then .bit p.2 else r) r) sig result

/-- Defaults that a full case overwrites. -/
def maskDefaults (bits : List SigBit) (result : MuxSig) : MuxSig :=
  List.zipWith (fun b r => if b ∈ bits then .bit (.const .Sx) else r) sig result

variable (tree : WorkCase → MuxSig → Builder → Option (MuxSig × WorkCase × Builder))

/-- The cases from the last to the first, each with its group. -/
def muxCases (signal : SigSpec) (initial : MuxSig) :
    List (WorkCase × Nat) → Builder → Option (List WorkCase × Loop)
  | [], b => some ([], { result := initial, builder := b })
  | (cs, group) :: rest, b => do
    let (cases, l) ← muxCases signal initial rest b
    let (value, done, b) ← tree cs initial l.builder
    let joined := (rest.map Prod.snd).head? == some group
    let l ← muxStep signal cs.compare joined value { l with builder := b }
    some (done :: cases, l)

def numbered (sw : WorkSwitch) : List (WorkCase × Nat) :=
  sw.cases.zip (pgroups sw.signal.length sw.parallelCase (sw.cases.map WorkCase.compare))

def muxSwitch (result : MuxSig) (sw : WorkSwitch) (b : Builder) :
    Option (MuxSig × WorkSwitch × Builder) :=
  if sig ∈ sw.snippets then do
    let sw := fillSwitch sw
    let initial := maskDefaults sig (sw.fullCaseBits.getD []) result
    let (cases, l) ← muxCases tree sw.signal initial (numbered sw) b
    some (l.result, { sw with cases := cases }, l.builder.close l.lastMuxCell)
  else some (result, sw, b)

def muxSwitches (result : MuxSig) : List WorkSwitch → Builder →
    Option (MuxSig × List WorkSwitch × Builder)
  | [], b => some (result, [], b)
  | sw :: rest, b => do
    let (result, sw, b) ← muxSwitch sig tree result sw b
    let (result, rest, b) ← muxSwitches result rest b
    some (result, sw :: rest, b)

/-- `signal_to_mux_tree`; `fuel` bounds the depth of the tree. -/
def signalToMuxTree : Nat → WorkCase → MuxSig → Builder → Option (MuxSig × WorkCase × Builder)
  | 0, _, _, _ => none
  | fuel + 1, cs, defval, b => do
    let (result, switches, b) ← muxSwitches sig (signalToMuxTree fuel)
      (cs.actions.foldl (replaceMux sig) defval) cs.switches b
    some (result, { cs with actions := cs.actions.map (removeSig sig), switches := switches }, b)

/-- What the pass has done: the tree that is left, the cells and the connections. -/
structure Muxes where
  work : WorkCase
  builder : Builder
  connections : List (List (SigBit × MuxBit)) := []

/-- `Module::connect` drops the constant bits on the left. -/
def connect (sig : SigSpec) (value : MuxSig) : List (List (SigBit × MuxBit)) :=
  let pairs := (sig.zip value).filter (fun p => p.1.isWire)
  if pairs.isEmpty then [] else [pairs]

def muxSnippet (m : Muxes) (sig : SigSpec) : Option Muxes := do
  let (value, work, builder) ← signalToMuxTree sig (m.work.rule.size + 1) m.work
    (List.replicate sig.length (.bit (.const .Sx))) m.builder
  some { work := work, builder := builder, connections := m.connections ++ connect sig value }

/-- `proc_mux`. The snippets are visited in the order in which the pool lists them. -/
def procMux (listed : List SigSpec → List SigSpec) (fuel : Nat) (root : CaseRule) (autoidx : Nat) :
    Option Muxes := do
  let s ← insertCase fuel root {}
  (listed s.snippets).foldlM muxSnippet
    { work := labelCase s.bit2snippet root, builder := { autoidx := autoidx } }

variable (v : Valuation) (y : Nat → Const)

def MuxBit.state : MuxBit → State
  | .bit b => bitState v b
  | .out cell index => ((y cell)[index]?).getD .Sx

def MuxSig.value (sig : MuxSig) : Const := sig.map (MuxBit.state v y)

def Compare.state : Compare → State
  | .bit b => bitState v b
  | .eq sig comp =>
    (constEq (sig.map (bitState v)) (comp.map (bitState v)) false false 1)[0]?.getD .Sx

/-- The select bit: a single bit of the `_CMP` wire, or the `$reduce_or` of all of them. -/
def ctrlState : List Compare → State
  | [c] => c.state v
  | cmp => (constReduceOr (cmp.map (Compare.state v)) 1)[0]?.getD .Sx

/-- The loop of `$pmux`: the output, and whether a select bit was active. Two active select bits
leave the output undefined. -/
def pmuxStep (width : Nat) (s : Bool × Const) (part : List Compare × MuxSig) : Bool × Const :=
  if ctrlState v part.1 = .S1 then
    (true, if s.1 then List.replicate width .Sx else MuxSig.value v y part.2)
  else s

def MuxCell.run (cell : MuxCell) : Bool × Const :=
  cell.parts.foldl (pmuxStep v y cell.a.length) (false, MuxSig.value v y cell.a)

/-- The output wire of every cell carries the value that the cell computes. -/
def Solves (cells : List MuxCell) : Prop := ∀ cell ∈ cells, y cell.id = (cell.run v y).2

end ManticoreFrontend.Passes.ProcMux
