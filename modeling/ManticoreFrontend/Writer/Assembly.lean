/- source: passes/manticore/manticore_writer.cc (NameBuilder, InstructionBuilder)
   digest: Names and instructions of the emitted assembly, with the bit-vector meaning of each. -/

import ManticoreFrontend.Foundation.Dataflow
import ManticoreFrontend.Foundation.MaskedStores
import ManticoreFrontend.Kernel.Signals

namespace ManticoreFrontend.Writer.Assembly

open Foundation BitWord Dataflow MaskedStores

/-- The letter `NameBuilder::next` puts into a name: wires, registers with their current and
next values, memories, constants. -/
inductive NameKind
  | w | r | i | o | m | c
  deriving DecidableEq, Repr

structure Name where
  kind : NameKind
  index : Nat
  deriving DecidableEq, Repr

inductive AluOp
  | ADD | SUB | MUL | AND | OR | XOR | SLL | SRL | SRA | SEQ | SLT | SLTS
  deriving DecidableEq, Repr

/-- One instruction each for the methods of `InstructionBuilder` used by the cell conversion. -/
inductive Instr
  | alu (op : AluOp) (rd rs1 rs2 : Name)
  | MUX (rd sel rfalse rtrue : Name)
  | PARMUX (rd : Name) (cases : List (Name × Name)) (defCase : Name)
  | PADZERO (rd rs : Name) (width : Nat)
  | MOV (rd rs : Name)
  | SLICE (rd rs : Name) (offset len : Nat)
  deriving DecidableEq, Repr

/-- The memory instructions carry the memory and their place in its order. -/
inductive MemInstr
  | LLD (rd addr mem : Name) (order : Nat)
  | LST (rs addr pred mem : Name) (order : Nat)
  deriving DecidableEq, Repr

/-- The result of an ALU operation at destination width `w`: truncated or zero extended. A
shift is performed at the width of its first operand. -/
def aluBits (op : AluOp) (a b : Word) (w : Nat) : BitVec w :=
  match op with
  | .ADD => a.bits.setWidth w + b.bits.setWidth w
  | .SUB => a.bits.setWidth w - b.bits.setWidth w
  | .MUL => a.bits.setWidth w * b.bits.setWidth w
  | .AND => a.bits.setWidth w &&& b.bits.setWidth w
  | .OR => a.bits.setWidth w ||| b.bits.setWidth w
  | .XOR => a.bits.setWidth w ^^^ b.bits.setWidth w
  | .SLL => (a.bits <<< b.val).setWidth w
  | .SRL => (a.bits >>> b.val).setWidth w
  | .SRA => (a.bits.sshiftRight b.val).setWidth w
  | .SEQ => (BitVec.ofBool (a.val == b.val)).setWidth w
  | .SLT => (BitVec.ofBool (decide (a.val < b.val))).setWidth w
  | .SLTS => (BitVec.ofBool (decide (a.bits.toInt < b.bits.toInt))).setWidth w

/-- The first choice whose condition is set, else the default. -/
def parmuxWord (σ : Name → Word) : List (Name × Name) → Name → Word
  | [], defCase => σ defCase
  | (cond, choice) :: rest, defCase =>
    if (σ cond).val = 0 then parmuxWord σ rest defCase else σ choice

def resized (a : Word) (w : Nat) : Word := ⟨w, a.bits.setWidth w⟩

@[simp] def Instr.dest : Instr → Name
  | .alu _ rd _ _ | .MUX rd _ _ _ | .PARMUX rd _ _ | .PADZERO rd _ _ | .MOV rd _
  | .SLICE rd _ _ _ => rd

@[simp] def Instr.uses : Instr → List Name
  | .alu _ _ rs1 rs2 => [rs1, rs2]
  | .MUX _ sel rfalse rtrue => [sel, rfalse, rtrue]
  | .PARMUX _ cases defCase => defCase :: cases.flatMap (fun c => [c.1, c.2])
  | .PADZERO _ rs _ | .MOV _ rs | .SLICE _ rs _ _ => [rs]

variable (σ : Name → Word)

/-- The word an instruction computes, at the declared width of its destination. -/
def Instr.value : Instr → Word
  | .alu op rd rs1 rs2 => ⟨(σ rd).width, aluBits op (σ rs1) (σ rs2) (σ rd).width⟩
  | .MUX rd sel rfalse rtrue =>
    resized (if (σ sel).val = 0 then σ rfalse else σ rtrue) (σ rd).width
  | .PARMUX rd cases defCase => resized (parmuxWord σ cases defCase) (σ rd).width
  | .PADZERO rd rs width => resized (resized (σ rs) width) (σ rd).width
  | .MOV rd rs => resized (σ rs) (σ rd).width
  | .SLICE rd rs offset len => resized ⟨len, (σ rs).bits.extractLsb' offset len⟩ (σ rd).width

theorem parmuxWord_congr {σ τ : Name → Word} {cases : List (Name × Name)} {defCase : Name}
    (agree : ∀ n ∈ defCase :: cases.flatMap (fun c => [c.1, c.2]), σ n = τ n) :
    parmuxWord σ cases defCase = parmuxWord τ cases defCase := by
  induction cases with
  | nil => exact agree defCase (by simp)
  | cons c cases ih =>
    have rest := ih (fun n hn => agree n (by
      rcases List.mem_cons.mp hn with rfl | hn
      · simp
      · simp only [List.flatMap_cons, List.mem_cons, List.mem_append]
        exact Or.inr (Or.inr hn)))
    rw [parmuxWord, parmuxWord, rest, agree c.1 (by simp), agree c.2 (by simp)]

/-- The instructions are equations between the words of their names; their order carries no meaning,
since the generator prints uses before definitions. -/
def instrSystem : System Name Word Instr where
  dest := Instr.dest
  uses := Instr.uses
  width := Word.width
  value := Instr.value
  value_width σ i := by cases i <;> rfl
  value_congr {σ τ i} agree width := by
    cases i with
    | PARMUX rd cases defCase =>
      simp only [Instr.value, Instr.dest] at width ⊢
      rw [parmuxWord_congr agree, width]
    | alu op rd rs1 rs2 =>
      simp only [Instr.value, Instr.dest] at width ⊢
      rw [agree rs1 (by simp), agree rs2 (by simp), width]
    | MUX rd sel rfalse rtrue =>
      simp only [Instr.value, Instr.dest] at width ⊢
      rw [agree sel (by simp), agree rfalse (by simp), agree rtrue (by simp), width]
    | PADZERO rd rs n | MOV rd rs | SLICE rd rs offset len =>
      simp only [Instr.value, Instr.dest] at width ⊢
      rw [agree rs (by simp), width]

abbrev Instr.Holds (i : Instr) : Prop := instrSystem.Solves σ i

instance (σ : Name → Word) (i : Instr) : Decidable (i.Holds σ) :=
  inferInstanceAs (Decidable (σ i.dest = i.value σ))

variable {σ : Name → Word} {rd : Name} {w : Nat}

section

variable (width : (σ rd).width = w)

include width

theorem alu_iff {op : AluOp} {rs1 rs2 : Name} :
    (Instr.alu op rd rs1 rs2).Holds σ ↔ σ rd = ⟨w, aluBits op (σ rs1) (σ rs2) w⟩ := by
  subst width
  exact Iff.rfl

theorem mux_iff {sel rfalse rtrue : Name} :
    (Instr.MUX rd sel rfalse rtrue).Holds σ ↔
      σ rd = resized (if (σ sel).val = 0 then σ rfalse else σ rtrue) w := by
  subst width
  exact Iff.rfl

theorem padzero_iff {rs : Name} {n : Nat} :
    (Instr.PADZERO rd rs n).Holds σ ↔ σ rd = resized (resized (σ rs) n) w := by
  subst width
  exact Iff.rfl

theorem mov_iff {rs : Name} : (Instr.MOV rd rs).Holds σ ↔ σ rd = resized (σ rs) w := by
  subst width
  exact Iff.rfl

theorem slice_iff {rs : Name} {offset len : Nat} :
    (Instr.SLICE rd rs offset len).Holds σ ↔
      σ rd = resized ⟨len, (σ rs).bits.extractLsb' offset len⟩ w := by
  subst width
  exact Iff.rfl

end

namespace MemInstr

def order : MemInstr → Nat
  | .LLD _ _ _ order => order
  | .LST _ _ _ _ order => order

def isStore : MemInstr → Bool
  | .LLD .. => false
  | .LST .. => true

/-- A store replaces the word at its address when its predicate is set. -/
def step (σ : Name → Word) (m : Contents w) : MemInstr → Contents w
  | .LLD .. => m
  | .LST rs addr pred _ _ =>
    if (σ pred).val = 0 then m else Function.update m (σ addr).val ((σ rs).bits.setWidth w)

/-- A load gives its destination the word at its address. -/
def Loads (σ : Name → Word) (m : Contents w) : MemInstr → Prop
  | .LLD rd addr _ _ => σ rd = resized ⟨w, m (σ addr).val⟩ (σ rd).width
  | .LST .. => True

def run (σ : Name → Word) (m : Contents w) (l : List MemInstr) : Contents w := l.foldl (step σ) m

/-- Every load gets the word that is stored when its turn comes. -/
def Executes (σ : Name → Word) : Contents w → List MemInstr → Prop
  | _, [] => True
  | m, i :: l => i.Loads σ m ∧ Executes σ (i.step σ m) l

instance (σ : Name → Word) (m : Contents w) (i : MemInstr) : Decidable (i.Loads σ m) := by
  cases i <;> unfold Loads <;> infer_instance

instance decidableExecutes (σ : Name → Word) : (m : Contents w) → (l : List MemInstr) →
    Decidable (Executes σ m l)
  | _, [] => isTrue trivial
  | m, i :: l =>
    haveI := decidableExecutes σ (i.step σ m) l
    inferInstanceAs (Decidable (i.Loads σ m ∧ Executes σ (i.step σ m) l))

@[simp] theorem run_nil (σ : Name → Word) (m : Contents w) : run σ m [] = m := rfl

@[simp] theorem run_cons (σ : Name → Word) (m : Contents w) (i : MemInstr) (l : List MemInstr) :
    run σ m (i :: l) = run σ (i.step σ m) l := rfl

end MemInstr

end ManticoreFrontend.Writer.Assembly
