/- source: passes/manticore/manticore_memory.cc (ModuleTransformer::initialize, ManticoreMemoryWorker)
   digest: The worklist of modules transforms a module again whenever a later one instantiates it. -/

import ManticoreFrontend.Foundation.Worklists
import ManticoreFrontend.Passes.ClockHierarchy

namespace ManticoreFrontend.Passes.MemoryWorker

open Relation Foundation.Worklists Kernel Constants CellTypes Signals Netlist
open ClockCheck (Design)
open ClockHierarchy (twoLevels hierarchy parent)

def supported (cell : Cell) : Bool :=
  let has (param : ParamId) (value : Bool) := (cell.getParam param).map Const.asBool == some value
  match cell.type with
  | .memV2 | .memwr => false
  | .memrd => (cell.getParam .MEMID).isSome
  | .memrdV2 =>
    has .CLK_ENABLE false && has .TRANSPARENCY_MASK false && (cell.getParam .MEMID).isSome
  | .memwrV2 => has .CLK_ENABLE true && (cell.getParam .MEMID).isSome
  | _ => true

/-- `initialize`: the modules that a module instantiates. -/
def initializeModule (design : Design) (mod : Module) : Option (Finset IdString) :=
  if mod.cells.all supported then
    some (mod.cells.filterMap fun cell => (design.module cell.type).map Module.name).toFinset
  else none

/-- `ModuleTransformer::transform` on the module of a name. It rewrites no instances, so it returns
the same modules when it is called again. -/
def transform (design : Design) (name : IdString) : Option (Finset IdString) :=
  (design.modules.find? (·.name = name)).bind (initializeModule design)

/-- `ManticoreMemoryWorker::transform` ends, whatever order the pool gives; it never transforms a
module that is already transformed, and at the end all modules below the top are. -/
def TransformsOnce (design : Design) (top : IdString) : Prop :=
  (∀ f : Nat → State IdString, f 0 = ⟨{top}, []⟩ →
    ∃ k, ¬ Step (transform design) (f k) (f (k + 1))) ∧
  ∀ worker, Run (transform design) top worker → worker.handled.Nodup ∧
    (worker.pending = ∅ → ∀ name, Reachable (transform design) top name ↔ name ∈ worker.handled)

/-- Every module is transformed exactly once if and only if no module is instantiated by two. -/
theorem transforms_once_iff {design : Design} {top : IdString} (rank : IdString → Nat)
    (acyclic : ∀ a b, Reachable (transform design) top a → Leads (transform design) a b →
      rank b < rank a)
    (accepts : ∀ a, Reachable (transform design) top a → (transform design a).isSome) :
    TransformsOnce design top ↔ Single (transform design) top := by
  rw [← nodup_iff_single acyclic accepts]
  constructor
  · rintro ⟨-, once⟩ worker run
    exact (once worker run).1
  · intro once
    refine ⟨fun f start => no_endless_run acyclic start, fun worker run => ⟨once worker run, ?_⟩⟩
    exact fun empty => (explores_start.run run).handled_iff empty

def instanceOf (type : IdString) : Cell :=
  { name := type, type := .other type, parameters := [], connections := [] }

/-- Both the top module and the module below it have an instance of the leaf. -/
def sharedLeaf : Design :=
  { modules := [{ name := "\\leaf" }, { name := "\\mid", cells := [instanceOf "\\leaf"] },
      { name := "\\top", cells := [instanceOf "\\mid", instanceOf "\\leaf"] }] }

/-- The leaf is taken first and comes back with the module that is taken next. -/
theorem shared_leaf_twice : ¬ TransformsOnce sharedLeaf "\\top" := by
  have run : Run (transform sharedLeaf) "\\top" _ :=
    (((ReflTransGen.refl.tail (.take (a := "\\top") (by decide) rfl)).tail
      (.take (a := "\\leaf") (by decide) rfl)).tail (.take (a := "\\mid") (by decide) rfl)).tail
      (.take (a := "\\leaf") (by decide) rfl)
  rintro ⟨-, once⟩
  exact absurd (once _ run).1 (by decide)

theorem transforms_once_two_levels : TransformsOnce twoLevels "\\top" := by
  have leads : ∀ a b, Leads (transform twoLevels) a b → a = "\\top" ∧ b = "\\child" := by
    rintro a b ⟨new, found, member⟩
    by_cases child : "\\child" = a
    · subst child
      obtain rfl : ∅ = new := Option.some.inj found
      simp at member
    · by_cases top : "\\top" = a
      · subst top
        obtain rfl : {"\\child"} = new := Option.some.inj found
        exact ⟨rfl, Finset.mem_singleton.mp member⟩
      · simp [transform, twoLevels, hierarchy, ClockHierarchy.child, parent, child, top] at found
  refine (transforms_once_iff (fun name => if name = "\\top" then 1 else 0) ?_ ?_).mpr ?_
  · rintro a b - onward
    obtain ⟨rfl, rfl⟩ := leads a b onward
    decide
  · intro a path
    rcases path.cases_tail with rfl | ⟨b, -, onward⟩
    · decide
    · rw [(leads b a onward).2]
      decide
  · intro a b c _ _ first second
    rw [(leads a c first).1, (leads b c second).1]

end ManticoreFrontend.Passes.MemoryWorker
