/- source: kernel/rtlil.h (Module)
   digest: Modules with their wires, memories, cells and connections. -/

import ManticoreFrontend.Kernel.SigTools

namespace ManticoreFrontend.Kernel.Netlist

open CellTypes Signals SigTools

/-- A module. The dictionaries of the source are lists with one entry for each name. -/
structure Module where
  name : IdString
  wires : List Wire := []
  memories : List Memory := []
  cells : List Cell := []
  connections : List Connection := []

def Module.Connected (mod : Module) (v : Valuation) : Prop :=
  ∀ c ∈ mod.connections, ∀ p ∈ c.pairs, bitVal v p.1 = bitVal v p.2

theorem Module.Connected.sigmap {mod : Module} {v : Valuation} (connected : mod.Connected v)
    (b : SigBit) : bitVal v (apply (set mod.connections) b) = bitVal v b :=
  apply_sound connected b

end ManticoreFrontend.Kernel.Netlist
