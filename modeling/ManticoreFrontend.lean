import ManticoreFrontend.Backends.CxxrtlMemory
import ManticoreFrontend.Frontends.PreprocConditionals
import ManticoreFrontend.Kernel.AliasRuns
import ManticoreFrontend.Kernel.Interning
import ManticoreFrontend.Kernel.PatternPools
import ManticoreFrontend.Kernel.SigSpecPatterns
import ManticoreFrontend.Kernel.SigSpecRuns
import ManticoreFrontend.Kernel.StackMaps
import ManticoreFrontend.Passes.Async2sync
import ManticoreFrontend.Passes.FlipFlopInits
import ManticoreFrontend.Passes.MemoryInit
import ManticoreFrontend.Passes.MemoryWalk
import ManticoreFrontend.Passes.MemoryWorker
import ManticoreFrontend.Passes.OptCleanTraces
import ManticoreFrontend.Passes.OptDemorgan
import ManticoreFrontend.Passes.OptExprCompare
import ManticoreFrontend.Passes.ProcArstRuns
import ManticoreFrontend.Passes.ProcDffRuns
import ManticoreFrontend.Passes.ProcMuxRuns
import ManticoreFrontend.Writer.Declarations
import ManticoreFrontend.Writer.FormatStrings
import ManticoreFrontend.Writer.OperatorCells
import ManticoreFrontend.Writer.ReadTraces
