import S2E.Solver.Independent
import S2E.ADT.TreeHistory
import S2E.ADT.BitArray
import S2E.Memory.ConcreteRead
import S2E.Solver.Z3Solver
import S2E.Kvm.CpuLock
import S2E.Plugins.RegionMap
import S2E.Plugins.CallTree
import S2E.Plugins.StringModels
import S2E.Plugins.TestCaseFiles
import S2E.Plugins.CupaSearcher
import S2E.Plugins.MergingSearcher
import S2E.Plugins.LoopExitSearcher
import S2E.Plugins.SeedScheduler
import S2E.Plugins.SeedInstances
import S2E.Plugins.SeedQueue
import S2E.Memory.Tlb
import S2E.Plugins.IdleInstances
import S2E.Plugins.ManagedForks
import S2E.Plugins.ExecutableRegions
import S2E.Core.StateLifecycle
import S2E.Core.PluginState
import S2E.Core.LoadBalancing
import S2E.Core.Exploration
import S2E.Core.Merge
import S2E.Core.Disks
import S2E.Core.Signals
import S2E.Plugins.BehaviorLifecycle
import S2E.Plugins.FunctionMonitor
import S2E.Plugins.StackMonitor
import S2E.Plugins.KeyValueStore
import S2E.Plugins.ControlFlowGraph
import S2E.Plugins.ResourceMonitor
import S2E.Vmi.PEFile
import S2E.Solver.FastCexSolver
import S2E.Plugins.Recipe
