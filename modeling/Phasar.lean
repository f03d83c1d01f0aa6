import Phasar.Lib.VecMap
import Phasar.Lib.Deduction
import Phasar.Lib.Propagation
import Phasar.Lib.ChangePropagation
import Phasar.Lib.Coarsening
import Phasar.Lib.LoopRule
import Phasar.Lib.UnionFind
import Phasar.Lib.DepthFirst
import Phasar.Lib.StronglyConnected
import Phasar.Utils.SCCGeneric
import Phasar.Domain.LatticeDomain
import Phasar.ControlFlow.ICFG
import Phasar.ControlFlow.CGSCCs
import Phasar.IfdsIde.Problem
import Phasar.IfdsIde.JumpFunctions
import Phasar.IfdsIde.IDESolver
import Phasar.IfdsIde.Tabulation
import Phasar.IfdsIde.PhaseOne
import Phasar.IfdsIde.IFDS
import Phasar.IfdsIde.BasicEdgeFunctions
import Phasar.IfdsIde.MeetOverPaths
import Phasar.IfdsIde.ValueComputation
import Phasar.IfdsIde.PhaseTwo
import Phasar.IfdsIde.IterativeIDESolver
import Phasar.IfdsIde.IterativeInvariant
import Phasar.IfdsIde.IterativeFlow
import Phasar.IfdsIde.IterativeCalls
import Phasar.IfdsIde.IterativeDrain
import Phasar.IfdsIde.IterativeRun
import Phasar.IfdsIde.JumpFunctionGC
import Phasar.IfdsIde.SolverAgreement
import Phasar.IfdsIde.EndSummaryTab
import Phasar.IfdsIde.EdgeFunctionUtils
import Phasar.IfdsIde.JoinEdgeFunction
import Phasar.IfdsIde.LinearConstantAnalysis
import Phasar.Lib.EdgeSearch
import Phasar.ControlFlow.SparseCFG
import Phasar.ControlFlow.SpecialMemberFunctionType
import Phasar.IfdsIde.SparseAgreement
import Phasar.CFLFieldSens.AccessPath
import Phasar.CFLFieldSens.DepthLimit
import Phasar.CFLFieldSens.PathAlgebra
import Phasar.CFLFieldSens.Composition
import Phasar.CFLFieldSens.UnknownOffsets
import Phasar.CFLFieldSens.BreadthLimit
import Phasar.CFLFieldSens.DepthBound
import Phasar.Pointer.CallingContext
import Phasar.Pointer.CallStrings
import Phasar.Pointer.UnionFindAA
import Phasar.Pointer.AndersenSolver
import Phasar.Pointer.AndersenEdges
import Phasar.Pointer.AndersenMerge
import Phasar.Pointer.AndersenInvariant
import Phasar.Pointer.AndersenTermination
import Phasar.Pointer.AndersenSolution
import Phasar.Lib.ChangePass
import Phasar.Pointer.AndersenCallGraph
import Phasar.Pointer.AndersenFieldWrites
import Phasar.Pointer.AndersenCopyForward
import Phasar.Pointer.AndersenRounds
import Phasar.Lib.IndexedTable
import Phasar.Utils.ValueCompressor
import Phasar.Pointer.AndersenResult
import Phasar.Pointer.AndersenOuterLoop
import Phasar.Pointer.AndersenSettled
import Phasar.Pointer.DelayedEdges
import Phasar.Pointer.LocalGeps
import Phasar.Lib.TopologicalOrder
import Phasar.Utils.SCCOrder
import Phasar.ControlFlow.TypePropagator
import Phasar.Pointer.IndirectionSensUnionFindAA
import Phasar.Lib.FlowEquations
import Phasar.ControlFlow.LLVMBasedCFG
import Phasar.Mono.IntraMonoSolver
import Phasar.Pointer.BottomupUnionFindAA
import Phasar.PathSensitivity.PathTracing
import Phasar.PathSensitivity.PathTracingInvariant
import Phasar.PathSensitivity.PathReconstruction
import Phasar.Lib.SMTTerm
import Phasar.PathSensitivity.LLVMPathConstraints
import Phasar.PathSensitivity.ExplodedSuperGraph
import Phasar.PathSensitivity.ExplodedSuperGraphChains
import Phasar.Lib.DagPaths
import Phasar.PathSensitivity.CallStackPathFilter
import Phasar.PathSensitivity.ConstraintPathFilter
import Phasar.PathSensitivity.PathFlattening
import Phasar.Lib.Unfolding
import Phasar.TypeHierarchy.DIBasedTypeHierarchy
import Phasar.Lib.Json
import Phasar.TypeHierarchy.DIBasedTypeHierarchyData
import Phasar.DB.LLVMProjectIRDB
import Phasar.Utils.RemoveByIndex
import Phasar.Lib.SortedRange
import Phasar.Utils.SmallArraySet
import Phasar.Utils.StableVector
import Phasar.Utils.ValueIdMap
import Phasar.Utils.EquivalentGraph
import Phasar.Pointer.LLVMAliasSet
import Phasar.Pointer.LLVMAliasSetPartition
import Phasar.Pointer.LLVMAliasSetAnalysis
import Phasar.Pointer.LLVMAliasSetMerge
import Phasar.ControlFlow.CHAResolver
import Phasar.ControlFlow.LLVMBasedCallGraphBuilder
import Phasar.ControlFlow.CallGraphFixpoint
import Phasar.Lib.FiniteJoin
import Phasar.WPDS.WPDSSolver
import Phasar.WPDS.Saturation
import Phasar.WPDS.SameLevel
import Phasar.WPDS.WPDSSolverResults
import Phasar.WPDS.ResultWeights
import Phasar.WPDS.IfdsIdeRuleProvider
import Phasar.IfdsIde.CallAgreement
import Phasar.IfdsIde.JumpFunctionRecords
import Phasar.IfdsIde.LinearConstantEdgeFunctions
import Phasar.IfdsIde.EdgeValueSet
import Phasar.Lib.BoundedUnion
import Phasar.IfdsIde.EdgeValueSetJoin
import Phasar.Lib.WhileLoop
import Phasar.Lib.WorkList
import Phasar.MonoIfds.ArraySetDriver
import Phasar.MonoIfds.TopoFixpointDriver
import Phasar.MonoIfds.ConfigIndependence
import Phasar.Pointer.RawAAResult
import Phasar.Pointer.CachedUnionFindAA
import Phasar.Lib.SwapRemove
import Phasar.PathSensitivity.UnreachableNodes
import Phasar.PathSensitivity.UnreachableNodesResult
import Phasar.Utils.ReverseGraph
import Phasar.PathSensitivity.ReverseDAG
import Phasar.PathSensitivity.ReverseDAGResult
import Phasar.XTaint.EdgeDomain
import Phasar.XTaint.EdgeFunctions
import Phasar.XTaint.AbstractMemoryLocationFactory
import Phasar.Utils.BitVectorSet
import Phasar.Utils.StringIDLess
import Phasar.Pointer.AddressTaken
import Phasar.Utils.PointerIndices
import Phasar.Lib.HashConsing
import Phasar.CFLFieldSens.Interning
import Phasar.Lib.JoinMap
import Phasar.IfdsIde.LabelEdgeFunctions
import Phasar.IfdsIde.IDEInstInteractionAnalysis
import Phasar.IfdsIde.IDEFeatureTaintAnalysis
import Phasar.ControlFlow.CallGraphData
import Phasar.ControlFlow.LLVMBasedBackwardCFG
import Phasar.Pointer.LLVMGlobalInitCache
import Phasar.Utils.PowerSet
import Phasar.Utils.EquivalenceClassMap
import Phasar.Utils.Compressor
import Phasar.CFLFieldSens.FieldStringManager
import Phasar.ControlFlow.ControlFlowOrder
import Phasar.Utils.BlockMemory
import Phasar.Utils.StableVectorMemory
import Phasar.IfdsIde.SparseIterativeIDESolver
import Phasar.IfdsIde.PendingJobs
import Phasar.IfdsIde.FlowEdgeFunctionCache
import Phasar.Lib.DeltaPropagation
import Phasar.IfdsIde.IterativeValueComputation
import Phasar.IfdsIde.IterativePhaseTwo
import Phasar.IfdsIde.ValueAgreement
