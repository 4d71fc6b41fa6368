import Boogie.Core.Program
import Boogie.Houdini.GivingUp
import Boogie.Houdini.C5DomainSound
import Boogie.Houdini.C5Samples
import Boogie.Houdini.MLHoudiniSound
import Boogie.Houdini.SampleSoundness
import Boogie.Houdini.GreatestInductive
import Boogie.Houdini.Pruning
import Boogie.Houdini.ApplyAssignmentSound
import Boogie.VCGeneration.LetVCSound
import Boogie.Houdini.StagePlanning
import Boogie.Houdini.ConcurrentDecides
import Boogie.Houdini.CandidateChecks
import Boogie.Graph.StronglyConnectedComponents
import Boogie.Houdini.AbstractDomain
import Boogie.Houdini.Interpretations
import Boogie.Houdini.LearnerFiles
import Boogie.Provers.ProverInterface
import Boogie.Provers.ContextBalance
import Boogie.Foundation.Relaxation
import Boogie.Provers.SoftAssumptions
import Boogie.Foundation.Enumeration
import Boogie.VCGeneration.FailurePaths
import Boogie.Provers.MultipleErrors
import Boogie.Houdini.FailedImplementations
import Boogie.Foundation.DepthFirst
import Boogie.VCGeneration.Split
import Boogie.VCGeneration.SplitSound
import Boogie.VCGeneration.BigBlocks
import Boogie.VCGeneration.DoSplit
import Boogie.Graph.Condensation
import Boogie.Houdini.Candidates
import Boogie.AbsInt.IntervalDomain
import Boogie.AbsInt.IntervalBounds
import Boogie.AbsInt.IntervalLattice
import Boogie.AbsInt.LatticeLaws
import Boogie.Provers.SExprParser
import Boogie.Provers.SExprText
import Boogie.Provers.SExprFraming
import Boogie.Provers.SExprLayout
import Boogie.Provers.SExprCalls
import Boogie.Foundation.TopologicalSort
import Boogie.VCExpr.VCExprBinders
import Boogie.VCExpr.LetBindingSorter
import Boogie.VCExpr.LetBindingSorterSound
import Boogie.Provers.SMTLibLineariser
import Boogie.Provers.SMTLibNamer
import Boogie.Provers.SMTLibNamerSound
import Boogie.AbsInt.PartiallyEvaluate
import Boogie.AbsInt.PartiallyEvaluateSound
import Boogie.AbsInt.ExprBounds
import Boogie.AbsInt.UpdateSound
import Boogie.AbsInt.IntervalConstrain
import Boogie.AbsInt.ConstrainSound
import Boogie.AbsInt.ConstrainExact
import Boogie.Foundation.Worklist
import Boogie.AbsInt.AnalyzeSound
import Boogie.AbsInt.InstrumentSound
import Boogie.Core.Cmd
import Boogie.Foundation.MachineInt
import Boogie.Houdini.NumericDomains
import Boogie.Houdini.Pentagon
import Boogie.Houdini.Octagon
import Boogie.Houdini.WideningFinite
import Boogie.Houdini.PowDomain
import Boogie.Basetypes.BigDec
import Boogie.Basetypes.BigDecArithmetic
import Boogie.Basetypes.BigDecText
import Boogie.Core.ModSetCollector
import Boogie.Core.ModSetSteps
import Boogie.Core.ModSetAnalysis
import Boogie.Core.BlockCoalescer
import Boogie.Core.BlockCoalescerMerge
import Boogie.Core.BlockCoalescerEdges
import Boogie.Core.BlockCoalescerSound
import Boogie.Core.GenKillWeight
import Boogie.Core.InterProcGenKill
import Boogie.Core.InterProcDiscovery
import Boogie.Core.GenKillAllocation
import Boogie.Core.InterProcProcess
import Boogie.Core.InterProcItems
import Boogie.Core.InterProcTermination
import Boogie.Core.InterProcEndless
import Boogie.Core.GenKillValues
import Boogie.Core.InterProcValues
import Boogie.Core.InterProcSettled
import Boogie.Core.InterProcPaths
import Boogie.Core.InterProcReads
import Boogie.Core.InterProcLiveness
import Boogie.Foundation.Traversal
import Boogie.Foundation.Partition
import Boogie.Houdini.EqualitiesDomain
import Boogie.Foundation.Clauses
import Boogie.Foundation.Bracketed
import Boogie.Foundation.Subsumption
import Boogie.Houdini.PredicateAbsElem
import Boogie.Houdini.CandidateConditions
import Boogie.Houdini.IgnoredCandidates
import Boogie.Core.Binders
import Boogie.Core.Visits
import Boogie.Foundation.Extension
import Boogie.Houdini.ExtractQuantifiers
import Boogie.Houdini.ReplaceFunctionCalls
import Boogie.Houdini.StripQuantifiers
import Boogie.Houdini.PredicateAbsDisjunct
import Boogie.Houdini.PredicateAbs
import Boogie.Houdini.TemplateParser
import Boogie.Houdini.TemplateParserSound
import Boogie.Houdini.InlineFunctionCalls
import Boogie.Houdini.InlineFunctionCallsSound
import Boogie.Houdini.BuildWorkList
import Boogie.Houdini.CrossDependencies
import Boogie.Graph.PostOrder
import Boogie.Graph.PostOrderWaiting
import Boogie.Foundation.ParentTree
import Boogie.Foundation.Dominators
import Boogie.Graph.DomRelation
import Boogie.Graph.DomRelationPasses
import Boogie.Graph.Dominance
import Boogie.Graph.NaturalLoops
import Boogie.Graph.Dual
import Boogie.Graph.ControlDependence
import Boogie.Graph.TransitiveClosure
import Boogie.Core.ProcessLoops
import Boogie.Core.GlobalControlDependences
import Boogie.Core.GlobalControlDependencesExact
import Boogie.Core.VariableDependenceAnalyser
import Boogie.VCGeneration.RemoveEmptyBlocksOrder
import Boogie.Graph.LoopyTopSort
import Boogie.Houdini.Inline
import Boogie.Core.ExpressionText
import Boogie.Foundation.Chains
import Boogie.Foundation.Occurrences
import Boogie.Foundation.Selections
import Boogie.Heaps.Candidates
import Boogie.Heaps.CandidatesComplete
import Boogie.Heaps.PredInject
import Boogie.Predication.MergedBlocks
