import KeplerFormal.L1Formula.FrameQuery
import KeplerFormal.L2Problem.System
import KeplerFormal.L3Query.Cone
import KeplerFormal.L3Query.InductionStep
import KeplerFormal.L3Query.BaseCase
import KeplerFormal.L3Query.BaseCaseExact
import KeplerFormal.L4Engine.InternalRelations
import KeplerFormal.L4Engine.SelectorRuns
import KeplerFormal.L2Problem.OutputBatching
import KeplerFormal.L3Query.BaseCounterexample
import KeplerFormal.L3Query.BaseRuns
import KeplerFormal.L3Query.FrontierPaths
import KeplerFormal.Core.Naming
import KeplerFormal.L4Engine.ExactInit
import KeplerFormal.L4Engine.StartupFrontier
import KeplerFormal.L4Engine.KInduction
import KeplerFormal.L4Engine.KInductionSound
import KeplerFormal.L1Formula.DualRailEncoding
import KeplerFormal.L2Problem.DualRailProblem
import KeplerFormal.L2Problem.DualRailSound
import KeplerFormal.L6Netlist.ScopeExtraction
import KeplerFormal.L5Strategy.Coverage
import KeplerFormal.L5Strategy.PdrWorklist
import KeplerFormal.Core.Btor2
import KeplerFormal.L5Strategy.Btor2Export
import KeplerFormal.Core.Fallible
import KeplerFormal.L5Strategy.Btor2Timeline
import KeplerFormal.L5Strategy.Btor2Exact
import KeplerFormal.Core.Pruning
import KeplerFormal.L3Query.CraigRegion
import KeplerFormal.L3Query.CraigInterpolant
import KeplerFormal.L3Query.CraigQuery
import KeplerFormal.L3Query.CraigModels
import KeplerFormal.L2Problem.Bootstrap
import KeplerFormal.L4Engine.CraigMining
import KeplerFormal.L4Engine.CraigMiningSound
import KeplerFormal.L4Engine.CraigLoop
import KeplerFormal.L4Engine.CraigSound
import KeplerFormal.L4Engine.CraigSource
import KeplerFormal.L1Formula.Substitution
import KeplerFormal.Core.Memo
import KeplerFormal.L7Model.ClockCarriers
import KeplerFormal.L7Model.ClockEvents
import KeplerFormal.L7Model.SequentialCell
import KeplerFormal.L7Model.NextState
import KeplerFormal.L7Model.NextStateSound
import KeplerFormal.L7Model.SequentialOutputs
import KeplerFormal.L7Model.DesignModel
import KeplerFormal.L7Model.PhaseComposition
import KeplerFormal.L7Model.DependencyScan
import KeplerFormal.L7Model.SkipPropagation
import KeplerFormal.L7Model.CoveredPart
import KeplerFormal.L7Model.ClockDomains
import KeplerFormal.Core.Ram
import KeplerFormal.L7Model.StructuredMemory
import KeplerFormal.L7Model.MemorySound
import KeplerFormal.L7Model.MemoryTransitions
import KeplerFormal.L7Model.MemoryReference
import KeplerFormal.L7Model.BuilderVariables
import KeplerFormal.Core.Walk
import KeplerFormal.L7Model.OutputRoots
import KeplerFormal.L4Engine.CraigHelpers
import KeplerFormal.L4Engine.CraigMinedFacts
import KeplerFormal.L5Strategy.MiterStrategy
import KeplerFormal.L4Engine.RelationSimulation
import KeplerFormal.L4Engine.RelationFixpoint
import KeplerFormal.L6Netlist.CutCollection
import KeplerFormal.Core.Tseitin
import KeplerFormal.L3Query.FormulaEncoder
import KeplerFormal.L3Query.TransitionEncoder
import KeplerFormal.L7Model.TransitionRebuild
import KeplerFormal.L7Model.StateClosure
import KeplerFormal.L1Formula.OperandOrder
import KeplerFormal.L1Formula.BoolExprCache
import KeplerFormal.L1Formula.FactoryRuns
import KeplerFormal.L1Formula.ArithmeticNormalization
import KeplerFormal.Core.ParityForest
import KeplerFormal.L4Engine.InitFacts
import KeplerFormal.L4Engine.InvariantCheck
import KeplerFormal.L3Query.PrefixCache
import KeplerFormal.Core.Propagation
import KeplerFormal.L1Formula.TernaryNodes
import KeplerFormal.L4Engine.TernaryReducer
import KeplerFormal.L4Engine.TernaryMemo
import KeplerFormal.L4Engine.TernaryReducerSound
import KeplerFormal.L7Model.CarrierEvents
import KeplerFormal.L6Netlist.TableSelect
import KeplerFormal.L6Netlist.DivMod
import KeplerFormal.Core.Postorder
import KeplerFormal.L1Formula.ExprTraversal
import KeplerFormal.L1Formula.Remapping
import KeplerFormal.Core.Dimacs
import KeplerFormal.L1Formula.CnfWriter
import KeplerFormal.L1Formula.Btor2Writer
import KeplerFormal.L1Formula.Btor2WriterSound
import KeplerFormal.L1Formula.Btor2WriterRuns
import KeplerFormal.Core.Sweep
import KeplerFormal.L1Formula.FactoryBuilt
import KeplerFormal.Core.Lru
import KeplerFormal.L4Engine.PdrLruCache
import KeplerFormal.L4Engine.FrameClauses
import KeplerFormal.Core.Components
import KeplerFormal.L4Engine.RelationIndex
import KeplerFormal.Core.Expansion
import KeplerFormal.L1Formula.SimplifyLoop
import KeplerFormal.L5Strategy.PublicInputShortcut
import KeplerFormal.Core.Packing
import KeplerFormal.L4Engine.OutputPartition
import KeplerFormal.L3Query.SolverWrapper
import KeplerFormal.L6Netlist.DesignBoundary
import KeplerFormal.L2Problem.ResolverRuns
import KeplerFormal.Core.Probing
import KeplerFormal.L3Query.EncoderRuns
import KeplerFormal.Core.Frames
import KeplerFormal.Core.Programs
import KeplerFormal.L4Engine.PdrCubes
import KeplerFormal.L5Strategy.PdrSystem
import KeplerFormal.L5Strategy.ReusableInvariant
import KeplerFormal.L5Strategy.PdrRun
import KeplerFormal.L5Strategy.PdrFrames
import KeplerFormal.L5Strategy.PdrRunSound
import KeplerFormal.L5Strategy.PdrVerdict
import KeplerFormal.L5Strategy.PdrStrategySound
