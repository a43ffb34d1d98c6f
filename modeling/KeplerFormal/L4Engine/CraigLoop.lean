import KeplerFormal.Core.PairClosure
import KeplerFormal.L3Query.Cone
import KeplerFormal.L4Engine.CraigMining

/-!
# The Craig model checker (`src/sec/imc/CraigInterpolatingModelChecker.cpp`)

`run` repeats projection rounds. A round finds a first region, then expands a union `Q`
of regions by interpolants of the image query until the newest one is inside `Q`. A
satisfiable image query mines auxiliary facts, widens the projection, or restarts from
the first region with a longer suffix.

The answers of the interpolating solver and every heuristic decision (budgets, which
symbols to track or mine, which transitions to encode) are the labels of a transition
system.

* `CraigState`, `craigStep`: the states between two interpolation queries and one step.
* `Answers`: what the solver's answer promises.
* `craigChecker`: the system; `finished` carries the result of `run`.
-/
namespace KeplerFormal

open Core

/-- mirrors src/sec/imc/CraigInterpolatingModelChecker.h:39-45 -/
inductive CraigImcStatus where
  | equivalent
  | counterexampleCandidate
  | concreteNoProgress
  | budgetExceeded
  | noProgress
  deriving DecidableEq, Repr

/-- mirrors src/sec/imc/CraigInterpolatingModelChecker.h:74-81 -/
structure CraigImcResult where
  status : CraigImcStatus := .noProgress
  iterations : Nat := 0
  invariantRegions : List InterpolantRegion := []
  trackedStates : List Nat := []
  auxiliaryStateInvariants : AuxiliaryStateInvariants := {}

/-- The problem and what the caller passes in; the two flags are the option or the
environment switch. -/
structure CraigConfig where
  problem : KInductionProblem
  helperInvariantRegions : List InterpolantRegion := []
  initialTrackedStates : List Nat := []
  helperAuxiliary : AuxiliaryStateInvariants := {}
  enableAuxiliaryInvariants : Bool := false
  enableDirectConcreteCubeSource : Bool := false
  maxLookahead : Nat

/-! ## Tracked states -/

section Tracked
variable (p : KInductionProblem)

/-- mirrors src/sec/imc/CraigInterpolatingModelChecker.cpp:658-688 -/
def closeSameDesignStateSemantics (syms : Finset Nat) : Finset Nat :=
  let close pairs X := closePairs pairs.length pairs X
  addPartners p.railPairs
    (close p.sameFrameStateEqualityPairs1 (close p.sameFrameStateEqualityPairs0
      (close p.complementedStatePairs1 (close p.complementedStatePairs0 syms))))

/-- The states of the bad predicate and the seeds.
mirrors src/sec/imc/CraigInterpolatingModelChecker.cpp:756-767, 4769-4779 -/
def seededTrackedStates (seeds : List Nat) : Finset Nat :=
  let states := p.stateSymbolSet.toFinset
  let tracked := closeSameDesignStateSemantics p (p.bad.getSupportVars ∩ states)
  if seeds = [] then tracked
  else closeSameDesignStateSemantics p (tracked ∪ (seeds.toFinset ∩ states))

/-- Refinement adds state symbols. -/
def insertTracked (tracked added : List Nat) : List Nat :=
  tracked ++ (added.filter fun s => p.stateSymbolSet.contains s && !tracked.contains s).dedup

/-- The region `root <-> cube`, unless a tracked state has no assignment.
mirrors src/sec/imc/CraigInterpolatingModelChecker.cpp:2679-2725 -/
def buildConcreteAssignmentRegion (assignments : List (Nat × Bool)) (tracked : List Nat) :
    Option InterpolantRegion :=
  let known := KInductionProblem.bootstrapAssignmentsForSymbols assignments tracked
  match tracked.mapM fun s => (known.lookup s).map fun v => (⟨.state s, v⟩ : RegionLiteral) with
  | none => none
  | some [] => none
  | some cube =>
    some { type := .normal
           auxiliaryCount := 1
           definitions := cube.map (fun l => [⟨.auxiliary 0, false⟩, l]) ++
             [⟨.auxiliary 0, true⟩ :: cube.map Lit.neg]
           root := ⟨.auxiliary 0, true⟩ }

end Tracked

/-! ## Compaction -/

def kCraigRegionCompactionStart : Nat := 8
def kCraigRegionCompactionCandidateLimit : Nat := 4
def kCraigLocalAuxiliaryRetryLimit : Nat := 2

section Solver
variable {σ : Type} (S : CraigSatSolver σ) (fresh : σ)

/-- Drops the first region, among the oldest few, that the others contain.
mirrors src/sec/imc/CraigInterpolatingModelChecker.cpp:3970-4023 -/
def compactReachableRegions (p : KInductionProblem) (tracked : List Nat)
    (helpers : List InterpolantRegion) (X : AuxiliaryStateInvariants)
    (regions : List InterpolantRegion) (compactionStart candidateLimit : Nat) :
    List InterpolantRegion :=
  if regions.length < compactionStart then regions
  else
    match (List.range (min candidateLimit regions.length)).find? fun i =>
        match regions[i]? with
        | some r => regionContainedInReachableUnion p tracked helpers X S fresh (regions.eraseIdx i) r
        | none => false with
    | some i => regions.eraseIdx i
    | none => regions

/-! ## States and labels -/

abbrev MiningChoice := KInductionProblem.MiningChoice

inductive CraigAnswer where
  | sat
  | unsat (interpolant : CraigInterpolantCnf)
  | unknown
  deriving DecidableEq, Repr

structure CraigLoop where
  tracked : List Nat
  concreteInitialRegion : InterpolantRegion
  hasConcreteInitialCube : Bool
  lookahead : Nat := 1
  qExpansionPass : Nat := 1
  localAuxiliaryRetryCount : Nat := 0
  reachableRegions : List InterpolantRegion
  activeAuxiliary : AuxiliaryStateInvariants
  projectionAuxiliary : AuxiliaryStateInvariants

inductive CraigState where
  | round (projectionRound : Nat) (tracked : List Nat) (auxiliary : AuxiliaryStateInvariants)
  | looping (projectionRound : Nat) (loop : CraigLoop)
  | finished (result : CraigImcResult)

/-- The start of a round. -/
structure RoundChoice where
  projectionBudgetExceeded : Bool := false
  plan : Nat → ProjectedTransitionFrame := fun _ => {}
  answer : CraigAnswer := .unknown
  transitionSupport : List Nat := []

/-- One pass through the loop. -/
structure LoopChoice where
  plan : Nat → ProjectedTransitionFrame := fun _ => {}
  buildBudgetExceeded : Bool := false
  answer : CraigAnswer
  skipLocalAuxiliaryMining : Bool := true
  localMining : MiningChoice := {}
  selectedMining : Option MiningChoice := none
  refinementSupport : List Nat := []
  growthBudgetExceeded : Bool := false
  budgetRefinement : Option (List Nat) := none
  continueSaturated : Bool := false
  advanceLookahead : Bool := false

inductive CraigChoice where
  | round (choice : RoundChoice)
  | image (choice : LoopChoice)

variable (c : CraigConfig)

namespace CraigLoop
variable (loop : CraigLoop)

/-- mirrors src/sec/imc/CraigInterpolatingModelChecker.cpp:3702-3704 -/
def useDirectConcreteCube : Bool := loop.hasConcreteInitialCube && c.enableDirectConcreteCubeSource

def source : CraigQuery :=
  imageSource c.problem loop.tracked (loop.useDirectConcreteCube c) loop.reachableRegions

def queryA (plan : Nat → ProjectedTransitionFrame) : CraigQuery :=
  imageA c.problem loop.tracked c.helperInvariantRegions loop.activeAuxiliary (loop.source c) plan

def queryB (plan : Nat → ProjectedTransitionFrame) : CraigQuery :=
  imageB c.problem loop.tracked c.helperInvariantRegions loop.activeAuxiliary loop.lookahead plan

/-- Longer suffix, first region only.
mirrors src/sec/imc/CraigInterpolatingModelChecker.cpp:4410-4415 -/
def restart : CraigLoop :=
  { loop with
    lookahead := loop.lookahead + 1
    qExpansionPass := 1
    localAuxiliaryRetryCount := 0
    reachableRegions := [loop.concreteInitialRegion] }

/-- `Q := Q or I`, then compaction.
mirrors src/sec/imc/CraigInterpolatingModelChecker.cpp:4553-4567 -/
def expand (region : InterpolantRegion) : CraigLoop :=
  { loop with
    qExpansionPass := loop.qExpansionPass + 1
    localAuxiliaryRetryCount := 0
    reachableRegions := compactReachableRegions S fresh c.problem loop.tracked
      c.helperInvariantRegions loop.activeAuxiliary (loop.reachableRegions ++ [region])
      kCraigRegionCompactionStart kCraigRegionCompactionCandidateLimit }

/-- mirrors src/sec/imc/CraigInterpolatingModelChecker.cpp:2211-2231 -/
def promote (mined : AuxiliaryStateInvariants) : Option CraigLoop :=
  let active := KInductionProblem.mergeAuxiliaryStateInvariants loop.activeAuxiliary mined
  if active.constants.length + active.equalities.length =
      loop.activeAuxiliary.constants.length + loop.activeAuxiliary.equalities.length then none
  else some
    { loop with
      localAuxiliaryRetryCount := loop.localAuxiliaryRetryCount + 1
      activeAuxiliary := active
      projectionAuxiliary :=
        KInductionProblem.mergeAuxiliaryStateInvariants loop.projectionAuxiliary mined }

def mine (choice : MiningChoice) : Option CraigLoop :=
  loop.promote
    (c.problem.deriveLocalAuxiliaryStateInvariants S fresh choice loop.activeAuxiliary)

end CraigLoop

inductive LoopOutcome where
  | again (loop : CraigLoop)
  | done (result : CraigImcResult) (loop : CraigLoop)

def LoopOutcome.stop (loop : CraigLoop) (status : CraigImcStatus) (iterations : Nat) :
    LoopOutcome := .done { status := status, iterations := iterations } loop

/-! ## One pass -/

/-- After mining has added nothing.
mirrors src/sec/imc/CraigInterpolatingModelChecker.cpp:4339-4416 -/
def refineOrRestart (loop : CraigLoop) (choice : LoopChoice) : LoopOutcome :=
  let tracked := insertTracked c.problem loop.tracked choice.refinementSupport
  if tracked.length ≠ loop.tracked.length then
    .stop { loop with tracked := tracked } .noProgress 0
  else if loop.hasConcreteInitialCube = true ∧ loop.qExpansionPass = 1 ∧ choice.answer = .sat then
    .stop loop .counterexampleCandidate loop.lookahead
  else if choice.growthBudgetExceeded = true ∧ choice.advanceLookahead = false then
    .stop loop .budgetExceeded loop.lookahead
  else .again loop.restart

/-- No interpolant.
mirrors src/sec/imc/CraigInterpolatingModelChecker.cpp:4157-4416 -/
def satPass (loop : CraigLoop) (choice : LoopChoice) : LoopOutcome :=
  let localMining :=
    if choice.answer = .sat ∧ choice.skipLocalAuxiliaryMining = false ∧
        loop.localAuxiliaryRetryCount < kCraigLocalAuxiliaryRetryLimit then
      loop.mine S fresh c choice.localMining
    else none
  let selectedMining :=
    if choice.skipLocalAuxiliaryMining then none
    else choice.selectedMining.bind (loop.mine S fresh c)
  match localMining, selectedMining with
  | some mined, _ => .again mined
  | none, some mined => .again mined
  | none, none => refineOrRestart c loop choice

/-- The interpolant is not in `Q` and a growth budget is used up.
mirrors src/sec/imc/CraigInterpolatingModelChecker.cpp:4442-4550 -/
def overBudget (loop : CraigLoop) (choice : LoopChoice) (region : InterpolantRegion) :
    LoopOutcome :=
  let tracked := insertTracked c.problem loop.tracked (choice.budgetRefinement.getD [])
  if tracked.length ≠ loop.tracked.length then
    .stop { loop with tracked := tracked } .noProgress 0
  else if choice.continueSaturated then .again (loop.expand S fresh c region)
  else if choice.advanceLookahead then .again loop.restart
  else .stop loop .budgetExceeded loop.lookahead

/-- mirrors src/sec/imc/CraigInterpolatingModelChecker.cpp:2276-2289 -/
def makeCraigEquivalentResult (loop : CraigLoop) : CraigImcResult where
  status := .equivalent
  iterations := loop.lookahead
  invariantRegions := loop.reachableRegions
  trackedStates := loop.tracked
  auxiliaryStateInvariants := loop.activeAuxiliary

/-- mirrors src/sec/imc/CraigInterpolatingModelChecker.cpp:4417-4567 -/
def unsatPass (loop : CraigLoop) (choice : LoopChoice) (interpolant : CraigInterpolantCnf) :
    LoopOutcome :=
  let region := convertInterpolant S fresh interpolant
  if regionContainedInReachableUnion c.problem loop.tracked c.helperInvariantRegions
      loop.activeAuxiliary S fresh loop.reachableRegions region then
    .done (makeCraigEquivalentResult loop) loop
  else if choice.growthBudgetExceeded then overBudget S fresh c loop choice region
  else .again (loop.expand S fresh c region)

/-- `none` is the exception of a region that mentions an untracked state.
mirrors src/sec/imc/CraigInterpolatingModelChecker.cpp:4121-4572 -/
def loopPass (loop : CraigLoop) (choice : LoopChoice) : Option LoopOutcome :=
  if c.maxLookahead < loop.lookahead then
    some (.stop loop
      (if loop.hasConcreteInitialCube then .concreteNoProgress else .noProgress) c.maxLookahead)
  else if choice.buildBudgetExceeded then some (.stop loop .budgetExceeded loop.lookahead)
  else if (c.helperInvariantRegions ++ loop.reachableRegions).all
      (·.instantiable loop.tracked) = false then none
  else match choice.answer with
    | .unsat interpolant => some (unsatPass S fresh c loop choice interpolant)
    | _ => some (satPass S fresh c loop choice)

/-! ## Rounds -/

/-- `run` takes the result, or starts the next round when the projection has grown.
mirrors src/sec/imc/CraigInterpolatingModelChecker.cpp:4829-4842 -/
def finishRound (projectionRound projectionSize : Nat) (tracked : List Nat)
    (projection : AuxiliaryStateInvariants) (result : CraigImcResult) : CraigState :=
  if result.status = .equivalent ∨ result.iterations ≠ 0 ∨ tracked.length = projectionSize then
    .finished result
  else .round (projectionRound + 1) tracked projection

/-- mirrors src/sec/imc/CraigInterpolatingModelChecker.cpp:4104-4120 -/
def startLoop (projectionRound : Nat) (tracked : List Nat) (auxiliary : AuxiliaryStateInvariants)
    (initial : InterpolantRegion) (concrete : Bool) : CraigState :=
  if craigInvariantExcludesBad c.problem tracked auxiliary S fresh [initial] then
    .looping projectionRound
      { tracked := tracked
        concreteInitialRegion := initial
        hasConcreteInitialCube := concrete
        reachableRegions := [initial]
        activeAuxiliary := auxiliary
        projectionAuxiliary := auxiliary }
  else finishRound projectionRound tracked.length tracked auxiliary
    { status := if concrete then .counterexampleCandidate else .noProgress
      iterations := if concrete then 0 else 1 }

/-- mirrors src/sec/imc/CraigInterpolatingModelChecker.cpp:4074-4120, 4801-4815 -/
def roundStep (projectionRound : Nat) (tracked : List Nat) (auxiliary : AuxiliaryStateInvariants)
    (choice : RoundChoice) : CraigState :=
  if c.problem.stateSymbolSet.length < projectionRound then .finished {}
  else if choice.projectionBudgetExceeded then .finished { status := .budgetExceeded }
  else match buildConcreteAssignmentRegion c.problem.bootstrapStateAssignments tracked with
    | some initial => startLoop S fresh c projectionRound tracked auxiliary initial true
    | none =>
      match choice.answer with
      | .unsat interpolant =>
        startLoop S fresh c projectionRound tracked auxiliary
          (convertInterpolant S fresh interpolant) false
      | _ =>
        let grown := insertTracked c.problem tracked choice.transitionSupport
        finishRound projectionRound tracked.length grown auxiliary
          { iterations := if grown.length = tracked.length then 1 else 0 }

/-- mirrors src/sec/imc/CraigInterpolatingModelChecker.cpp:4062-4844 -/
def craigStep : CraigState → CraigChoice → Option CraigState
  | .round n tracked auxiliary, .round choice => some (roundStep S fresh c n tracked auxiliary choice)
  | .looping n loop, .image choice =>
    match loopPass S fresh c loop choice with
    | some (.again next) => some (.looping n next)
    | some (.done result after) =>
      some (finishRound n loop.tracked.length after.tracked after.projectionAuxiliary result)
    | none => none
  | _, _ => none

/-- What an interpolant promises at each of the two queries; other answers promise
nothing. -/
def Answers (c : CraigConfig) : CraigState → CraigChoice → Prop
  | .round _ tracked auxiliary, .round choice =>
    ∀ cnf, choice.answer = .unsat cnf → cnf.Interpolates (boundedDepth c.problem)
      (boundedA c.problem tracked auxiliary choice.plan) (boundedB c.problem tracked)
  | .looping _ loop, .image choice =>
    ∀ cnf, choice.answer = .unsat cnf →
      cnf.Interpolates 1 (loop.queryA c choice.plan) (loop.queryB c choice.plan)
  | _, _ => True

/-- mirrors src/sec/imc/CraigInterpolatingModelChecker.cpp:4780-4800 -/
def initialAuxiliary : AuxiliaryStateInvariants :=
  KInductionProblem.mergeAuxiliaryStateInvariants
    (c.problem.deriveAuxiliaryStateInvariants S fresh c.enableAuxiliaryInvariants)
    (c.problem.helperAuxiliaryStateInvariantsFromOptions c.helperAuxiliary)

def initialCraigState : CraigState :=
  let tracked := sortedSymbols (seededTrackedStates c.problem c.initialTrackedStates)
  if tracked = [] then .finished { status := .equivalent }
  else .round 0 tracked (initialAuxiliary S fresh c)

/-- Every run of `CraigInterpolatingModelChecker::run`, for every sequence of
decisions and sound answers. -/
def craigChecker : LTS CraigState CraigChoice where
  init s := s = initialCraigState S fresh c
  step s choice s' := Answers c s choice ∧ craigStep S fresh c s choice = some s'

end Solver

end KeplerFormal
