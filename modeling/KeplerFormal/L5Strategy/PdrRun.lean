import KeplerFormal.L4Engine.InvariantCheck
import KeplerFormal.L5Strategy.PdrWorklist
import KeplerFormal.L5Strategy.ReusableInvariant

/-!
# A run of the PDR engine (`src/sec/pdr/PDREngine.cpp`)

The engine keeps frames of clauses. On each level it blocks the bad cubes that a query finds,
obligation by obligation, adds a frame, pushes clauses forward and looks for two frames that
agree.

* `PdrQueries`, `PdrQueryLayer`: the queries, which own the solvers and their caches.
* `generalizeBlockedCube`, `learnBlockedObligation`, `blockProofObligations`: blocking.
* `propagateClauses`: pushing.
* `runWithQueryLimits`: the run. With a cache that is valid for it, it takes the start formula and
  the start facts from there, and every new frame gets the clauses of the shared invariant.

The loops that need not end have fuel. A query that gives up leaves the reason in the context,
and every caller reads it there.
-/
namespace KeplerFormal

open Core

/-- mirrors src/sec/pdr/PDREngine.cpp:1473-1477 (`None` is `none`) -/
inductive PdrBudgetExhaustion where
  | localQuery
  | predecessorQueryCount
  deriving DecidableEq, Repr

/-- mirrors src/sec/pdr/PDREngine.cpp:178-183 -/
inductive PredecessorQueryPurpose where
  | blockObligation
  | generalizeBlocker
  | liftBlocker
  | propagateClause
  deriving DecidableEq, Repr

/-- mirrors src/sec/pdr/PDREngine.cpp:6051-6054 -/
structure PredecessorQueryOutcome where
  hasPredecessor : Bool := false
  predecessor : Option StateCube := none

inductive PdrStop where
  | error (message : String)
  | outOfFuel
  deriving DecidableEq, Repr

/-- What the queries of a run share. `remainingPredecessorQueries` is `none` without a limit. -/
structure PdrContext (κ : Type) where
  caches : κ
  exhausted : Option PdrBudgetExhaustion := none
  remainingPredecessorQueries : Option Nat := none

abbrev PdrQuery (κ α : Type) := Program PdrStop (PdrContext κ) α

/-- The queries of a run over frames, a level and a cube. -/
structure PdrQueries (κ : Type) where
  findBadCube : List FrameClauses → Nat → PdrQuery κ (Option StateCube)
  /-- the flag excludes the cube itself in the current frame -/
  findPredecessorCube : List FrameClauses → Nat → StateCube → Bool → PredecessorQueryPurpose →
    PdrQuery κ PredecessorQueryOutcome
  cubeIntersectsInit : StateCube → PdrQuery κ Bool
  cachedPredecessorUnsatCoreForCube : List FrameClauses → Nat → StateCube → Bool →
    PdrQuery κ (Option StateCube)
  retireGeneralizationStatusQ2Selectors : κ → κ

structure PdrState (κ : Type) where
  frames : List FrameClauses
  context : PdrContext κ

abbrev PdrProgram (κ α : Type) := Program PdrStop (PdrState κ) α

/-- A frame gets a clause. -/
def addClauseAt (level : Nat) (clause : StateClause) (frames : List FrameClauses) :
    List FrameClauses :=
  frames.modify level fun frame => (addClauseToFrame frame clause).1

/-- mirrors src/sec/pdr/PDREngine.cpp:3361-3369 -/
def addClauseToFrames (frames : List FrameClauses) (clause : StateClause) (maxLevel : Nat) :
    List FrameClauses :=
  (List.range' 1 maxLevel).foldl (fun frames level => addClauseAt level clause frames) frames

/-! ## Proof obligations -/

/-- mirrors src/sec/pdr/PDREngine.cpp:588-594 -/
structure ProofObligation where
  cube : StateCube
  level : Nat
  badFrame : Nat
  sequence : Nat := 0
  deriving DecidableEq

/-- mirrors src/sec/pdr/PDREngine.cpp:596-606 and 7060-7066 -/
def proofObligationKey (obligation : ProofObligation) : Nat × Nat × StateCube :=
  (obligation.level, obligation.badFrame, obligation.cube)

/-- mirrors src/sec/pdr/PDREngine.cpp:60-69 -/
def pdrProofObligationPriorityLess (lhsLevel lhsSequence rhsLevel rhsSequence : Nat) : Bool :=
  if lhsLevel ≠ rhsLevel then decide (lhsLevel < rhsLevel) else decide (rhsSequence < lhsSequence)

/-- The obligations by priority; the keys of the source are those of the obligations.
mirrors src/sec/pdr/PDREngine.cpp:7083-7126 -/
structure ProofObligationQueue where
  queue : List ProofObligation := []
  nextSequence : Nat := 0

namespace ProofObligationQueue
variable (q : ProofObligationQueue)

/-- An obligation that is queued already is not queued again. -/
def enqueue (obligation : ProofObligation) : ProofObligationQueue :=
  if q.queue.any fun queued => proofObligationKey queued == proofObligationKey obligation then q
  else
    { queue := q.queue.orderedInsert
        (fun a b => pdrProofObligationPriorityLess a.level a.sequence b.level b.sequence = true)
        { obligation with sequence := q.nextSequence }
      nextSequence := q.nextSequence + 1 }

def pop : Option (ProofObligation × ProofObligationQueue) :=
  match q.queue with
  | [] => none
  | obligation :: rest => some (obligation, { q with queue := rest })

/-- mirrors src/sec/pdr/PDREngine.cpp:7104-7119 -/
def enqueueNext (obligation : ProofObligation) (rootLevel : Nat) : ProofObligationQueue :=
  if rootLevel ≤ obligation.level then q
  else q.enqueue { obligation with
    level := obligation.level + 1
    badFrame := obligation.badFrame + 1 }

end ProofObligationQueue

/-- mirrors src/sec/pdr/PDREngine.cpp:7026-7031 -/
def obligationAlreadyBlocked (frames : List FrameClauses) (obligation : ProofObligation) : Bool :=
  frameHasSubsumingClause (frameAt frames obligation.level) (clauseFromCube obligation.cube)

/-- mirrors src/sec/pdr/PDREngine.cpp:7314-7321 -/
def buildSeedClauses : List StateClause := []

/-- A frame before anything is learned: `sharedExactInit` is the cache that a run shares.
mirrors src/sec/pdr/PDREngine.cpp:8030-8034 and 8074-8078 -/
def newFrame (sharedExactInit : Option PDRExactInitCache) : FrameClauses :=
  let frame : FrameClauses := { clauses := buildSeedClauses, addedClauseLog := [] }
  match sharedExactInit with
  | none => frame
  | some cache => cache.injectReusableInvariantClauses frame

def kMaxInitExcludedCubeGeneralizationAttempts : Nat := 2

namespace PDREngine

section
variable {κ α : Type}

/-- A query reads the frames and changes the context. -/
def ask (query : List FrameClauses → PdrQuery κ α) : PdrProgram κ α := fun s => do
  let (answer, context) ← query s.frames s.context
  return (answer, { s with context })

def changeFrames (change : List FrameClauses → List FrameClauses) : PdrProgram κ Unit :=
  modify fun s => { s with frames := change s.frames }

/-- mirrors src/sec/pdr/PDREngine.cpp:1513-1515 -/
def hasPdrBudgetExhaustion : PdrProgram κ Bool := do
  let s ← get
  return s.context.exhausted.isSome

/-- mirrors src/sec/pdr/PDREngine.cpp:1517-1520 -/
def hasPdrPredecessorQueryCountExhaustion : PdrProgram κ Bool := do
  let s ← get
  return s.context.exhausted == some .predecessorQueryCount

/-- mirrors src/sec/pdr/PDREngine.cpp:1499-1501 -/
def resetPdrBudgetExhaustion : PdrProgram κ Unit :=
  modify fun s => { s with context := { s.context with exhausted := none } }

variable (Q : PdrQueries κ)

def intersectsInit (cube : StateCube) : PdrProgram κ Bool := ask fun _ => Q.cubeIntersectsInit cube

/-! ## Generalization -/

/-- One literal of the target cube joins the core.
mirrors src/sec/pdr/PDREngine.cpp:6790-6811 -/
def growCoreByLiteral (literal : CubeLiteral) (candidate : StateCube) :
    PdrProgram κ (StateCube ⊕ StateCube) := do
  if (findCubeLiteralValue candidate literal.symbol).isSome then return .inl candidate
  else
    let grown := normalizeCube (candidate ++ [literal])
    if ← intersectsInit Q grown then return .inl grown else return .inr grown

/-- mirrors src/sec/pdr/PDREngine.cpp:6774-6812 -/
def growCoreOutsideInit (core targetCube : StateCube) : PdrProgram κ (Option StateCube) := do
  if ← intersectsInit Q core then
    match ← Program.scan (growCoreByLiteral Q) targetCube core with
    | .inl _ => return none
    | .inr candidate => return some candidate
  else return some core

/-- mirrors src/sec/pdr/PDREngine.cpp:6843-6872 -/
def cachedCore (level : Nat) (cube : StateCube) : PdrProgram κ (Option StateCube) := do
  let core ← ask fun frames => Q.cachedPredecessorUnsatCoreForCube frames (level - 1) cube true
  match core with
  | none => return none
  | some core =>
    if cube.length ≤ core.length then return none else growCoreOutsideInit Q core cube

/-- mirrors src/sec/pdr/PDREngine.cpp:6874-6911 -/
def generalize (level : Nat) (reduced : StateCube) : PdrProgram κ (Option StateCube) := do
  if reduced = [] then return none
  else if ← intersectsInit Q reduced then return none
  else
    let predecessor ← ask fun frames =>
      Q.findPredecessorCube frames (level - 1) reduced true .generalizeBlocker
    if (← hasPdrBudgetExhaustion) || predecessor.hasPredecessor then return none
    else
      match ← cachedCore Q level reduced with
      | some core => return some core
      | none => return some reduced

/-- One literal is left out when the rest can be blocked.
mirrors src/sec/pdr/PDREngine.cpp:6964-6983 -/
def tryWithoutLiteral (level : Nat) (literal : CubeLiteral) (generalized : StateCube) :
    PdrProgram κ (StateCube ⊕ StateCube) := do
  if generalized.length ≤ 1 then return .inr generalized
  else if literal ∉ generalized then return .inl generalized
  else
    let result ← generalize Q level (generalized.erase literal)
    if ← hasPdrBudgetExhaustion then return .inr generalized
    else return .inl (result.getD generalized)

def retireSelectors : PdrProgram κ Unit :=
  modify fun s => { s with context := { s.context with
    caches := Q.retireGeneralizationStatusQ2Selectors s.context.caches } }

/-- mirrors src/sec/pdr/PDREngine.cpp:6929-7001 -/
def generalizeBlockedCube (level : Nat) (cube : StateCube) : PdrProgram κ StateCube := do
  let core ← cachedCore Q level cube
  let literalsToTry := core.getD cube
  let generalized ← Program.scan (tryWithoutLiteral Q level) literalsToTry literalsToTry
  retireSelectors Q
  return generalized.elim id id

/-- The literal at the index is left out when the rest is outside the start states too; there
are `attempts` left.
mirrors src/sec/pdr/PDREngine.cpp:7045-7056 -/
def dropInitExcludedLiterals : Nat → Nat → StateCube → PdrProgram κ StateCube
  | 0, _, candidate => return candidate
  | attempts + 1, index, candidate => do
    if candidate.length ≤ index then return candidate
    else if ← intersectsInit Q (candidate.eraseIdx index) then
      dropInitExcludedLiterals attempts (index + 1) candidate
    else dropInitExcludedLiterals attempts index (candidate.eraseIdx index)

/-- mirrors src/sec/pdr/PDREngine.cpp:7033-7058 -/
def generalizeInitExcludedCube (cube : StateCube) : PdrProgram κ StateCube :=
  dropInitExcludedLiterals Q kMaxInitExcludedCubeGeneralizationAttempts 0 cube

/-! ## Blocking -/

/-- The highest level at which the cube is inductive relative to the frame below, and at most
`levels` above the given one.
mirrors src/sec/pdr/PDREngine.cpp:7147-7161 -/
def liftBlocker (cube : StateCube) : Nat → Nat → PdrProgram κ Nat
  | 0, learnedLevel => return learnedLevel
  | levels + 1, learnedLevel => do
    let predecessor ← ask fun frames =>
      Q.findPredecessorCube frames learnedLevel cube true .liftBlocker
    if (← hasPdrBudgetExhaustion) || predecessor.hasPredecessor then return learnedLevel
    else liftBlocker cube levels (learnedLevel + 1)

/-- mirrors src/sec/pdr/PDREngine.cpp:7128-7173 -/
def learnBlockedObligation (rootLevel : Nat) (obligation : ProofObligation) :
    PdrProgram κ Unit := do
  let cube ← generalizeBlockedCube Q obligation.level obligation.cube
  let learnedLevel ← liftBlocker Q cube (rootLevel - (obligation.level + 1)) obligation.level
  changeFrames fun frames => addClauseToFrames frames (clauseFromCube cube) learnedLevel

variable (initFacts : InitFactIndex)

/-- An obligation at level 0: a clause that excludes it, or the frame of a counterexample.
mirrors src/sec/pdr/PDREngine.cpp:7202-7251 -/
def excludeFromInit (obligation : ProofObligation) : PdrProgram κ (Option Nat) := do
  match initFacts.knownInitConflictCube obligation.cube with
  | some conflictCube =>
    changeFrames (addClauseAt 0 (clauseFromCube conflictCube))
    return none
  | none =>
    if ← intersectsInit Q obligation.cube then return some obligation.badFrame
    else
      let generalizedCube ← generalizeInitExcludedCube Q obligation.cube
      changeFrames (addClauseAt 0 (clauseFromCube generalizedCube))
      return none

/-- An obligation above level 0. The loop ends with the frame of a counterexample, or with
`none` when a budget is exhausted.
mirrors src/sec/pdr/PDREngine.cpp:7253-7308 -/
def blockObligation (rootLevel : Nat) (obligation : ProofObligation)
    (queue : ProofObligationQueue) : PdrProgram κ (ProofObligationQueue ⊕ Option Nat) := do
  if ← intersectsInit Q obligation.cube then return .inr (some obligation.badFrame)
  else
    let predecessor ← ask fun frames =>
      Q.findPredecessorCube frames (obligation.level - 1) obligation.cube true .blockObligation
    if ← hasPdrBudgetExhaustion then return .inr none
    else if predecessor.hasPredecessor then
      match predecessor.predecessor with
      | none => throw (.error "PDR blocking predecessor model was not extracted")
      | some cube =>
        return .inl ((queue.enqueue obligation).enqueue
          { cube, level := obligation.level - 1, badFrame := obligation.badFrame })
    else
      learnBlockedObligation Q rootLevel obligation
      if ← hasPdrBudgetExhaustion then return .inr none
      else return .inl (queue.enqueueNext obligation rootLevel)

/-- One turn of the loop over the queue.
mirrors src/sec/pdr/PDREngine.cpp:7195-7308 -/
def processObligation (rootLevel : Nat) (queue : ProofObligationQueue) :
    PdrProgram κ (ProofObligationQueue ⊕ Option Nat) := do
  match queue.pop with
  | none => return .inr none
  | some (obligation, queue) =>
    let s ← get
    if obligationAlreadyBlocked s.frames obligation then return .inl queue
    else if obligation.level = 0 then
      match ← excludeFromInit Q initFacts obligation with
      | some badFrame => return .inr (some badFrame)
      | none => return .inl queue
    else blockObligation Q rootLevel obligation queue

/-- The frame of a counterexample, if there is one.
mirrors src/sec/pdr/PDREngine.cpp:7175-7312 -/
def blockProofObligations (fuel : Nat) (badCube : StateCube) (rootLevel : Nat) :
    PdrProgram κ (Option Nat) :=
  Program.iterate .outOfFuel (processObligation Q initFacts rootLevel) fuel
    (({} : ProofObligationQueue).enqueue
      { cube := badCube, level := rootLevel, badFrame := rootLevel })

/-! ## Propagation -/

/-- One clause of a level; `.inr` ends the propagation.
mirrors src/sec/pdr/PDREngine.cpp:7387-7437 -/
def propagateClause (level : Nat) (clause : StateClause) (_ : Unit) :
    PdrProgram κ (Unit ⊕ Unit) := do
  let s ← get
  if frameHasSubsumingClause (frameAt s.frames (level + 1)) clause then return .inl ()
  else
    let predecessor ← ask fun frames =>
      Q.findPredecessorCube frames level (cubeFromClauseNegation clause) false .propagateClause
    if ← hasPdrBudgetExhaustion then
      if ← hasPdrPredecessorQueryCountExhaustion then return .inr ()
      else
        resetPdrBudgetExhaustion
        return .inl ()
    else if predecessor.hasPredecessor then return .inl ()
    else
      changeFrames (addClauseAt (level + 1) clause)
      return .inl ()

/-- The clauses of a level as they are when the level is reached. -/
def propagateLevel (level : Nat) (_ : Unit) : PdrProgram κ (Unit ⊕ Unit) := do
  let s ← get
  Program.scan (propagateClause Q level) (frameAt s.frames level).clauses ()

/-- mirrors src/sec/pdr/PDREngine.cpp:7371-7442 -/
def propagateClauses (maxLevel : Nat) : PdrProgram κ Unit := do
  let _ ← Program.scan (propagateLevel Q) (List.range' 1 maxLevel) ()
  return

/-! ## The frame loop -/

/-- One bad cube of a level is found and blocked. The loop ends with `none` when there is no
bad cube left, and else with the result of the run.
mirrors src/sec/pdr/PDREngine.cpp:8036-8071 -/
def blockBadCube (fuel level : Nat) (_ : Unit) : PdrProgram κ (Unit ⊕ Option PDRResult) := do
  let badCube ← ask fun frames => Q.findBadCube frames level
  if ← hasPdrBudgetExhaustion then return .inr (some ⟨.inconclusive, level⟩)
  else
    match badCube with
    | none => return .inr none
    | some cube =>
      match ← blockProofObligations Q initFacts fuel cube level with
      | some badFrame =>
        if ← hasPdrBudgetExhaustion then return .inr (some ⟨.inconclusive, level⟩)
        else return .inr (some ⟨.different, badFrame⟩)
      | none =>
        if ← hasPdrBudgetExhaustion then return .inr (some ⟨.inconclusive, level⟩)
        else return .inl ()

/-- The first level that agrees with the next one.
mirrors src/sec/pdr/PDREngine.cpp:8093-8099 -/
def convergenceLevel (frames : List FrameClauses) (level : Nat) : Option Nat :=
  (List.range' 1 level).find? fun i => framesConverged (frameAt frames i) (frameAt frames (i + 1))

variable (sharedExactInit : Option PDRExactInitCache)

/-- mirrors src/sec/pdr/PDREngine.cpp:8036-8100 -/
def exploreLevel (fuel level : Nat) (_ : Unit) : PdrProgram κ (Unit ⊕ PDRResult) := do
  match ← Program.iterate .outOfFuel (blockBadCube Q initFacts fuel level) fuel () with
  | some result => return .inr result
  | none =>
    changeFrames (· ++ [newFrame sharedExactInit])
    propagateClauses Q level
    if ← hasPdrBudgetExhaustion then return .inr ⟨.inconclusive, level⟩
    else
      let s ← get
      match convergenceLevel s.frames level with
      | some i => return .inr ⟨.equivalent, i⟩
      | none => return .inl ()

/-- From the first query on.
mirrors src/sec/pdr/PDREngine.cpp:7989-8108 -/
def explore (hasStates : Bool) (fuel maxFrames : Nat) : PdrProgram κ PDRResult := do
  let badCube ← ask fun frames => Q.findBadCube frames 0
  if badCube.isSome then return ⟨.different, 0⟩
  else if ← hasPdrBudgetExhaustion then return ⟨.inconclusive, 0⟩
  else if !hasStates then return ⟨.equivalent, 0⟩
  else if maxFrames = 0 then return ⟨.inconclusive, 0⟩
  else
    changeFrames (· ++ [newFrame sharedExactInit])
    match ← Program.scan (exploreLevel Q initFacts sharedExactInit fuel)
        (List.range' 1 maxFrames) () with
    | .inl () => return ⟨.inconclusive, maxFrames⟩
    | .inr result => return result

end

/-! ## The run -/

section
variable (p : KInductionProblem)

/-- mirrors src/sec/proof/ProofEngineShared.cpp:454-472 -/
def isProofFormulaSatisfiable {σ : Type} (S : FrameSolver σ) (fresh : σ) (formula : BoolExpr) :
    Bool :=
  match (S.solve fresh [[encode 0 formula]] [] .unlimited).1 with
  | .sat _ => true
  | _ => false

/-- mirrors src/sec/proof/ProofEngineShared.cpp:474-485 -/
def initialFrontierImplies {σ : Type} (S : FrameSolver σ) (fresh : σ)
    (initFormula invariant : BoolExpr) : Bool :=
  !isProofFormulaSatisfiable S fresh (BoolExpr.And initFormula (BoolExpr.Not invariant))

/-- mirrors src/sec/proof/ProofEngineShared.cpp:487-500 -/
def selectValidatedStrengtheningInvariant {σ : Type} (S : FrameSolver σ) (fresh : σ)
    (initFormula : BoolExpr) : Option BoolExpr :=
  match p.inductionProperty with
  | none => none
  | some e =>
    if e = p.property then none
    else if initialFrontierImplies S fresh initFormula e then some e
    else none

/-- mirrors src/sec/pdr/PDREngine.cpp:7323-7369 -/
def selectPdrFrameInvariant {σ : Type} (S : FrameSolver σ) (fresh : σ) (initFormula : BoolExpr) :
    Except String (Option BoolExpr) :=
  match selectValidatedStrengtheningInvariant p S fresh initFormula with
  | none => return none
  | some candidate =>
    if initialFrontierImplies S fresh initFormula candidate then do
      let inductive? ← ProofEngineShared.isInductiveInvariant p S fresh (some candidate) none
      return if inductive? then some candidate else none
    else return none

/-- The problem with the normalized property; another property brings no induction hypothesis.
mirrors src/sec/pdr/PDREngine.cpp:7842-7864 -/
def runProblem (property : BoolExpr) : KInductionProblem :=
  if property = p.property ∧ p.property = property.simplify ∧
      p.bad = (BoolExpr.Not property.simplify).simplify then p
  else
    { p with
      property := property.simplify
      bad := (BoolExpr.Not property.simplify).simplify
      inductionProperty := if property = p.property then p.inductionProperty else none
      inductionBad := if property = p.property then p.inductionBad else none }

end

/-- The queries of runs. `queries` has the problem whose transitions are encoded, the problem of the
run, the start formula, the frame invariant, and whether the bad states are looked for output by
output. `enter` drops what a run does not leave to the next one. -/
structure PdrQueryLayer (κ : Type) where
  enter : κ → κ
  queries : KInductionProblem → KInductionProblem → BoolExpr → Option BoolExpr → Bool → PdrQueries κ
  certification : KInductionProblem → BoolExpr → CertificationQueries κ

/-- What outlives a run. -/
structure PdrCaches (κ : Type) where
  exactInitCache : Option PDRExactInitCache
  queryCaches : κ

/-- The caches of a route: where runs share one, it is made for a problem and a solver.
mirrors src/sec/pdr/PDREngine.cpp:1464-1468 -/
def newCaches {κ : Type} (shared : Option (KInductionProblem × SolverType)) (queryCaches : κ) :
    PdrCaches κ where
  exactInitCache := shared.map fun s => { sourceProblem := s.1, solverType := s.2 }
  queryCaches := queryCaches

/-- A run of the engine: what it is constructed with, and what it is asked. The limits of its
queries belong to the queries. -/
structure PdrCall (κ : Type) where
  layer : PdrQueryLayer κ
  problem : KInductionProblem
  solverType : SolverType
  /-- 0 is unlimited -/
  maxPredecessorQueries : Nat
  maxFrames : Nat
  property : BoolExpr
  /-- for the loops that need not end -/
  fuel : Nat

section
variable {κ : Type} (call : PdrCall κ)

/-- A cache for another model is not used.
mirrors src/sec/pdr/PDREngine.cpp:7872-7876 -/
def sharedExactInit (cache : Option PDRExactInitCache) : Option PDRExactInitCache :=
  cache.filter fun cache => cache.validFor call.problem call.solverType

/-- The problem whose start formula the run has.
mirrors src/sec/pdr/PDREngine.cpp:7784-7785 -/
def exactInitSource (sharedExactInit : Option PDRExactInitCache) : KInductionProblem :=
  match sharedExactInit with
  | some cache => cache.sourceProblem
  | none => call.problem

/-- mirrors src/sec/pdr/PDREngine.cpp:8013-8026 -/
def runInitFacts (sharedExactInit : Option PDRExactInitCache) : InitFactIndex :=
  match sharedExactInit with
  | some cache => cache.initFacts.getD cache.sourceProblem.buildInitFactIndex
  | none => (runProblem call.problem call.property).buildInitFactIndex

/-- The cache before the first query of the run.
mirrors src/sec/pdr/PDREngine.cpp:7983-7985 -/
def refreshed (sharedExactInit : Option PDRExactInitCache) (initFormula : BoolExpr)
    (caches : κ) : Option PDRExactInitCache × κ :=
  match sharedExactInit with
  | none => (none, caches)
  | some cache =>
    let result := (cache.refreshReusableInvariant
      (call.layer.certification cache.sourceProblem initFormula)).total caches
    (some result.1, result.2)

/-- The cache after the run. The start facts are built before the first frame is added.
mirrors src/sec/pdr/PDREngine.cpp:3463-3486 and 8017-8023 -/
def recordReusableInvariantCandidates (cache : PDRExactInitCache) (frames : List FrameClauses) :
    PDRExactInitCache :=
  (if 1 < frames.length then
    { cache with
      initFacts := some (cache.initFacts.getD cache.sourceProblem.buildInitFactIndex) }
  else cache).storeReusableInvariantCandidates frames

/-- What a run leaves: a cache that is not shared stays as it is. -/
def leaves (sharedExactInit exactInitCache : Option PDRExactInitCache) (state : PdrState κ) :
    PdrCaches κ where
  exactInitCache := match sharedExactInit with
    | some cache => some (recordReusableInvariantCandidates cache state.frames)
    | none => exactInitCache
  queryCaches := state.context.caches

/-- mirrors src/sec/pdr/PDREngine.cpp:7832-8108 -/
def runWithQueryLimits {σ : Type} (S : FrameSolver σ) (fresh : σ) (caches : PdrCaches κ) :
    Except PdrStop (PDRResult × PdrCaches κ) := do
  let shared := sharedExactInit call caches.exactInitCache
  let initFormula ← (exactInitSource call shared).buildExactPdrInitFormula.mapError .error
  let frameInvariant ← (selectPdrFrameInvariant call.problem S fresh initFormula).mapError .error
  let problem := runProblem call.problem call.property
  let Q := call.layer.queries ((shared.map (·.sourceProblem)).getD problem) problem initFormula
    frameInvariant (decide (call.property = call.problem.property))
  let start := refreshed call shared initFormula caches.queryCaches
  let (result, state) ← explore Q (runInitFacts call start.1) start.1
    (problem.combinedStateSymbols != []) call.fuel call.maxFrames
    { frames := [{ clauses := [], addedClauseLog := [] }]
      context := { caches := call.layer.enter start.2
                   remainingPredecessorQueries :=
                     if call.maxPredecessorQueries = 0 then none
                     else some call.maxPredecessorQueries } }
  return (result, leaves start.1 caches.exactInitCache state)

/-- Calls one after the other, each with what the one before has left. -/
def runCalls {σ : Type} (S : FrameSolver σ) (fresh : σ) :
    List (PdrCall κ) → PdrCaches κ → Except PdrStop (List PDRResult × PdrCaches κ)
  | [], caches => return ([], caches)
  | call :: calls, caches => do
    let (result, caches) ← runWithQueryLimits call S fresh caches
    let (results, caches) ← runCalls S fresh calls caches
    return (result :: results, caches)

end

end PDREngine

end KeplerFormal
