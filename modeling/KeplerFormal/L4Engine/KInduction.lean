import KeplerFormal.L3Query.BaseRuns
import KeplerFormal.L3Query.InductionStep

/-!
# The k-induction engine (`src/sec/kinduction/KInductionEngine.cpp`)

A problem with several outputs is proved in ranges of outputs, one that does not close is
split in halves; a range may assume the conjunction of a wider set of outputs in its
induction window. Leaves that stayed inconclusive are remembered in the store of the
lazy transitions, which the problems of one strategy share.

* `PublicConjunctionHypothesis`, `ResidualStore`: what a range may assume, and what is
  remembered between the runs.
* `runMonolithicKInduction`: base case, steps and frontier checks of one problem.
* `runOutputRangeKInduction`, `runOutputBatchedKInduction`, `runSingleOutputKInduction`:
  the routes, and `KInductionEngine.run` that chooses one.

The solver and the store are passed along. Limits that come from the environment are an
argument. A frontier check over several outputs may throw, and the engine with it.
-/
namespace KeplerFormal

open Core

def kMinOutputsForBatchedProof : Nat := 2

def kMinOriginalOutputsForBoundedBatch : Nat := 64

def kMinDeferredRailStateSymbolsForEarlyStop : Nat := 512

def kHugeDeferredRailStateSymbolsForEarlyStop : Nat := 65536

def kDefaultDeferredDualRailLeafResourceLimitStops : Nat := 4

def kHugeDeferredDualRailLeafResourceLimitStops : Nat := 1

def kMaxCompactDualRailConjunctionOutputs : Nat := 32

def kMaxWideDualRailSplitHypothesisOutputs : Nat := 8

def kMaxFullDualRailPublicHypothesisOutputs : Nat := 256

def kMaxStoredPublicSplitHypothesisOutputs : Nat := 32

def kMaxFullDualRailPublicHypothesisStateSymbols : Nat := 4096

def kDefaultBatchedInductionDecisionLimit : Nat := 200000

def kDefaultDualRailInductionDecisionLimit : Nat := 5000

/-- `readUnsignedEnv` of `KEPLER_SEC_KI_BATCH_DECISION_LIMIT`,
`KEPLER_SEC_KI_DUAL_RAIL_LEAF_DECISION_LIMIT` and
`KEPLER_SEC_KI_DUAL_RAIL_BATCH_DECISION_LIMIT`. -/
structure KInductionEnv where
  batchDecisionLimit : Option Nat := none
  dualRailLeafDecisionLimit : Option Nat := none
  dualRailBatchDecisionLimit : Option Nat := none
  deriving DecidableEq, Repr

/-- mirrors src/sec/kinduction/KInductionEngine.h:15-46 -/
inductive KInductionStatus where
  | equivalent
  | different
  | inconclusive
  deriving DecidableEq, Repr

structure KInductionResult where
  status : KInductionStatus
  bound : Nat
  witness : Option Nat := none
  deriving DecidableEq, Repr

/-- mirrors src/sec/kinduction/KInductionEngine.cpp:112-117 -/
structure PublicConjunctionHypothesis where
  property : Option BoolExpr := none
  bad : Option BoolExpr := none
  outputCount : Nat := 0
  completePublicSurface : Bool := false
  deriving DecidableEq, Repr

/-- mirrors src/sec/kinduction/KInductionProblem.h:40-63 -/
structure DualRailResidualPublicKiAttempt where
  outputExpr0 : BoolExpr
  outputExpr1 : BoolExpr
  inductionProperty : Option BoolExpr
  inductionBad : Option BoolExpr
  inductionOutputCount : Nat
  solverType : SolverType
  attemptedMaxK : Nat
  resultBound : Nat
  deriving DecidableEq, Repr

/-- The part of `LazyTransitionStore` that the proofs write.
mirrors src/sec/kinduction/KInductionProblem.h:88-99 -/
structure ResidualStore where
  dualRailResidualPublicProperty : Option BoolExpr := none
  dualRailResidualPublicBad : Option BoolExpr := none
  dualRailResidualPublicOutputCount : Nat := 0
  attempts : List DualRailResidualPublicKiAttempt := []
  deriving DecidableEq, Repr

namespace ResidualStore

/-- mirrors src/sec/kinduction/KInductionProblem.h:50-62 -/
def sameAttempt (a b : DualRailResidualPublicKiAttempt) : Bool :=
  a.outputExpr0 = b.outputExpr0 && a.outputExpr1 = b.outputExpr1 &&
    a.inductionProperty = b.inductionProperty && a.inductionBad = b.inductionBad &&
    a.inductionOutputCount = b.inductionOutputCount && a.solverType = b.solverType

/-- mirrors src/sec/kinduction/KInductionProblem.h:101-126 -/
def findInconclusiveAttempt (store : ResidualStore) (wanted : DualRailResidualPublicKiAttempt) :
    Option Nat :=
  (store.attempts.find? fun a =>
    sameAttempt a wanted && decide (wanted.attemptedMaxK ≤ a.attemptedMaxK)).map (·.resultBound)

/-- mirrors src/sec/kinduction/KInductionProblem.h:146-180 -/
def rememberInconclusiveAttempt (store : ResidualStore) (new : DualRailResidualPublicKiAttempt) :
    ResidualStore :=
  if store.attempts.any (sameAttempt · new) then
    let widened (a : DualRailResidualPublicKiAttempt) : DualRailResidualPublicKiAttempt :=
      { a with
        attemptedMaxK := max a.attemptedMaxK new.attemptedMaxK
        resultBound := max a.resultBound new.resultBound }
    { store with attempts := store.attempts.map fun a => if sameAttempt a new then widened a else a }
  else { store with attempts := store.attempts ++ [new] }

end ResidualStore

namespace KInductionProblem
variable (p : KInductionProblem)

/-! ## Limits -/

/-- mirrors src/sec/kinduction/KInductionEngine.cpp:63-67 -/
def originalOutputCountForProblem : Nat :=
  if p.originalObservedOutputCount = 0 then p.observedOutputExprs0.length
  else p.originalObservedOutputCount

def isWideDualRailResidualSurface : Bool :=
  decide (kMinOriginalOutputsForBoundedBatch ≤ p.originalOutputCountForProblem)

def isLargeDeferredDualRailLeafSurface : Bool :=
  p.deferBaseCaseChecks &&
    decide (kMinDeferredRailStateSymbolsForEarlyStop ≤ p.dualRailStateSymbolCount)

/-- mirrors src/sec/kinduction/KInductionEngine.cpp:87-103 -/
def shouldBoundDualRailBatchInduction : Bool :=
  if !p.usesDualRailStateEncoding || decide (p.observedOutputExprs0.length ≤ 1) then false
  else if p.originalOutputCountForProblem ≤ kMaxCompactDualRailConjunctionOutputs ∧
      p.dualRailStateSymbolCount < kMinDeferredRailStateSymbolsForEarlyStop then true
  else p.isWideDualRailResidualSurface ||
    decide (kMinDeferredRailStateSymbolsForEarlyStop ≤ p.dualRailStateSymbolCount)

/-- mirrors src/sec/kinduction/KInductionEngine.cpp:105-110 -/
def isCompactDualRailPublicConjunctionSurface : Bool :=
  p.usesDualRailStateEncoding &&
    decide (p.originalOutputCountForProblem ≤ kMaxCompactDualRailConjunctionOutputs) &&
    decide (p.dualRailStateSymbolCount < kMinDeferredRailStateSymbolsForEarlyStop)

/-- mirrors src/sec/kinduction/KInductionEngine.cpp:387-399 -/
def dualRailLeafInductionDecisionLimit (env : KInductionEnv) : Option Nat :=
  match env.dualRailLeafDecisionLimit with
  | some limit => some limit
  | none =>
    if !p.isWideDualRailResidualSurface && !p.isLargeDeferredDualRailLeafSurface then none
    else some kDefaultDualRailInductionDecisionLimit

/-- mirrors src/sec/kinduction/KInductionEngine.cpp:401-444 -/
def batchedInductionDecisionLimit (env : KInductionEnv) (solverType : SolverType) : Option Nat :=
  if solverType ≠ .kissat then none
  else if p.usesDualRailStateEncoding && decide (p.observedOutputExprs0.length ≤ 1) then
    p.dualRailLeafInductionDecisionLimit env
  else if p.observedOutputExprs0.length ≤ 1 then none
  else if !p.usesDualRailStateEncoding then
    some (env.batchDecisionLimit.getD kDefaultBatchedInductionDecisionLimit)
  else match env.dualRailBatchDecisionLimit with
    | some limit => some limit
    | none =>
      if !p.shouldBoundDualRailBatchInduction then none
      else some (env.batchDecisionLimit.getD kDefaultDualRailInductionDecisionLimit)

/-- mirrors src/sec/kinduction/KInductionEngine.cpp:460-470 -/
def shouldCheckLocalBaseCase : Bool := !p.deferBaseCaseChecks

def proofNeedsConcreteFrontierValidation : Bool :=
  p.resetBootstrapCycles != 0 || p.inductionProperty.isSome || p.inductionBad.isSome

/-- mirrors src/sec/kinduction/KInductionEngine.cpp:472-500 -/
def isDeferredDualRailLeafProof : Bool :=
  p.deferBaseCaseChecks && p.usesDualRailStateEncoding &&
    decide (p.observedOutputExprs0.length ≤ 1)

def shouldStopDeferredDualRailLeafAfterResourceLimit (resourceLimitedSteps : Nat) : Bool :=
  if !p.isDeferredDualRailLeafProof || !p.isLargeDeferredDualRailLeafSurface then false
  else decide ((if kHugeDeferredRailStateSymbolsForEarlyStop ≤ p.dualRailStateSymbolCount then
    kHugeDeferredDualRailLeafResourceLimitStops
    else kDefaultDeferredDualRailLeafResourceLimitStops) ≤ resourceLimitedSteps)

/-- mirrors src/sec/kinduction/KInductionEngine.cpp:622-625 -/
def countResourceLimitedStep (resourceLimitedSteps : Nat) : Nat :=
  if p.isDeferredDualRailLeafProof then resourceLimitedSteps + 1 else resourceLimitedSteps

/-! ## Hypotheses -/

/-- mirrors src/sec/kinduction/KInductionEngine.cpp:119-137 -/
def maxDualRailSplitHypothesisOutputs : Nat :=
  if p.isCompactDualRailPublicConjunctionSurface then kMaxCompactDualRailConjunctionOutputs
  else kMaxWideDualRailSplitHypothesisOutputs

def canUseFullPublicConjunctionHypothesis : Bool :=
  p.usesDualRailStateEncoding &&
    decide (p.observedOutputExprs0.length ≤ kMaxFullDualRailPublicHypothesisOutputs) &&
    decide (p.dualRailStateSymbolCount ≤ kMaxFullDualRailPublicHypothesisStateSymbols)

/-- `p` is the source problem.
mirrors src/sec/kinduction/KInductionEngine.cpp:139-156 -/
def shouldApplyPublicConjunctionHypothesis (batch : KInductionProblem)
    (hypothesis : PublicConjunctionHypothesis) : Bool :=
  let isFullPublicHypothesis := hypothesis.property == some p.property &&
    hypothesis.bad == some p.bad && p.canUseFullPublicConjunctionHypothesis
  p.usesDualRailStateEncoding && hypothesis.property.isSome && hypothesis.bad.isSome &&
    decide (batch.observedOutputExprs0.length < hypothesis.outputCount) &&
    (hypothesis.completePublicSurface || isFullPublicHypothesis ||
      decide (hypothesis.outputCount ≤ p.maxDualRailSplitHypothesisOutputs))

/-- mirrors src/sec/kinduction/KInductionEngine.cpp:306-313 -/
def makePublicConjunctionHypothesis : PublicConjunctionHypothesis :=
  ⟨some p.property, some p.bad, p.observedOutputExprs0.length, false⟩

/-- mirrors src/sec/kinduction/KInductionEngine.cpp:315-338 -/
def storedResidualPublicConjunctionHypothesis (store : ResidualStore) :
    PublicConjunctionHypothesis :=
  if !p.usesDualRailStateEncoding || p.lazyTransitions.isNone ||
      decide (kMaxFullDualRailPublicHypothesisStateSymbols < p.dualRailStateSymbolCount) then {}
  else if store.dualRailResidualPublicProperty.isNone || store.dualRailResidualPublicBad.isNone ||
      decide (kMaxFullDualRailPublicHypothesisOutputs < store.dualRailResidualPublicOutputCount) ||
      decide (store.dualRailResidualPublicOutputCount ≤ p.observedOutputExprs0.length) then {}
  else ⟨store.dualRailResidualPublicProperty, store.dualRailResidualPublicBad,
    store.dualRailResidualPublicOutputCount, true⟩

/-- mirrors src/sec/kinduction/KInductionEngine.cpp:340-360 -/
def initialPublicConjunctionHypothesis (store : ResidualStore) : PublicConjunctionHypothesis :=
  let stored := p.storedResidualPublicConjunctionHypothesis store
  if stored.property.isSome then stored
  else if !p.canUseFullPublicConjunctionHypothesis then {}
  else p.makePublicConjunctionHypothesis

/-- The attempt on a slice with the hypothesis in its induction window; `p` is the slice.
mirrors src/sec/kinduction/KInductionEngine.cpp:362-385 -/
def applyDualRailSplitHypothesis (source : KInductionProblem)
    (hypothesis : PublicConjunctionHypothesis) : KInductionProblem :=
  if !source.shouldApplyPublicConjunctionHypothesis p hypothesis then p
  else p.observing { p.ownView with
    inductionProperty := hypothesis.property
    inductionBad := some p.bad }

/-- mirrors src/sec/kinduction/KInductionEngine.cpp:240-266 -/
def activeLeafAttemptHypothesis (requested : PublicConjunctionHypothesis) :
    PublicConjunctionHypothesis :=
  if requested.property.isSome && p.inductionProperty == requested.property &&
      p.inductionBad == some p.bad then requested
  else ⟨some p.selectedInductionProperty, some p.selectedInductionBad,
    p.observedOutputExprs0.length, false⟩

/-! ## Remembered leaves -/

/-- mirrors src/sec/kinduction/KInductionEngine.cpp:222-231 -/
def canMemoizeDualRailResidualLeafAttempt (hypothesis : PublicConjunctionHypothesis) : Bool :=
  p.usesDualRailStateEncoding && p.lazyTransitions.isSome &&
    p.observedOutputExprs0.length == 1 && p.observedOutputExprs1.length == 1 &&
    hypothesis.property.isSome && hypothesis.bad.isSome

def leafAttempt (hypothesis : PublicConjunctionHypothesis) (solverType : SolverType)
    (maxK resultBound : Nat) : DualRailResidualPublicKiAttempt where
  outputExpr0 := (p.observedOutput 0).1
  outputExpr1 := (p.observedOutput 0).2
  inductionProperty := hypothesis.property
  inductionBad := hypothesis.bad
  inductionOutputCount := hypothesis.outputCount
  solverType := solverType
  attemptedMaxK := maxK
  resultBound := resultBound

/-- mirrors src/sec/kinduction/KInductionEngine.cpp:268-290 -/
def inconclusiveDualRailLeafAttemptBound (store : ResidualStore)
    (hypothesis : PublicConjunctionHypothesis) (solverType : SolverType) (maxK : Nat) :
    Option Nat :=
  if !p.canMemoizeDualRailResidualLeafAttempt hypothesis then none
  else store.findInconclusiveAttempt (p.leafAttempt hypothesis solverType maxK 0)

/-- mirrors src/sec/kinduction/KInductionEngine.cpp:292-304 -/
def rememberInconclusiveDualRailLeafAttempt (store : ResidualStore)
    (hypothesis : PublicConjunctionHypothesis) (solverType : SolverType) (maxK resultBound : Nat) :
    ResidualStore :=
  if !p.canMemoizeDualRailResidualLeafAttempt hypothesis then store
  else store.rememberInconclusiveAttempt (p.leafAttempt hypothesis solverType maxK resultBound)

/-- mirrors src/sec/kinduction/OutputBatching.cpp:61-97 -/
def hasSelectedOutputSkips : Bool :=
  p.dualRailOutputSkipReasons.length == p.observedOutputExprs0.length &&
    p.dualRailOutputSkipReasons.any fun reason => !reason.isEmpty

def rememberDualRailResidualPublicHypothesis (store : ResidualStore) : ResidualStore :=
  if !p.usesDualRailStateEncoding || p.lazyTransitions.isNone ||
      decide (p.observedOutputExprs0.length ≤ 1) || p.hasSelectedOutputSkips ||
      decide (p.observedOutputExprs0.length ≤ store.dualRailResidualPublicOutputCount) then store
  else { store with
    dualRailResidualPublicProperty := some p.property
    dualRailResidualPublicBad := some p.bad
    dualRailResidualPublicOutputCount := p.observedOutputExprs0.length }

end KInductionProblem

/-- mirrors src/sec/kinduction/KInductionEngine.cpp:158-166, 168-195 -/
def shouldTryFallbackHypothesisAtRange (preferred fallback : PublicConjunctionHypothesis)
    (outputCount : Nat) : Bool :=
  if fallback.property.isNone || preferred == fallback then false
  else if fallback.completePublicSurface &&
      decide (kMaxStoredPublicSplitHypothesisOutputs < fallback.outputCount) then false
  else if decide (outputCount ≤ 1) && preferred.property.isSome &&
      decide (preferred.outputCount < fallback.outputCount) then false
  else true

/-- mirrors src/sec/kinduction/KInductionEngine.cpp:197-212 -/
def shouldTryStoredPublicHypothesisOnStandaloneLeaf (hypothesis : PublicConjunctionHypothesis) :
    Bool :=
  if hypothesis.property.isNone then false
  else if !hypothesis.completePublicSurface then true
  else decide (hypothesis.outputCount ≤ kMaxStoredPublicSplitHypothesisOutputs)

/-- mirrors src/sec/kinduction/KInductionEngine.cpp:723-737 -/
def combineBatchResults (lhs rhs : KInductionResult) : KInductionResult :=
  if lhs.status = .different then lhs
  else if rhs.status = .different then rhs
  else { lhs with
    status := if rhs.status = .inconclusive then .inconclusive else lhs.status
    bound := max lhs.bound rhs.bound }

/-! ## One problem -/

section Runs
variable {σ : Type} (S : FrameSolver σ) (solverType : SolverType) (env : KInductionEnv)

/-- mirrors src/sec/kinduction/BaseCaseSolver.cpp:2222-2234 -/
def findBaseCounterexample (k : Nat) (s : σ) (p : KInductionProblem) : Option Nat × σ :=
  let (answer, s') := findBaseCounterexampleImpl S solverType k s p none true .secConeProof
  (answer.1, s')

/-- `checkBaseCounterexampleWithFastValidation` is the call for dual-rail problems.
mirrors src/sec/kinduction/KInductionEngine.cpp:502-536, BaseCaseSolver.cpp:2236-2263 -/
def validateConcreteBasePrefix (k : Nat) (s : σ) (p : KInductionProblem) :
    Option KInductionResult × σ :=
  if !p.usesDualRailStateEncoding then
    match findBaseCounterexample S solverType k s p with
    | (some badFrame, s') => (some ⟨.different, badFrame, some badFrame⟩, s')
    | (none, s') => (none, s')
  else
    match findBaseCounterexampleImpl S solverType k s p none false .fastCounterexampleSearch with
    | ((some badFrame, _), s') => (some ⟨.different, badFrame, some badFrame⟩, s')
    | ((none, .sat), s') => (some ⟨.different, k, none⟩, s')
    | ((none, .unsat), s') => (none, s')
    | ((none, .unknown), s') => (some ⟨.inconclusive, k, none⟩, s')

/-- The check of frontier `k` at the end of its iteration, then `next`. -/
def checkFrontierThen (k : Nat) (s : σ) (p : KInductionProblem)
    (next : σ → Except String (KInductionResult × σ)) : Except String (KInductionResult × σ) :=
  if p.shouldCheckLocalBaseCase then do
    let (witness, s') ← findImcBaseCounterexampleAtFrontier S solverType k s p
    match witness with
    | some badFrame => pure (⟨.different, badFrame, some badFrame⟩, s')
    | none => next s'
  else next s

/-- The iterations from `k` on, `remaining` of them.
mirrors src/sec/kinduction/KInductionEngine.cpp:584-718 -/
def runInductionSteps (maxK : Nat) (p : KInductionProblem) :
    Nat → Nat → Nat → σ → Except String (KInductionResult × σ)
  | 0, _, _, s =>
    if p.shouldCheckLocalBaseCase then
      match validateConcreteBasePrefix S solverType maxK s p with
      | (some result, s') => pure (result, s')
      | (none, s') => pure (⟨.inconclusive, maxK, none⟩, s')
    else pure (⟨.inconclusive, maxK, none⟩, s)
  | remaining + 1, k, resourceLimitedSteps, s =>
    match proveByInductionStatus S s p solverType k
        (p.batchedInductionDecisionLimit env solverType) with
    | (.proved, s') =>
      if p.shouldCheckLocalBaseCase && p.proofNeedsConcreteFrontierValidation then
        match validateConcreteBasePrefix S solverType k s' p with
        | (some result, s'') => pure (result, s'')
        | (none, s'') => pure (⟨.equivalent, k, none⟩, s'')
      else pure (⟨.equivalent, k, none⟩, s')
    | (.unknown, s') =>
      if !p.usesDualRailStateEncoding || decide (1 < p.observedOutputExprs0.length) then
        pure (⟨.inconclusive, k, none⟩, s')
      else if !p.shouldCheckLocalBaseCase &&
          p.shouldStopDeferredDualRailLeafAfterResourceLimit
            (p.countResourceLimitedStep resourceLimitedSteps) then
        pure (⟨.inconclusive, k, none⟩, s')
      else
        checkFrontierThen S solverType k s' p
          (runInductionSteps maxK p remaining (k + 1)
            (p.countResourceLimitedStep resourceLimitedSteps))
    | (.notProved, s') =>
      checkFrontierThen S solverType k s' p (runInductionSteps maxK p remaining (k + 1) 0)

/-- What follows the base case of frame 0. -/
def runAfterBase (maxK : Nat) (s : σ) (p : KInductionProblem) :
    Except String (KInductionResult × σ) :=
  if p.combinedStateSymbols.isEmpty then pure (⟨.equivalent, 0, none⟩, s)
  else runInductionSteps S solverType env maxK p maxK 1 0 s

/-- mirrors src/sec/kinduction/KInductionEngine.cpp:538-718 -/
def runMonolithicKInduction (maxK : Nat) (s : σ) (p : KInductionProblem) :
    Except String (KInductionResult × σ) :=
  if p.shouldCheckLocalBaseCase then
    match findBaseCounterexample S solverType 0 s p with
    | (some badFrame, s') => pure (⟨.different, badFrame, some badFrame⟩, s')
    | (none, s') => runAfterBase S solverType env maxK s' p
  else runAfterBase S solverType env maxK s p

/-! ## Ranges of outputs -/

/-- The solver and what the problems of a strategy share. -/
structure EngineState (σ : Type) where
  solver : σ
  store : ResidualStore

/-- One attempt; an inconclusive leaf is remembered under `active`. -/
def attemptRange (maxK : Nat) (s : EngineState σ) (batch : KInductionProblem)
    (active : PublicConjunctionHypothesis) (isLeaf : Bool) :
    Except String (KInductionResult × EngineState σ) := do
  let (result, solver) ← runMonolithicKInduction S solverType env maxK s.solver batch
  let store :=
    if result.status = .inconclusive ∧ isLeaf = true then
      batch.rememberInconclusiveDualRailLeafAttempt s.store active solverType maxK result.bound
    else s.store
  pure (result, ⟨solver, store⟩)

/-- The second attempt on a range; `none` when the range goes on to be split.
mirrors src/sec/kinduction/KInductionEngine.cpp:790-827 -/
def attemptFallback (maxK : Nat) (s : EngineState σ) (source plain : KInductionProblem)
    (preferred fallback : PublicConjunctionHypothesis) (outputCount : Nat) :
    Except String (Option KInductionResult × EngineState σ) :=
  if !shouldTryFallbackHypothesisAtRange preferred fallback outputCount then pure (none, s)
  else match plain.inconclusiveDualRailLeafAttemptBound s.store fallback solverType maxK with
    | some cachedBound => pure (some ⟨.inconclusive, cachedBound, none⟩, s)
    | none => do
      let batch := plain.applyDualRailSplitHypothesis source fallback
      let isLeaf := decide (outputCount ≤ 1)
      let (result, s') ← attemptRange S solverType env maxK s batch
        (batch.activeLeafAttemptHypothesis fallback) isLeaf
      pure (if result.status ≠ .inconclusive ∨ isLeaf = true then some result else none, s')

/-- The attempts on a whole range; the flag tells whether their answer stands or the range
is to be split.
mirrors src/sec/kinduction/KInductionEngine.cpp:752-831 -/
def attemptOutputRange (maxK : Nat) (source : KInductionProblem)
    (preferred fallback : PublicConjunctionHypothesis) (s : EngineState σ)
    (firstOutput endOutput : Nat) : Except String ((KInductionResult × Bool) × EngineState σ) :=
  let plain := source.configureOutputBatchProblem firstOutput endOutput
  let batch := plain.applyDualRailSplitHypothesis source preferred
  let active := batch.activeLeafAttemptHypothesis preferred
  let isLeaf := decide (endOutput - firstOutput ≤ 1)
  let cached :=
    if isLeaf then batch.inconclusiveDualRailLeafAttemptBound s.store active solverType maxK
    else none
  match cached with
  | some cachedBound => pure ((⟨.inconclusive, cachedBound, none⟩, true), s)
  | none => do
    let (result, s) ← attemptRange S solverType env maxK s batch active isLeaf
    if result.status ≠ .inconclusive then pure ((result, true), s)
    else do
      let (fallbackResult, s) ← attemptFallback S solverType env maxK s source plain preferred
        fallback (endOutput - firstOutput)
      match fallbackResult with
      | some fallbackResult => pure ((fallbackResult, true), s)
      | none => pure ((result, isLeaf), s)

/-- A range that is split is split in the middle, so `fuel` is its number of outputs.
mirrors src/sec/kinduction/KInductionEngine.cpp:741-862 -/
def runOutputRangeKInduction (maxK : Nat) (source : KInductionProblem)
    (fallback : PublicConjunctionHypothesis) :
    Nat → EngineState σ → PublicConjunctionHypothesis → Nat → Nat →
      Except String (KInductionResult × EngineState σ)
  | 0, s, preferred, firstOutput, endOutput => do
    let (answer, s) ← attemptOutputRange S solverType env maxK source preferred fallback s
      firstOutput endOutput
    pure (if answer.2 then answer.1 else ⟨.inconclusive, answer.1.bound, none⟩, s)
  | fuel + 1, s, preferred, firstOutput, endOutput => do
    let (answer, s) ← attemptOutputRange S solverType env maxK source preferred fallback s
      firstOutput endOutput
    if answer.2 then pure (answer.1, s)
    else do
      -- the children keep the hypothesis of their parent, or take its conjunction
      let child :=
        if preferred.property.isSome then preferred
        else (source.configureOutputBatchProblem firstOutput
          endOutput).makePublicConjunctionHypothesis
      let middle := firstOutput + (endOutput - firstOutput) / 2
      let (lower, s) ←
        runOutputRangeKInduction maxK source fallback fuel s child firstOutput middle
      if lower.status = .different then pure (lower, s)
      else do
        let (upper, s) ←
          runOutputRangeKInduction maxK source fallback fuel s child middle endOutput
        pure (combineBatchResults lower upper, s)

/-- The batches one after the other, up to the first difference. -/
def runOutputBatches (maxK : Nat) (source : KInductionProblem)
    (preferred fallback : PublicConjunctionHypothesis) :
    EngineState σ → KInductionResult → List (Nat × Nat) →
      Except String (KInductionResult × EngineState σ)
  | s, combined, [] => pure (combined, s)
  | s, combined, (firstOutput, endOutput) :: batches => do
    let (result, s') ← runOutputRangeKInduction S solverType env maxK source fallback
      (endOutput - firstOutput) s preferred firstOutput endOutput
    if result.status = .different then pure (result, s')
    else
      runOutputBatches maxK source preferred fallback s'
        { combined with
          status := if result.status = .inconclusive then .inconclusive else combined.status
          bound := max combined.bound result.bound }
        batches

namespace KInductionProblem

def deferring (p : KInductionProblem) (deferBaseCaseChecks : Bool) : KInductionProblem :=
  p.observing { p.ownView with deferBaseCaseChecks := deferBaseCaseChecks }

/-- The batches of a dual-rail problem leave their base case to one shared check.
mirrors src/sec/kinduction/KInductionEngine.cpp:886-893 -/
def useSharedBaseCase (p : KInductionProblem) : Bool :=
  p.usesDualRailStateEncoding && p.shouldCheckLocalBaseCase

/-- The source of the batches. -/
def batchSource (p : KInductionProblem) : KInductionProblem :=
  p.deferring (p.deferBaseCaseChecks || p.useSharedBaseCase)

end KInductionProblem

/-- mirrors src/sec/kinduction/KInductionEngine.cpp:864-923 -/
def runOutputBatchedKInduction (maxK : Nat) (s : EngineState σ) (p : KInductionProblem) :
    Except String (KInductionResult × EngineState σ) := do
  let publicHypothesis := p.initialPublicConjunctionHypothesis s.store
  let preferred := if publicHypothesis.completePublicSurface then {} else publicHypothesis
  let fallback := if publicHypothesis.completePublicSurface then publicHypothesis else {}
  let s := { s with store := p.rememberDualRailResidualPublicHypothesis s.store }
  let (combined, s') ← runOutputBatches S solverType env maxK p.batchSource preferred fallback s
    ⟨.equivalent, 0, none⟩
    (p.buildSupportBoundedOutputBatches p.defaultOutputBatchingLimitsForProblem)
  if p.useSharedBaseCase && combined.status == .equivalent then
    match validateConcreteBasePrefix S solverType combined.bound s'.solver p with
    | (some result, solver) => pure (result, { s' with solver })
    | (none, solver) => pure (combined, { s' with solver })
  else pure (combined, s')

/-- One attempt on the whole problem, unless it is remembered as inconclusive.
mirrors src/sec/kinduction/KInductionEngine.cpp:875-897, 901-920 -/
def attemptSingleOutput (maxK : Nat) (s : EngineState σ) (p : KInductionProblem)
    (hypothesis active : PublicConjunctionHypothesis) (q : KInductionProblem) :
    Except String (KInductionResult × EngineState σ) :=
  match p.inconclusiveDualRailLeafAttemptBound s.store hypothesis solverType maxK with
  | some cachedBound => pure (⟨.inconclusive, cachedBound, none⟩, s)
  | none => attemptRange S solverType env maxK s q active true

/-- mirrors src/sec/kinduction/KInductionEngine.cpp:925-1008 -/
def runSingleOutputKInduction (maxK : Nat) (s : EngineState σ) (p : KInductionProblem) :
    Except String (KInductionResult × EngineState σ) := do
  let publicHypothesis := p.initialPublicConjunctionHypothesis s.store
  let localHypothesis := p.activeLeafAttemptHypothesis {}
  let (localResult, s') ←
    attemptSingleOutput S solverType env maxK s p localHypothesis localHypothesis p
  if publicHypothesis.property.isNone then pure (localResult, s')
  else if localResult.status ≠ .inconclusive then pure (localResult, s')
  else if !shouldTryStoredPublicHypothesisOnStandaloneLeaf publicHypothesis then
    pure (localResult, s')
  else
    let strengthened := p.applyDualRailSplitHypothesis p publicHypothesis
    attemptSingleOutput S solverType env maxK s' p publicHypothesis
      (strengthened.activeLeafAttemptHypothesis publicHypothesis) strengthened

/-- mirrors src/sec/kinduction/KInductionEngine.cpp:1023-1035 -/
def KInductionEngine.run (maxK : Nat) (s : EngineState σ) (p : KInductionProblem) :
    Except String (KInductionResult × EngineState σ) :=
  if kMinOutputsForBatchedProof ≤ p.observedOutputExprs0.length then
    runOutputBatchedKInduction S solverType env maxK s p
  else runSingleOutputKInduction S solverType env maxK s p

end Runs

end KeplerFormal
