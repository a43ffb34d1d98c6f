import KeplerFormal.L5Strategy.Coverage

/-!
# The PDR worklist (`src/sec/strategy/SequentialEquivalenceStrategy.cpp`)

The PDR route proves the outputs in batches. A dual-rail batch that stays inconclusive is
split in halves, a single output that does is skipped; a binary batch that does ends the
run, and so does a batch with a counterexample.

* `PdrWorklist`, `runPdrBatch`, `runPdrBatches`: the loop; the answers of the engine are a
  parameter.
* `runPdrSecEngine`: the route with its verdict and its coverage.
* `PdrInv`, `runPdrBatch_spec`, `runPdrBatches_spec`: every output is in one batch
  that is closed or still to be run, and is covered where an equivalent batch has it.
* `runPdrSecEngine_accounts`: what the result says about every output.
-/
namespace KeplerFormal

open Core

/-- mirrors src/sec/pdr/PDREngine.h:21-30 -/
inductive PDRStatus where
  | equivalent
  | different
  | inconclusive
  deriving DecidableEq, Repr

structure PDRResult where
  status : PDRStatus
  bound : Nat
  deriving DecidableEq, Repr

def kMinOutputsForBatchedPdrProof : Nat := 129

def kPdrOutputBatchingLimits : OutputBatchingLimits := ⟨32, 1024⟩

def kDualRailPdrOutputBatchingLimits : OutputBatchingLimits := ⟨128, 8192⟩

def kDualRailPdrBatchPredecessorQueryLimit : Nat := 1000

/-- `KEPLER_SEC_DUAL_RAIL_OUTPUT_BATCH_SIZE` and
`KEPLER_SEC_DUAL_RAIL_OUTPUT_BATCH_SUPPORT_LIMIT`. -/
structure PdrStrategyEnv where
  outputBatchSize : Option Nat := none
  outputBatchSupportLimit : Option Nat := none
  deriving DecidableEq, Repr

/-- mirrors src/sec/strategy/SequentialEquivalenceStrategy.cpp:2132-2146 -/
def dualRailPdrOutputBatchingLimits (env : PdrStrategyEnv) (defaultLimits : OutputBatchingLimits) :
    OutputBatchingLimits where
  maxOutputBatchSize := env.outputBatchSize.getD defaultLimits.maxOutputBatchSize
  outputBatchSupportLimit :=
    env.outputBatchSupportLimit.getD defaultLimits.outputBatchSupportLimit

/-- What the diagnostics report of a batch. -/
structure PdrBatchRun where
  outputRange : Nat × Nat
  status : PDRStatus
  deriving DecidableEq, Repr

/-- `outputBatches` are the batches from `batchIndex` on, `runs` those before it, the
latest first. -/
structure PdrWorklist where
  outputBatches : List (Nat × Nat)
  batchIndex : Nat := 0
  pdrCoveredOutputs : List Bool
  pdrSkippedOutputReasons : SkipReasons
  provedBound : Nat := 0
  runs : List PdrBatchRun := []
  deriving DecidableEq, Repr

/-- The answer of the engine to the batch with this index, slice and predecessor query
limit. Other settings of the engine are the same in all batches of a size. -/
abbrev PdrAnswers := Nat → KInductionProblem → Nat → PDRResult

inductive PdrStep where
  | running (s : PdrWorklist)
  | stopped (s : PdrWorklist)
  | different (s : PdrWorklist) (slice : KInductionProblem) (bound : Nat)

namespace KInductionProblem
variable (p : KInductionProblem)

/-- mirrors src/sec/strategy/SequentialEquivalenceStrategy.cpp:3071-3082 -/
def presetDualRailSkipReasons : SkipReasons :=
  if p.dualRailOutputSkipReasons.length = p.observedOutputExprs0.length then
    (p.dualRailOutputSkipReasons.mapIdx fun i reason => (i, reason)).filter (·.2 != "")
  else []

/-- mirrors src/sec/strategy/SequentialEquivalenceStrategy.cpp:3103-3140 -/
def pdrOutputBatches (env : PdrStrategyEnv) : List (Nat × Nat) :=
  if !(p.usesDualRailStateEncoding ||
      decide (kMinOutputsForBatchedPdrProof ≤ p.observedOutputExprs0.length)) then
    [(0, p.observedOutputExprs0.length)]
  else p.buildSupportBoundedOutputBatches
    (if p.usesDualRailStateEncoding then
      dualRailPdrOutputBatchingLimits env kDualRailPdrOutputBatchingLimits
    else kPdrOutputBatchingLimits)

/-- mirrors src/sec/strategy/SequentialEquivalenceStrategy.cpp:3141-3145 -/
def initialPdrWorklist (env : PdrStrategyEnv) : PdrWorklist where
  outputBatches := p.pdrOutputBatches env
  pdrCoveredOutputs := List.replicate p.observedOutputExprs0.length false
  pdrSkippedOutputReasons := p.presetDualRailSkipReasons

/-- Every uncovered output gets the reason, unless it has one. -/
def stopPdrWorklist (s : PdrWorklist) : PdrWorklist :=
  let missing := (uncovered s.pdrCoveredOutputs).filter fun i =>
    (s.pdrSkippedOutputReasons.lookup i).isNone
  { s with pdrSkippedOutputReasons :=
      missing.map (·, "exact PDR proof was inconclusive") ++ s.pdrSkippedOutputReasons }

/-- One turn of the loop, with `batch` taken from the list.
mirrors src/sec/strategy/SequentialEquivalenceStrategy.cpp:3152-3266 -/
def runPdrBatch (engine : PdrAnswers) (s : PdrWorklist) (batch : Nat × Nat)
    (rest : List (Nat × Nat)) : PdrStep :=
  let slice := p.configureOutputBatchProblem batch.1 batch.2
  let predecessorQueryLimit :=
    if p.usesDualRailStateEncoding ∧ 1 < batch.2 - batch.1 then
      kDualRailPdrBatchPredecessorQueryLimit
    else 0
  let pdrResult := engine s.batchIndex slice predecessorQueryLimit
  let s := { s with
    outputBatches := rest
    batchIndex := s.batchIndex + 1
    runs := ⟨batch, pdrResult.status⟩ :: s.runs }
  match pdrResult.status with
  | .equivalent =>
    let marked := markPdrOutputRangeCovered s.pdrCoveredOutputs s.pdrSkippedOutputReasons batch
    .running { s with
      provedBound := max s.provedBound pdrResult.bound
      pdrCoveredOutputs := marked.1
      pdrSkippedOutputReasons := marked.2 }
  | .different => .different s slice pdrResult.bound
  | .inconclusive =>
    let s := { s with provedBound := max s.provedBound pdrResult.bound }
    if p.usesDualRailStateEncoding then
      if 1 < batch.2 - batch.1 then
        let midOutput := batch.1 + (batch.2 - batch.1) / 2
        .running { s with
          outputBatches := (batch.1, midOutput) :: (midOutput, batch.2) :: rest }
      else
        let marked := markPdrOutputRangeSkipped s.pdrCoveredOutputs s.pdrSkippedOutputReasons
          batch "dual-rail PDR steady-state proof was inconclusive"
        .running { s with
          pdrCoveredOutputs := marked.1
          pdrSkippedOutputReasons := marked.2 }
    else .stopped (stopPdrWorklist s)

/-- The loop; it takes as many turns as `pdrWork` at most. -/
def runPdrBatches (engine : PdrAnswers) : Nat → PdrWorklist → Option PdrStep
  | 0, _ => none
  | fuel + 1, s =>
    match s.outputBatches with
    | [] => some (.stopped s)
    | batch :: rest =>
      match p.runPdrBatch engine s batch rest with
      | .running s => runPdrBatches engine fuel s
      | last => some last

/-- The batches that a range of outputs can be split into, and itself. -/
def batchWork (batch : Nat × Nat) : Nat := max 1 (2 * (batch.2 - batch.1) - 1)

def pdrWork (outputBatches : List (Nat × Nat)) : Nat := (outputBatches.map batchWork).sum

/-- A result, and the batches that were run for it. -/
structure PdrSecRun where
  result : SequentialEquivalenceResult
  runs : List PdrBatchRun
  deriving DecidableEq, Repr

section
variable {κ : Type} (observedOutputNames : List String)
  (outputCoverage : OutputCoverageSelection κ)
  (extractedBoundaryReports : List ExtractedBoundaryReportEntry)

/-- mirrors src/sec/strategy/SequentialEquivalenceStrategy.cpp:3268-3305 -/
def finishPdrSecEngine (s : PdrWorklist) : SequentialEquivalenceResult :=
  let finalCoverage := buildCoverageWithDualRailOutputSkips outputCoverage p observedOutputNames
    s.pdrCoveredOutputs s.pdrSkippedOutputReasons
  let coveredOutputCount := s.pdrCoveredOutputs.count true
  if finalCoverage.checkedOutputs = [] then
    let noProofCoverage := if p.usesDualRailStateEncoding then finalCoverage else outputCoverage
    makeSecResult .inconclusive s.provedBound
      (if p.usesDualRailStateEncoding then "Exact dual-rail PDR did not prove any observed output"
      else "Exact PDR did not prove any observed output")
      noProofCoverage extractedBoundaryReports
  else if coveredOutputCount ≠ s.pdrCoveredOutputs.length then
    makeSecResult .partiallyProved s.provedBound
      ("Exact " ++ (if p.usesDualRailStateEncoding then "dual-rail " else "") ++ "PDR proved " ++
        toString coveredOutputCount ++ " of " ++ toString s.pdrCoveredOutputs.length ++
        " observed outputs; remaining outputs are inconclusive")
      finalCoverage extractedBoundaryReports
  else makeSecResult .equivalent s.provedBound "" finalCoverage extractedBoundaryReports

/-- `formatWitness` is the text of the counterexample that `findBaseCounterexampleAtFrontier`
finds on the slice.
mirrors src/sec/strategy/SequentialEquivalenceStrategy.cpp:3054-3307 -/
def runPdrSecEngine (env : PdrStrategyEnv) (engine : PdrAnswers)
    (formatWitness : KInductionProblem → Nat → Option String) : Option PdrSecRun :=
  if p.usesDualRailStateEncoding ∧ collectOutputsRequiringDualRailEngineProof p = [] then
    let partialCoverage := buildCoverageWithDualRailOutputSkips outputCoverage p
      observedOutputNames (List.replicate p.observedOutputExprs0.length false)
      p.presetDualRailSkipReasons
    some ⟨makeSecResult .inconclusive 0
      "Dual-rail PDR has no selected-engine output obligation to prove" partialCoverage
      extractedBoundaryReports, []⟩
  else
    let s := p.initialPdrWorklist env
    match p.runPdrBatches engine (pdrWork s.outputBatches + 1) s with
    | none => none
    | some (.different s slice bound) =>
      let reason := (formatWitness slice bound).getD
        ("Exact PDR found a defined-value counterexample at k = " ++ toString bound)
      some ⟨makeSecResult .different bound reason outputCoverage extractedBoundaryReports, s.runs⟩
    | some (.running s) | some (.stopped s) =>
      some ⟨p.finishPdrSecEngine observedOutputNames outputCoverage extractedBoundaryReports s,
        s.runs⟩

end

/-! ## What the runs say about an output -/

/-- Whether a batch is not run again in smaller ones. -/
def closes (run : PdrBatchRun) : Bool :=
  !(p.usesDualRailStateEncoding && run.status == .inconclusive &&
    decide (1 < run.outputRange.2 - run.outputRange.1))

/-- How many closed batches have output `i`. -/
def closedCount (runs : List PdrBatchRun) (i : Nat) : Nat :=
  runs.countP fun run => p.closes run && inRange run.outputRange i

/-- How many batches with this answer have output `i`. -/
def answeredCount (runs : List PdrBatchRun) (status : PDRStatus) (i : Nat) : Nat :=
  runs.countP fun run => run.status == status && inRange run.outputRange i

/-- The outputs that an equivalent batch has. -/
def provedOutputs (runs : List PdrBatchRun) : List Nat :=
  (List.range p.observedOutputExprs0.length).filter fun i =>
    decide (0 < answeredCount runs .equivalent i)

/-- Every output of a closed batch and of a pending one is counted once, and the covered
outputs are those of the equivalent batches. -/
structure PdrInv (s : PdrWorklist) : Prop where
  accounted : ∀ i, p.closedCount s.runs i + s.outputBatches.countP (inRange · i) =
    if i < p.observedOutputExprs0.length then 1 else 0
  length : s.pdrCoveredOutputs.length = p.observedOutputExprs0.length
  covered : ∀ i < p.observedOutputExprs0.length,
    s.pdrCoveredOutputs.getD i false = decide (0 < answeredCount s.runs .equivalent i)
  noDifferent : ∀ run ∈ s.runs, run.status ≠ .different

/-- The last batch, and only that, was answered different. -/
structure FoundDifference (runs : List PdrBatchRun) : Prop where
  once : ∀ i, p.closedCount runs i ≤ 1
  last : ∃ batch earlier, runs = ⟨batch, .different⟩ :: earlier ∧
    ∀ run ∈ earlier, run.status ≠ .different

variable {p}

/-! ## The loop -/

theorem answeredCount_le_closedCount {runs : List PdrBatchRun} {status : PDRStatus}
    (hstatus : status ≠ .inconclusive) (i : Nat) :
    answeredCount runs status i ≤ p.closedCount runs i := by
  refine List.countP_mono_left fun run _ hrun => ?_
  obtain ⟨hanswer, hrange⟩ := Bool.and_eq_true_iff.mp hrun
  rw [Bool.and_eq_true]
  refine ⟨?_, hrange⟩
  rw [closes, beq_iff_eq.mp hanswer]
  cases status with
  | equivalent => simp
  | different => simp
  | inconclusive => exact absurd rfl hstatus

/-- An output of a pending batch is in no closed one. -/
theorem PdrInv.closedCount_pending {s : PdrWorklist} (hinv : p.PdrInv s) {batch : Nat × Nat}
    {rest : List (Nat × Nat)} (hbatches : s.outputBatches = batch :: rest) {i : Nat}
    (hi : inRange batch i = true) : p.closedCount s.runs i = 0 := by
  have haccounted := hinv.accounted i
  rw [hbatches, List.countP_cons, if_pos hi] at haccounted
  split at haccounted <;> omega

theorem getD_mapIdx {xs : List Bool} {f : Nat → Bool → Bool} {i : Nat} (hi : i < xs.length) :
    (xs.mapIdx f).getD i false = f i (xs.getD i false) := by
  rw [List.getD_eq_getElem _ _ (by rwa [List.length_mapIdx]), List.getElem_mapIdx,
    List.getD_eq_getElem _ _ hi]

/-- A batch that closes takes its outputs from the pending to the closed ones. -/
theorem closedCount_cons {runs : List PdrBatchRun} {batch : Nat × Nat} {status : PDRStatus}
    (hcloses : p.closes ⟨batch, status⟩ = true) (rest : List (Nat × Nat)) (i : Nat) :
    p.closedCount (⟨batch, status⟩ :: runs) i + rest.countP (inRange · i) =
      p.closedCount runs i + (batch :: rest).countP (inRange · i) := by
  unfold closedCount
  rw [List.countP_cons, List.countP_cons]
  simp only [hcloses, Bool.true_and]
  omega

theorem answeredCount_cons_of_ne {runs : List PdrBatchRun} {batch : Nat × Nat}
    {status : PDRStatus} (hstatus : status ≠ .equivalent) (i : Nat) :
    answeredCount (⟨batch, status⟩ :: runs) .equivalent i = answeredCount runs .equivalent i := by
  unfold answeredCount
  refine List.countP_cons_of_neg ?_
  rw [Bool.and_eq_true]
  rintro ⟨hanswer, _⟩
  exact hstatus (beq_iff_eq.mp hanswer)

theorem answeredCount_cons_equivalent {runs : List PdrBatchRun} {batch : Nat × Nat} (i : Nat) :
    answeredCount (⟨batch, .equivalent⟩ :: runs) .equivalent i =
      answeredCount runs .equivalent i + if inRange batch i = true then 1 else 0 := by
  unfold answeredCount
  rw [List.countP_cons]
  simp

theorem pdrWork_cons (batch : Nat × Nat) (rest : List (Nat × Nat)) :
    pdrWork (batch :: rest) = batchWork batch + pdrWork rest := rfl

theorem pdrWork_rest_lt (batch : Nat × Nat) (rest : List (Nat × Nat)) :
    pdrWork rest < pdrWork (batch :: rest) := by
  rw [pdrWork_cons, batchWork]
  omega

/-- What a turn leaves: the invariant with less to do, the end of a binary run, or a
counterexample. -/
theorem runPdrBatch_spec {engine : PdrAnswers} {s : PdrWorklist} {batch : Nat × Nat}
    {rest : List (Nat × Nat)} (hinv : p.PdrInv s) (hbatches : s.outputBatches = batch :: rest) :
    (∃ s', p.runPdrBatch engine s batch rest = .running s' ∧ p.PdrInv s' ∧
      pdrWork s'.outputBatches < pdrWork s.outputBatches) ∨
    (∃ s', p.runPdrBatch engine s batch rest = .stopped s' ∧ p.PdrInv s' ∧
      p.usesDualRailStateEncoding = false) ∨
    (∃ s' slice bound, p.runPdrBatch engine s batch rest = .different s' slice bound ∧
      p.FoundDifference s'.runs) := by
  unfold runPdrBatch
  simp only
  have haccounted := hinv.accounted
  rw [hbatches] at haccounted
  have hless := pdrWork_rest_lt batch rest
  rw [← hbatches] at hless
  split
  · rename_i hstatus
    have hcloses : p.closes ⟨batch, .equivalent⟩ = true := by simp [closes]
    refine .inl ⟨_, rfl, ⟨fun i => ?_, ?_, fun i hi => ?_, ?_⟩, hless⟩
    · simp only [hstatus]
      rw [closedCount_cons hcloses]
      exact haccounted i
    · simp [markPdrOutputRangeCovered, hinv.length]
    · simp only [markPdrOutputRangeCovered, hstatus]
      rw [getD_mapIdx (hinv.length ▸ hi), hinv.covered i hi, answeredCount_cons_equivalent]
      cases hrange : inRange batch i <;> simp
    · simp only [hstatus]
      exact List.forall_mem_cons.mpr ⟨nofun, hinv.noDifferent⟩
  · rename_i hstatus
    have hcloses : p.closes ⟨batch, .different⟩ = true := by simp [closes]
    refine .inr (.inr ⟨_, _, _, rfl, ⟨fun i => ?_, batch, s.runs, ?_, hinv.noDifferent⟩⟩)
    · simp only [hstatus]
      have hcount := @closedCount_cons _ s.runs _ _ hcloses rest i
      have hi := haccounted i
      split at hi <;> omega
    · simp only [hstatus]
  · rename_i hstatus
    have hcovered : ∀ i < p.observedOutputExprs0.length,
        s.pdrCoveredOutputs.getD i false =
          decide (0 < answeredCount (⟨batch, .inconclusive⟩ :: s.runs) .equivalent i) := by
      intro i hi
      rw [answeredCount_cons_of_ne (by decide)]
      exact hinv.covered i hi
    have hnone : ∀ run ∈ ⟨batch, .inconclusive⟩ :: s.runs, run.status ≠ .different :=
      List.forall_mem_cons.mpr ⟨nofun, hinv.noDifferent⟩
    split
    · rename_i hrails
      split
      · -- the halves take the place of the batch
        rename_i hwide
        have hsplit := countP_inRange_split (a := batch.1) (b := batch.2)
          (m := batch.1 + (batch.2 - batch.1) / 2) (by omega) (by omega)
        refine .inl ⟨_, rfl, ⟨fun i => ?_, hinv.length, ?_, ?_⟩, ?_⟩
        · simp only [hstatus]
          have hopen : p.closedCount (⟨batch, .inconclusive⟩ :: s.runs) i =
              p.closedCount s.runs i := List.countP_cons_of_neg (by simp [closes, hrails, hwide])
          have hi := haccounted i
          have hhalves := hsplit i
          simp only [List.countP_cons, List.countP_nil, Prod.mk.eta] at hhalves hi ⊢
          omega
        · simpa only [hstatus] using hcovered
        · simpa only [hstatus] using hnone
        · rw [hbatches]
          simp only [pdrWork_cons, batchWork]
          omega
      · rename_i hsingle
        have hcloses : p.closes ⟨batch, .inconclusive⟩ = true := by simp [closes, hsingle]
        refine .inl ⟨_, rfl, ⟨fun i => ?_, ?_, fun i hi => ?_, ?_⟩, hless⟩
        · simp only [hstatus]
          rw [closedCount_cons hcloses]
          exact haccounted i
        · simp [markPdrOutputRangeSkipped, hinv.length]
        · simp only [markPdrOutputRangeSkipped, hstatus]
          rw [getD_mapIdx (hinv.length ▸ hi), hcovered i hi]
          cases hrange : inRange batch i with
          | false => simp
          | true =>
            -- no equivalent batch has an output that was still pending
            have hzero := hinv.closedCount_pending hbatches hrange
            have hle := @answeredCount_le_closedCount p s.runs .equivalent (by decide) i
            rw [answeredCount_cons_of_ne (by decide)]
            simp [show answeredCount s.runs .equivalent i = 0 by omega]
        · simpa only [hstatus] using hnone
    · rename_i hbinary
      have hfalse : p.usesDualRailStateEncoding = false := by simpa using hbinary
      have hcloses : p.closes ⟨batch, .inconclusive⟩ = true := by simp [closes, hfalse]
      refine .inr (.inl ⟨_, rfl, ⟨fun i => ?_, hinv.length, ?_, ?_⟩, hfalse⟩)
      · simp only [stopPdrWorklist, hstatus]
        rw [closedCount_cons hcloses]
        exact haccounted i
      · simpa only [stopPdrWorklist, hstatus] using hcovered
      · simpa only [stopPdrWorklist, hstatus] using hnone

/-- The loop ends within its work. -/
theorem runPdrBatches_spec {engine : PdrAnswers} {fuel : Nat} {s : PdrWorklist}
    (hinv : p.PdrInv s) (hfuel : pdrWork s.outputBatches < fuel) :
    (∃ s', p.runPdrBatches engine fuel s = some (.stopped s') ∧ p.PdrInv s' ∧
      (p.usesDualRailStateEncoding = true → s'.outputBatches = [])) ∨
    (∃ s' slice bound, p.runPdrBatches engine fuel s = some (.different s' slice bound) ∧
      p.FoundDifference s'.runs) := by
  induction fuel generalizing s with
  | zero => omega
  | succ fuel ih =>
    unfold runPdrBatches
    cases hbatches : s.outputBatches with
    | nil => exact .inl ⟨s, rfl, hinv, fun _ => hbatches⟩
    | cons batch rest =>
      rcases @runPdrBatch_spec _ engine _ _ _ hinv hbatches with
        ⟨s', hrun, hinv', hless⟩ | ⟨s', hrun, hinv', hbinary⟩ | ⟨s', slice, bound, hrun, hfound⟩
      · simp only [hrun]
        exact ih hinv' (by omega)
      · simp only [hrun]
        exact .inl ⟨s', rfl, hinv', fun hrails => by rw [hbinary] at hrails; cases hrails⟩
      · simp only [hrun]
        exact .inr ⟨s', slice, bound, rfl, hfound⟩

theorem initialPdrWorklist_inv (env : PdrStrategyEnv) : p.PdrInv (p.initialPdrWorklist env) where
  accounted i := by
    show 0 + (p.pdrOutputBatches env).countP (inRange · i) = _
    rw [Nat.zero_add, pdrOutputBatches]
    split
    · simp only [List.countP_cons, List.countP_nil, inRange_eq_true, Nat.zero_le, true_and]
      omega
    · rw [(tiles_buildSupportBoundedOutputBatches _).countP_inRange]
      simp
  length := List.length_replicate
  covered i hi := by
    rw [initialPdrWorklist, List.getD_eq_getElem _ _ (by rwa [List.length_replicate]),
      List.getElem_replicate]
    rfl
  noDifferent := by simp [initialPdrWorklist]

/-! ## The verdict -/

section
variable {κ : Type}

/-- Each output is in one batch answered equivalent, in one answered different, or in one
entry of the list of skipped outputs. -/
def EveryOutputAccounted (p : KInductionProblem) (observedOutputNames : List String)
    (outputCoverage : OutputCoverageSelection κ) (run : PdrSecRun) : Prop :=
  ∃ unresolved : List (Nat × String),
    run.result.skippedObservedOutputs = outputCoverage.skippedOutputs ++ unresolved.map (fun u =>
      outputNameForProblemIndex observedOutputNames u.1 ++ ": " ++ u.2) ∧
    (∀ u ∈ unresolved, u.1 < p.observedOutputExprs0.length) ∧
    ∀ i < p.observedOutputExprs0.length,
      answeredCount run.runs .equivalent i + answeredCount run.runs .different i +
        (unresolved.map Prod.fst).count i = 1

/-- The result reports the checked outputs as they were before the run. -/
def PdrSecRun.KeepsCoverage (outputCoverage : OutputCoverageSelection κ) (run : PdrSecRun) : Prop :=
  run.result.coveredOutputs = outputCoverage.checkedOutputs.length ∧
    run.result.skippedObservedOutputs = outputCoverage.skippedOutputs

/-- What a run says about the outputs. A counterexample ends it at once, and a binary run
that proves nothing keeps the coverage that it was given. -/
structure PdrVerdict (p : KInductionProblem) (observedOutputNames : List String)
    (outputCoverage : OutputCoverageSelection κ) (run : PdrSecRun) : Prop where
  once : ∀ i, p.closedCount run.runs i ≤ 1
  split : run.result.status ≠ .different → p.usesDualRailStateEncoding = true → run.runs ≠ [] →
    ∀ i < p.observedOutputExprs0.length, p.closedCount run.runs i = 1
  status : run.result.status = .equivalent ∨ run.result.status = .different ∨
    run.result.status = .partiallyProved ∨ run.result.status = .inconclusive
  equivalent : run.result.status = .equivalent →
    ∀ i < p.observedOutputExprs0.length, 0 < answeredCount run.runs .equivalent i
  different : run.result.status = .different ↔ ∃ b ∈ run.runs, b.status = .different
  partiallyProved : run.result.status = .partiallyProved → p.provedOutputs run.runs ≠ []
  inconclusive : run.result.status = .inconclusive → p.provedOutputs run.runs = []
  reported : run.result.status ≠ .different →
    (run.result.status = .inconclusive → p.usesDualRailStateEncoding = true) →
    p.EveryOutputAccounted observedOutputNames outputCoverage run ∧
      run.result.coveredOutputs = (p.provedOutputs run.runs).length
  kept : run.result.status = .different ∨
      run.result.status = .inconclusive ∧ p.usesDualRailStateEncoding = false →
    run.KeepsCoverage outputCoverage

variable {observedOutputNames : List String} {outputCoverage : OutputCoverageSelection κ}
  {extractedBoundaryReports : List ExtractedBoundaryReportEntry}

theorem PdrInv.provedOutputs_eq {s : PdrWorklist} (hinv : p.PdrInv s) :
    p.provedOutputs s.runs = (List.range s.pdrCoveredOutputs.length).filter fun i =>
      s.pdrCoveredOutputs.getD i false := by
  rw [provedOutputs, hinv.length]
  refine List.filter_congr fun i hi => ?_
  rw [hinv.covered i (List.mem_range.mp hi)]

/-- The reduced coverage lists the outputs that no equivalent batch has, once each. -/
theorem PdrInv.accounted_of_reduced {s : PdrWorklist} (hinv : p.PdrInv s)
    (hnames : outputCoverage.checkedOutputs.length = p.observedOutputExprs0.length)
    {run : PdrSecRun} (hruns : run.runs = s.runs)
    (hskipped : run.result.skippedObservedOutputs =
      (buildCoverageWithDualRailOutputSkips outputCoverage p observedOutputNames
        s.pdrCoveredOutputs s.pdrSkippedOutputReasons).skippedOutputs) :
    p.EveryOutputAccounted observedOutputNames outputCoverage run := by
  rw [buildCoverage_skipped (hnames.trans hinv.length.symm)] at hskipped
  refine ⟨(uncovered s.pdrCoveredOutputs).map fun i =>
    (i, skipReason p s.pdrCoveredOutputs s.pdrSkippedOutputReasons i), ?_, ?_, fun i hi => ?_⟩
  · rw [hskipped, List.map_map]
    rfl
  · intro u hu
    obtain ⟨i, hi, rfl⟩ := List.mem_map.mp hu
    exact hinv.length ▸ List.mem_range.mp (List.mem_filter.mp hi).1
  · have hfst : ((uncovered s.pdrCoveredOutputs).map fun i =>
        (i, skipReason p s.pdrCoveredOutputs s.pdrSkippedOutputReasons i)).map Prod.fst =
        uncovered s.pdrCoveredOutputs := by
      rw [List.map_map]
      exact List.map_id _
    have hdifferent : answeredCount s.runs .different i = 0 := by
      refine List.countP_eq_zero.mpr fun b hb hanswer => ?_
      exact hinv.noDifferent b hb (beq_iff_eq.mp (Bool.and_eq_true_iff.mp hanswer).1)
    have hclosed : p.closedCount s.runs i ≤ 1 := by
      have haccounted := hinv.accounted i
      rw [if_pos hi] at haccounted
      omega
    have hle := @answeredCount_le_closedCount p s.runs .equivalent (by decide) i
    rw [hfst, hruns, hdifferent, count_uncovered (hinv.length ▸ hi), hinv.covered i hi]
    by_cases hproved : 0 < answeredCount s.runs .equivalent i
    · rw [if_pos (decide_eq_true hproved)]
      omega
    · rw [if_neg (by simpa using hproved)]
      omega

/-- What the end of the loop without a counterexample reports. -/
theorem finishPdrSecEngine_verdict {s : PdrWorklist} (hinv : p.PdrInv s)
    (hnames : outputCoverage.checkedOutputs.length = p.observedOutputExprs0.length)
    (hdone : p.usesDualRailStateEncoding = true → s.outputBatches = []) :
    p.PdrVerdict observedOutputNames outputCoverage
      ⟨p.finishPdrSecEngine observedOutputNames outputCoverage extractedBoundaryReports s,
        s.runs⟩ := by
  generalize hcoverage : buildCoverageWithDualRailOutputSkips outputCoverage p observedOutputNames
    s.pdrCoveredOutputs s.pdrSkippedOutputReasons = finalCoverage
  have hchecked : finalCoverage.checkedOutputs.length = (p.provedOutputs s.runs).length := by
    rw [← hcoverage, buildCoverage_checked (hnames.trans hinv.length.symm), count_covered,
      hinv.provedOutputs_eq]
  have hcount : s.pdrCoveredOutputs.count true = (p.provedOutputs s.runs).length := by
    rw [count_covered, hinv.provedOutputs_eq]
  have hnoDifferent : ¬ ∃ b ∈ s.runs, b.status = .different := by
    rintro ⟨b, hb, hdifferent⟩
    exact hinv.noDifferent b hb hdifferent
  have honce : ∀ i, p.closedCount s.runs i ≤ 1 := by
    intro i
    have haccounted := hinv.accounted i
    split at haccounted <;> omega
  have hsplit : p.usesDualRailStateEncoding = true →
      ∀ i < p.observedOutputExprs0.length, p.closedCount s.runs i = 1 := by
    intro hrails i hi
    have haccounted := hinv.accounted i
    rw [hdone hrails, if_pos hi] at haccounted
    simpa using haccounted
  -- a result over the reduced coverage
  have hreported : ∀ status bound reason, p.EveryOutputAccounted observedOutputNames
      outputCoverage ⟨makeSecResult status bound reason finalCoverage extractedBoundaryReports,
        s.runs⟩ ∧
      (makeSecResult status bound reason finalCoverage extractedBoundaryReports).coveredOutputs =
        (p.provedOutputs s.runs).length := by
    intro status bound reason
    refine ⟨hinv.accounted_of_reduced hnames rfl ?_, hchecked⟩
    rw [hcoverage]
    rfl
  unfold finishPdrSecEngine
  simp only [hcoverage]
  split
  · rename_i hnil
    have hnone : p.provedOutputs s.runs = [] := by
      rw [hnil] at hchecked
      exact List.eq_nil_of_length_eq_zero hchecked.symm
    cases hrails : p.usesDualRailStateEncoding with
    | true =>
      simp only [if_true]
      refine ⟨honce, fun _ _ _ => hsplit hrails, .inr (.inr (.inr rfl)), nofun, ?_, nofun,
        fun _ => hnone, fun _ _ => hreported _ _ _, ?_⟩
      · exact iff_of_false nofun hnoDifferent
      · rintro (h | ⟨_, h⟩)
        · cases h
        · cases hrails.symm.trans h
    | false =>
      simp only [Bool.false_eq_true, if_false]
      refine ⟨honce, fun _ hdual => ?_, .inr (.inr (.inr rfl)), nofun, ?_, nofun,
        fun _ => hnone, fun _ hdual => ?_, fun _ => ⟨rfl, rfl⟩⟩
      · cases hrails.symm.trans hdual
      · exact iff_of_false nofun hnoDifferent
      · cases hrails.symm.trans (hdual rfl)
  · rename_i hsome
    have hproved : p.provedOutputs s.runs ≠ [] := by
      intro hnone
      rw [hnone] at hchecked
      exact hsome (List.eq_nil_of_length_eq_zero hchecked)
    split
    · refine ⟨honce, fun _ hdual _ => hsplit hdual, .inr (.inr (.inl rfl)), nofun, ?_,
        fun _ => hproved, nofun, fun _ _ => hreported _ _ _, ?_⟩
      · exact iff_of_false nofun hnoDifferent
      · rintro (h | ⟨h, _⟩) <;> cases h
    · rename_i hall
      have hevery : ∀ i < p.observedOutputExprs0.length, 0 < answeredCount s.runs .equivalent i := by
        intro i hi
        have hfull : (p.provedOutputs s.runs).length =
            (List.range p.observedOutputExprs0.length).length := by
          rw [← hcount, not_not.mp hall, hinv.length, List.length_range]
        have hmem : i ∈ p.provedOutputs s.runs := by
          rw [provedOutputs, List.filter_eq_self.mpr (List.length_filter_eq_length_iff.mp hfull)]
          exact List.mem_range.mpr hi
        exact of_decide_eq_true (List.mem_filter.mp hmem).2
      have hstatus : ∀ status, (makeSecResult .equivalent s.provedBound "" finalCoverage
          extractedBoundaryReports).status = status →
          status = .equivalent ∨ status = .partiallyProved := by
        rintro _ rfl
        unfold makeSecResult
        simp only
        split
        · exact .inr rfl
        · exact .inl rfl
      refine ⟨honce, fun _ hdual _ => hsplit hdual, ?_, fun _ => hevery, ?_, fun _ => hproved,
        fun h => ?_, fun _ _ => hreported _ _ _, ?_⟩
      · rcases hstatus _ rfl with h | h
        · exact .inl h
        · exact .inr (.inr (.inl h))
      · refine iff_of_false (fun h => ?_) hnoDifferent
        rcases hstatus _ h with h' | h' <;> cases h'
      · rcases hstatus _ h with h' | h' <;> cases h'
      · rintro (h | ⟨h, _⟩) <;> rcases hstatus _ h with h' | h' <;> cases h'

/-- The route ends for all answers. Every output is in an equivalent batch, in a different
one or listed as skipped, once; a counterexample ends the run with the coverage it was
given, and so does a binary run that proves nothing. -/
theorem runPdrSecEngine_accounts (p : KInductionProblem) (observedOutputNames : List String)
    (outputCoverage : OutputCoverageSelection κ)
    (extractedBoundaryReports : List ExtractedBoundaryReportEntry) (env : PdrStrategyEnv)
    (engine : PdrAnswers) (formatWitness : KInductionProblem → Nat → Option String)
    (hnames : outputCoverage.checkedOutputs.length = p.observedOutputExprs0.length) :
    ∃ run, p.runPdrSecEngine observedOutputNames outputCoverage extractedBoundaryReports env engine
        formatWitness = some run ∧
      p.PdrVerdict observedOutputNames outputCoverage run := by
  have hinitial := p.initialPdrWorklist_inv env
  unfold runPdrSecEngine
  split
  · rename_i hskip
    have hlength := hnames.trans (hinitial.length).symm
    have hnone : p.provedOutputs [] = [] := by simp [provedOutputs, answeredCount]
    refine ⟨_, rfl, fun i => Nat.zero_le _, fun _ _ h => absurd rfl h, .inr (.inr (.inr rfl)),
      nofun, iff_of_false nofun (by simp), nofun, fun _ => hnone, fun _ _ => ⟨?_, ?_⟩, ?_⟩
    · exact hinitial.accounted_of_reduced hnames rfl rfl
    · refine (buildCoverage_checked hlength).trans ?_
      rw [hnone]
      simp [initialPdrWorklist, List.count_replicate]
    · rintro (h | ⟨_, h⟩)
      · cases h
      · cases hskip.1.symm.trans h
  · simp only
    rcases @runPdrBatches_spec _ engine _ _ hinitial (Nat.lt_succ_self _) with
      ⟨s, hrun, hinv, hdone⟩ | ⟨s, slice, bound, hrun, hfound⟩
    · rw [hrun]
      exact ⟨_, rfl, finishPdrSecEngine_verdict hinv hnames hdone⟩
    · rw [hrun]
      obtain ⟨batch, earlier, hruns, _⟩ := hfound.last
      refine ⟨_, rfl, hfound.once, fun h => absurd rfl h, .inr (.inl rfl), nofun,
        ⟨fun _ => ⟨⟨batch, .different⟩, ?_, rfl⟩, fun _ => rfl⟩, nofun, nofun,
        fun h => absurd rfl h, fun _ => ⟨rfl, rfl⟩⟩
      rw [hruns]
      exact List.mem_cons_self

end

/-! ## Two outputs -/

def twoOutputProblem (usesDualRailStateEncoding : Bool) : KInductionProblem :=
  { KInductionProblem.stateless .createFalse .createTrue with
    allSymbols := [2, 3]
    observedOutputExprs0 := [.var 2, .var 3]
    observedOutputExprs1 := [.var 3, .var 2]
    usesDualRailStateEncoding := usesDualRailStateEncoding }

def twoOutputCoverage : OutputCoverageSelection Nat where
  checkedOutputs := [⟨"a", 0, 0⟩, ⟨"b", 1, 1⟩]
  skippedOutputs := []
  totalOutputs := 2

/-- The batch of both is inconclusive, the first half of it is `answer`. -/
def splitAnswers (answer : PDRResult) : PdrAnswers := fun batchIndex _ _ =>
  if batchIndex = 0 then ⟨.inconclusive, 0⟩ else answer

def twoOutputRun (usesDualRailStateEncoding : Bool) (answer : PDRResult) : Option PdrSecRun :=
  (twoOutputProblem usesDualRailStateEncoding).runPdrSecEngine ["a", "b"] twoOutputCoverage [] {}
    (splitAnswers answer) fun _ _ => none

theorem runPdrSecEngine_accounts_twoOutputs :
    ∃ run, twoOutputRun true ⟨.equivalent, 1⟩ = some run ∧
      (twoOutputProblem true).PdrVerdict ["a", "b"] twoOutputCoverage run :=
  runPdrSecEngine_accounts _ _ _ _ _ _ _ rfl

/-- After the split the first output is answered different and the second is not run; a
binary run that proves nothing reports both as covered. -/
theorem runPdrSecEngine_unaccounted :
    (∃ run, twoOutputRun true ⟨.different, 1⟩ = some run ∧
      ¬ (twoOutputProblem true).EveryOutputAccounted ["a", "b"] twoOutputCoverage run) ∧
    (∃ run, twoOutputRun false ⟨.inconclusive, 0⟩ = some run ∧
      run.result.status = .inconclusive ∧
      run.result.coveredOutputs ≠ ((twoOutputProblem false).provedOutputs run.runs).length) := by
  refine ⟨⟨_, rfl, ?_⟩, ⟨_, rfl, rfl, by decide⟩⟩
  rintro ⟨unresolved, hskipped, _, hcount⟩
  have hnil : unresolved = [] := by
    have hmap := List.append_eq_nil_iff.mp hskipped.symm
    exact List.map_eq_nil_iff.mp hmap.2
  have hsecond := hcount 1 (by decide)
  rw [hnil] at hsecond
  revert hsecond
  decide

end KInductionProblem
end KeplerFormal
