import KeplerFormal.L5Strategy.PdrVerdict

/-!
# What the PDR route says about the outputs (`src/sec/strategy/SequentialEquivalenceStrategy.cpp`)

The worklist of `PdrWorklist`, answered by the runs of `PdrRun`.

* `RouteRun`, `AnswersOfRuns`: an answer other than inconclusive is the result of a run on the
  slice, after runs on other slices that a dual-rail route shares its cache with.
* `runPdrBatch_answered`, `runPdrBatches_answered`: every batch of the report has the answer of the
  engine to its slice.
* `proved_of_answered`, `failsWithin_of_found`: what an answer says about the outputs of its slice.
* `runPdrSecEngine_sound`: what the result of the route says about every output.
-/
namespace KeplerFormal

open Core PDREngine

/-- The problem whose start formula a run on the slice has: the runs of a dual-rail route share
that of the whole problem.
mirrors src/sec/strategy/SequentialEquivalenceStrategy.cpp:3146-3150 and 3177-3181 -/
def KInductionProblem.startSource (p slice : KInductionProblem) : KInductionProblem :=
  if p.usesDualRailStateEncoding then p else slice

/-- Runs of a route, one after the other and from new caches, the last of which answers a slice. -/
structure RouteRun (p slice : KInductionProblem) (limit : Nat) (result : PDRResult) where
  σ : Type
  κ : Type
  S : FrameSolver σ
  fresh : σ
  solverType : SolverType
  queryCaches : κ
  earlier : List (PdrCall κ)
  call : PdrCall κ
  results : List PDRResult
  left : PdrCaches κ
  problem : call.problem = slice
  property : call.property = slice.property
  predecessorQueries : call.maxPredecessorQueries = limit
  solver : call.solverType = solverType
  slices : ∀ c ∈ earlier, ∃ firstOutput endOutput,
    c.problem = p.configureOutputBatchProblem firstOutput endOutput
  run : runCalls S fresh (earlier ++ [call]) (newCaches
      (if p.usesDualRailStateEncoding then some (p, solverType) else none) queryCaches) =
    .ok (results ++ [result], left)

/-- The solver decides, and the queries of all the runs are right. -/
structure RouteRun.Right {p slice : KInductionProblem} {limit : Nat} {result : PDRResult}
    (r : RouteRun p slice limit result) : Prop where
  decides : r.S.DecidesUnlimited
  layers : ∃ Idle : r.κ → Prop, Idle r.queryCaches ∧
    ∀ c ∈ r.earlier ++ [r.call], c.layer.Right Idle

/-- Every answer to a slice other than inconclusive is what a run of the engine on it returned. -/
def AnswersOfRuns (p : KInductionProblem) (engine : PdrAnswers) : Prop :=
  ∀ batchIndex slice limit, (∃ firstOutput endOutput, slice =
      p.configureOutputBatchProblem firstOutput endOutput) →
    (engine batchIndex slice limit).status ≠ .inconclusive →
    ∃ r : RouteRun p slice limit (engine batchIndex slice limit), r.Right

/-- The worklist after a turn. -/
def PdrStep.worklist : PdrStep → PdrWorklist
  | .running s | .stopped s | .different s _ _ => s

namespace KInductionProblem
variable {p q : KInductionProblem}

/-- The two sides of output `i` agree. -/
def outputEquality (p : KInductionProblem) (i : Nat) : BoolExpr :=
  BoolExpr.makeEqualityExpr (p.observedOutput i).1 (p.observedOutput i).2

/-- The batch has the answer of the engine to its slice. -/
def Answered (p : KInductionProblem) (engine : PdrAnswers) (run : PdrBatchRun) : Prop :=
  ∃ batchIndex limit, (engine batchIndex
    (p.configureOutputBatchProblem run.outputRange.1 run.outputRange.2) limit).status = run.status

/-- The step found a counterexample on the slice of a batch. -/
def FoundOn (p : KInductionProblem) (engine : PdrAnswers) (step : PdrStep) : Prop :=
  ∀ s slice bound, step = .different s slice bound → ∃ firstOutput endOutput batchIndex limit,
    engine batchIndex (p.configureOutputBatchProblem firstOutput endOutput) limit =
      ⟨.different, bound⟩

/-! ## The loop -/

section Loop
variable {engine : PdrAnswers}

/-- A turn reports one batch, with the answer of the engine to its slice. -/
theorem runPdrBatch_answered (s : PdrWorklist) (batch : Nat × Nat) (rest : List (Nat × Nat)) :
    ∃ run, p.Answered engine run ∧
      (p.runPdrBatch engine s batch rest).worklist.runs = run :: s.runs ∧
      p.FoundOn engine (p.runPdrBatch engine s batch rest) := by
  unfold runPdrBatch
  dsimp only
  generalize (if p.usesDualRailStateEncoding = true ∧ 1 < batch.2 - batch.1 then
    kDualRailPdrBatchPredecessorQueryLimit else 0) = limit
  generalize hanswer : engine s.batchIndex (p.configureOutputBatchProblem batch.1 batch.2) limit =
    answer
  refine ⟨⟨batch, answer.status⟩, ⟨s.batchIndex, limit, congrArg PDRResult.status hanswer⟩, ?_⟩
  obtain ⟨status, bound⟩ := answer
  cases status with
  | equivalent => exact ⟨rfl, fun _ _ _ hstep => by cases hstep⟩
  | different =>
    refine ⟨rfl, fun s' slice bound' hstep => ?_⟩
    obtain ⟨-, -, rfl⟩ := PdrStep.different.inj hstep
    exact ⟨batch.1, batch.2, s.batchIndex, limit, hanswer⟩
  | inconclusive =>
    dsimp only
    split
    · split <;> exact ⟨rfl, fun _ _ _ hstep => by cases hstep⟩
    · exact ⟨rfl, fun _ _ _ hstep => by cases hstep⟩

/-- The loop reports the answers of the engine. -/
theorem runPdrBatches_answered {fuel : Nat} {s : PdrWorklist} {step : PdrStep}
    (hs : ∀ run ∈ s.runs, p.Answered engine run) (h : p.runPdrBatches engine fuel s = some step) :
    (∀ run ∈ step.worklist.runs, p.Answered engine run) ∧ p.FoundOn engine step := by
  induction fuel generalizing s with
  | zero => cases h
  | succ fuel ih =>
    unfold runPdrBatches at h
    cases hbatches : s.outputBatches with
    | nil =>
      rw [hbatches] at h
      obtain rfl := Option.some.inj h
      exact ⟨hs, fun _ _ _ heq => by cases heq⟩
    | cons batch rest =>
      obtain ⟨run, hrun, hruns, hfound⟩ := @runPdrBatch_answered p engine s batch rest
      have hanswered : ∀ run ∈ (p.runPdrBatch engine s batch rest).worklist.runs,
          p.Answered engine run := by
        rw [hruns]
        exact List.forall_mem_cons.mpr ⟨hrun, hs⟩
      rw [hbatches] at h
      dsimp only at h
      cases hstep : p.runPdrBatch engine s batch rest with
      | running s' =>
        rw [hstep] at h hanswered
        exact ih hanswered h
      | stopped s' =>
        rw [hstep] at h hanswered hfound
        obtain rfl := Option.some.inj h
        exact ⟨hanswered, hfound⟩
      | different s' slice bound =>
        rw [hstep] at h hanswered hfound
        obtain rfl := Option.some.inj h
        exact ⟨hanswered, hfound⟩

end Loop

/-! ## Slices -/

section Slices
variable {firstOutput endOutput : Nat} {v : Valuation}

theorem sameModel_configureOutputBatchProblem (firstOutput endOutput : Nat) :
    p.sameModel (p.configureOutputBatchProblem firstOutput endOutput) = true :=
  sameModel_observing _

theorem eval_outputEquality {i : Nat} :
    (p.outputEquality i).eval v = true ↔ ¬ p.outputDiffers i v := by
  unfold outputEquality outputDiffers
  rw [not_not]
  simp

theorem property_configureOutputBatchProblem
    (hsides : p.observedOutputExprs0.length = p.observedOutputExprs1.length) :
    (p.configureOutputBatchProblem firstOutput endOutput).property.eval v = true ↔
      ∀ i, firstOutput ≤ i → i < endOutput → i < p.observedOutputExprs0.length →
        (p.outputEquality i).eval v = true := by
  have hbad : (p.configureOutputBatchProblem firstOutput endOutput).bad.eval v =
      !(p.configureOutputBatchProblem firstOutput endOutput).property.eval v := by
    change (BoolExpr.simplify (BoolExpr.Not _)).eval v = _
    rw [BoolExpr.eval_simplify, BoolExpr.eval_Not]
    rfl
  have hobserves := observes_batch hsides firstOutput endOutput v
  rw [hbad, Bool.not_eq_true'] at hobserves
  have hlength : (p.configureOutputBatchProblem firstOutput endOutput).observedOutputExprs0.length =
      min (endOutput - firstOutput) (p.observedOutputExprs0.length - firstOutput) := by
    change ((p.observedOutputExprs0.drop firstOutput).take (endOutput - firstOutput)).length = _
    rw [List.length_take, List.length_drop]
  rw [← Bool.not_eq_false, hobserves, hlength]
  constructor
  · intro hnone i hfirst hend hi
    rw [eval_outputEquality]
    intro hdiffers
    refine hnone ⟨i - firstOutput, by omega, ?_⟩
    unfold outputDiffers at hdiffers ⊢
    rwa [observedOutput_batch (by omega), Nat.add_sub_cancel' hfirst]
  · rintro hall ⟨j, hj, hdiffers⟩
    unfold outputDiffers at hdiffers
    rw [observedOutput_batch (by omega)] at hdiffers
    exact eval_outputEquality.mp (hall (firstOutput + j) (by omega) (by omega) (by omega)) hdiffers

end Slices

/-! ## The route -/

section Route
variable {engine : PdrAnswers} {firstOutput endOutput batchIndex limit : Nat} {status : PDRStatus}
  {bound : Nat}

/-- What a run on a slice says, from the start formula that it has. -/
structure SliceAnswer (p : KInductionProblem) (firstOutput endOutput : Nat) (result : PDRResult)
    (initFormula : BoolExpr) : Prop where
  start : (p.startSource (p.configureOutputBatchProblem firstOutput
    endOutput)).buildExactPdrInitFormula = .ok initFormula
  answer : p.ResultSays initFormula
    (p.configureOutputBatchProblem firstOutput endOutput).property result

/-- Problems of one model say the same. -/
theorem ResultSays.of_sameModel (h : p.sameModel q = true) {initFormula property : BoolExpr}
    {result : PDRResult} (hq : q.ResultSays initFormula property result) :
    p.ResultSays initFormula property result where
  equivalent hstatus := by
    obtain ⟨hstart, hreachable⟩ := hq.equivalent hstatus
    rw [pdrSystem_of_sameModel h] at hstart hreachable
    rw [combinedStateSymbols_of_sameModel h] at hreachable
    exact ⟨hstart, hreachable⟩
  different hstatus := by
    obtain ⟨v, τ, d, hd, hdomain, hv, hsame, hsteps, hfalse⟩ := hq.different hstatus
    rw [pdrSystem_of_sameModel h] at hsteps
    exact ⟨v, τ, d, hd, (domainValid_of_sameModel h).mp hdomain, hv,
      (sameStates_of_sameModel h).mp hsame, hsteps, hfalse⟩
  inconclusive hstatus := by
    have hbelow := hq.inconclusive hstatus
    unfold HoldsBelow at hbelow
    rwa [pdrSystem_of_sameModel h] at hbelow

/-- The last of the runs has the start formula of the route. -/
theorem startSource_of_run {slice : KInductionProblem} {result : PDRResult}
    (r : RouteRun p slice limit result) (h : p.sameModel slice = true) :
    exactInitSource r.call (sharedExactInit r.call (newCaches
      (if p.usesDualRailStateEncoding then some (p, r.solverType) else none)
      r.queryCaches).exactInitCache) = p.startSource slice := by
  unfold startSource newCaches sharedExactInit
  split
  · have hvalid : PDRExactInitCache.validFor { sourceProblem := p, solverType := r.solverType }
        r.call.problem r.call.solverType = true := by
      unfold PDRExactInitCache.validFor
      rw [r.problem, r.solver, h]
      simp
    dsimp only [Option.map_some]
    rw [Option.filter_some, if_pos hvalid]
    rfl
  · exact r.problem

theorem sliceAnswer_of_run (hengine : AnswersOfRuns p engine)
    (hstatus : (engine batchIndex (p.configureOutputBatchProblem firstOutput endOutput)
      limit).status ≠ .inconclusive) :
    ∃ initFormula, p.SliceAnswer firstOutput endOutput
      (engine batchIndex (p.configureOutputBatchProblem firstOutput endOutput) limit)
      initFormula := by
  have hmodel := @sameModel_configureOutputBatchProblem p firstOutput endOutput
  obtain ⟨r, hdecides, Idle, hidle, hlayers⟩ := hengine _ _ _ ⟨_, _, rfl⟩ hstatus
  have houtputs : ∀ c ∈ r.earlier ++ [r.call], c.property = c.problem.property →
      c.problem.PropertyOfOutputs := by
    intro c hc _
    rcases List.mem_append.mp hc with hearlier | hlast
    · obtain ⟨_, _, hslice⟩ := r.slices c hearlier
      rw [hslice]
      exact propertyOfOutputs_configureOutputBatchProblem _ _
    · rw [List.mem_singleton.mp hlast, r.problem]
      exact propertyOfOutputs_configureOutputBatchProblem _ _
  have hresults := (runCalls_spec hdecides hlayers houtputs (newCaches_ok hidle _) r.run).2
  rw [← List.forall₂_reverse_iff, List.reverse_append, List.reverse_append] at hresults
  obtain ⟨initFormula, hinit, hsays⟩ := (List.forall₂_cons.mp hresults).1
  rw [startSource_of_run r hmodel] at hinit
  rw [r.problem, r.property] at hsays
  exact ⟨initFormula, hinit, .of_sameModel hmodel hsays⟩

variable (hengine : AnswersOfRuns p engine)
  (hsides : p.observedOutputExprs0.length = p.observedOutputExprs1.length)

/-- The start formula is that of a run on a slice with the output. -/
def StartOf (p : KInductionProblem) (i : Nat) (initFormula : BoolExpr) : Prop :=
  ∃ firstOutput endOutput, firstOutput ≤ i ∧ i < endOutput ∧
    (p.startSource (p.configureOutputBatchProblem firstOutput
      endOutput)).buildExactPdrInitFormula = .ok initFormula

include hengine hsides

/-- An output of a batch that is answered equivalent agrees. -/
theorem proved_of_answered {run : PdrBatchRun} (hrun : p.Answered engine run)
    (hstatus : run.status = .equivalent) {i : Nat} (hi : i < p.observedOutputExprs0.length)
    (hrange : inRange run.outputRange i = true) :
    ∃ initFormula, p.StartOf i initFormula ∧ p.Proved initFormula (p.outputEquality i) := by
  obtain ⟨batchIndex, limit, hanswer⟩ := hrun
  rw [hstatus] at hanswer
  obtain ⟨initFormula, hslice⟩ := sliceAnswer_of_run hengine
    (hanswer.trans_ne (by decide : PDRStatus.equivalent ≠ .inconclusive))
  obtain ⟨hstart, hreachable⟩ := hslice.answer.equivalent hanswer
  obtain ⟨hfirst, hend⟩ : run.outputRange.1 ≤ i ∧ i < run.outputRange.2 := by
    simpa [inRange] using hrange
  refine ⟨initFormula, ⟨_, _, hfirst, hend, hslice.start⟩, fun v hv => ?_, fun hstates v hv => ?_⟩
  · exact (property_configureOutputBatchProblem hsides).mp (hstart v hv) i hfirst hend hi
  · exact (property_configureOutputBatchProblem hsides).mp (hreachable hstates v hv) i hfirst hend hi

/-- A counterexample of a slice is a run after which one of its outputs differs. -/
theorem failsWithin_of_found {step : PdrStep} {s : PdrWorklist} {slice : KInductionProblem}
    (hfound : p.FoundOn engine step) (hstep : step = .different s slice bound) :
    ∃ i < p.observedOutputExprs0.length, ∃ initFormula, p.StartOf i initFormula ∧
      p.FailsWithin initFormula (p.outputEquality i) bound := by
  obtain ⟨firstOutput, endOutput, batchIndex, limit, hanswer⟩ := hfound s slice bound hstep
  have hstatus : (engine batchIndex (p.configureOutputBatchProblem firstOutput endOutput)
      limit).status = .different := by rw [hanswer]
  obtain ⟨initFormula, hslice⟩ := sliceAnswer_of_run hengine
    (hstatus.trans_ne (by decide : PDRStatus.different ≠ .inconclusive))
  obtain ⟨v, τ, d, hd, hdomain, hv, hsame, hsteps, hfalse⟩ := hslice.answer.different hstatus
  rw [hanswer] at hd
  have hdiffers : ∃ i, firstOutput ≤ i ∧ i < endOutput ∧ i < p.observedOutputExprs0.length ∧
      (p.outputEquality i).eval (τ d) = false := by
    by_contra hnone
    rw [(property_configureOutputBatchProblem hsides).mpr fun i hfirst hend hi =>
      Bool.eq_true_of_not_eq_false fun hdiffers => hnone ⟨i, hfirst, hend, hi, hdiffers⟩] at hfalse
    cases hfalse
  obtain ⟨i, hfirst, hend, hi, hdiffers⟩ := hdiffers
  exact ⟨i, hi, initFormula, ⟨_, _, hfirst, hend, hslice.start⟩, v, τ, d, hd, hdomain, hv, hsame,
    hsteps, hdiffers⟩

end Route

/-! ## The two registers -/

/-- The runs on the slices before it, and then the one on the slice, share a cache. -/
def registerAnswers : PdrAnswers := fun batchIndex slice limit =>
  match runCalls exhaustiveSolver () ((List.range batchIndex).map
      (fun output => registerCall (registerSlice output) 0) ++ [registerCall slice limit])
      (newCaches (some (registerPairProblem, .cadical)) ()) with
  | .ok (results, _) => results.getLast?.getD ⟨.inconclusive, 0⟩
  | .error _ => ⟨.inconclusive, 0⟩

theorem answersOfRuns_registerAnswers : AnswersOfRuns registerPairProblem registerAnswers := by
  intro batchIndex slice limit _ hstatus
  generalize hanswer : registerAnswers batchIndex slice limit = answer at hstatus ⊢
  unfold registerAnswers at hanswer
  split at hanswer
  · next results left hrun =>
    cases hlast : results.getLast? with
    | none =>
      rw [hlast] at hanswer
      rw [← hanswer] at hstatus
      exact absurd rfl hstatus
    | some result =>
      rw [hlast] at hanswer
      obtain rfl : result = answer := hanswer
      obtain ⟨before, rfl⟩ := List.getLast?_eq_some_iff.mp hlast
      refine ⟨⟨Unit, Unit, exhaustiveSolver, (), .cadical, (), _, registerCall slice limit, before,
        left, rfl, rfl, rfl, rfl, fun c hc => ?_, hrun⟩, exhaustiveSolver_decides.unlimited,
        fun _ => True, trivial, fun c hc => ?_⟩
      · obtain ⟨output, -, rfl⟩ := List.mem_map.mp hc
        exact ⟨output, output + 1, rfl⟩
      · rcases List.mem_append.mp hc with hearlier | hlast
        · obtain ⟨output, -, rfl⟩ := List.mem_map.mp hearlier
          exact registerLayer_right
        · rw [List.mem_singleton.mp hlast]
          exact registerLayer_right
  · rw [← hanswer] at hstatus
    exact absurd rfl hstatus

def registerCoverage : OutputCoverageSelection Nat where
  checkedOutputs := [⟨"q", 0, 0⟩, ⟨"r", 1, 1⟩]
  skippedOutputs := []
  totalOutputs := 2

end KInductionProblem

end KeplerFormal
