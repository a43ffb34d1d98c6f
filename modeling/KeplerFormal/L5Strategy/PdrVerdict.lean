import KeplerFormal.L5Strategy.PdrRunSound

/-!
# What the results of PDR runs say (`src/sec/pdr/PDREngine.cpp`)

Runs one after the other may share a cache. What is asked of their queries and of those that certify
the shared invariant is a hypothesis; what is proved is what the loops of the engine and the reuse
of the invariant make of right answers.

* `selectPdrFrameInvariant_some`: a selected invariant follows from the start formula, and its
  check succeeded.
* `PdrQueryLayer.Right`: what is asked of the queries of a run.
* `runWithQueryLimits_spec`: the result of a run is right, and it leaves caches that are.
* `runCalls_sound`: so are all results of runs that share a cache.
-/
namespace KeplerFormal

open Core ProofEngineShared

namespace KInductionProblem

/-- The observed outputs agree exactly where the property holds. -/
def PropertyOfOutputs (p : KInductionProblem) : Prop :=
  ∀ v, p.property.eval v = true ↔
    ∀ pair ∈ p.observedOutputExprs0.zip p.observedOutputExprs1, pair.1.eval v = pair.2.eval v

theorem propertyOfOutputs_configureOutputBatchProblem {p : KInductionProblem}
    (firstOutput endOutput : Nat) :
    (p.configureOutputBatchProblem firstOutput endOutput).PropertyOfOutputs :=
  fun v => eval_outputConjunction v _ _

/-- The property holds in every start state and, with states, in every reachable one. -/
structure Proved (p : KInductionProblem) (initFormula property : BoolExpr) : Prop where
  start : ∀ v, (p.pdrSystem initFormula).init v → property.eval v = true
  reachable : p.combinedStateSymbols ≠ [] →
    ∀ v, (p.pdrSystem initFormula).Reachable v → property.eval v = true

/-- A run of at most `bound` steps from the states of a start state that ends where the property
fails. -/
def FailsWithin (p : KInductionProblem) (initFormula property : BoolExpr) (bound : Nat) : Prop :=
  ∃ (v : Valuation) (τ : Trace) (d : Nat), d ≤ bound ∧ p.DomainValid v ∧ initFormula.eval v = true ∧
    p.SameStates v (τ 0) ∧ (∀ i < d, (p.pdrSystem initFormula).step (τ i) () (τ (i + 1))) ∧
    property.eval (τ d) = false

/-- Every run of fewer than `bound` steps ends where the property holds. -/
def HoldsBelow (p : KInductionProblem) (initFormula property : BoolExpr) (bound : Nat) : Prop :=
  ∀ (τ : Trace) (d : Nat), (p.pdrSystem initFormula).init (τ 0) →
    (∀ i < d, (p.pdrSystem initFormula).step (τ i) () (τ (i + 1))) → d < bound →
    property.eval (τ d) = true

/-- What the result of a run says. -/
structure ResultSays (p : KInductionProblem) (initFormula property : BoolExpr)
    (result : PDRResult) : Prop where
  equivalent : result.status = .equivalent → p.Proved initFormula property
  different : result.status = .different → p.FailsWithin initFormula property result.bound
  inconclusive : result.status = .inconclusive → p.HoldsBelow initFormula property result.bound

end KInductionProblem

namespace PDREngine
variable {p : KInductionProblem} {property : BoolExpr} {v v' : Valuation}

/-! ## The problem of a run -/

/-- A run changes the property and what goes with it. -/
theorem runProblem_observes (p : KInductionProblem) (property : BoolExpr) :
    ∃ view, runProblem p property = p.observing view := by
  unfold runProblem
  split
  · exact ⟨p.ownView, rfl⟩
  · exact ⟨{ p.ownView with
      property := property.simplify
      bad := (BoolExpr.Not property.simplify).simplify
      inductionProperty := if property = p.property then p.inductionProperty else none
      inductionBad := if property = p.property then p.inductionBad else none }, rfl⟩

theorem sameModel_runProblem (p : KInductionProblem) (property : BoolExpr) :
    p.sameModel (runProblem p property) = true := by
  obtain ⟨view, hview⟩ := runProblem_observes p property
  rw [hview]
  exact KInductionProblem.sameModel_observing view

theorem outputs_runProblem :
    (runProblem p property).observedOutputExprs0 = p.observedOutputExprs0 ∧
      (runProblem p property).observedOutputExprs1 = p.observedOutputExprs1 := by
  unfold runProblem
  split <;> exact ⟨rfl, rfl⟩

theorem property_runProblem : (runProblem p property).property.eval v = property.eval v := by
  unfold runProblem
  split
  · next h => rw [h.1]
  · exact BoolExpr.eval_simplify _ _

theorem bad_runProblem :
    (runProblem p property).bad.eval v = !(runProblem p property).property.eval v := by
  unfold runProblem
  split
  · next h =>
    rw [h.2.2, BoolExpr.eval_simplify, BoolExpr.eval_Not, BoolExpr.eval_simplify, h.1]
  · dsimp only
    rw [BoolExpr.eval_simplify, BoolExpr.eval_Not]

/-! ## The frame invariant -/

section Invariant
variable {σ : Type} {S : FrameSolver σ} (hS : S.DecidesUnlimited) {fresh : σ}
  {initFormula e : BoolExpr}

include hS

theorem initialFrontierImplies_spec (h : initialFrontierImplies S fresh initFormula e = true)
    (hv : initFormula.eval v = true) : e.eval v = true := by
  unfold initialFrontierImplies isProofFormulaSatisfiable at h
  cases hsolve : (S.solve fresh [[encode 0 (BoolExpr.And initFormula (BoolExpr.Not e))]] []
      .unlimited).1 with
  | sat model =>
    rw [hsolve] at h
    cases h
  | unknown => exact absurd hsolve (hS _ _ _)
  | unsat =>
    by_contra he
    refine S.not_satisfiable hsolve ⟨fun _ => v, ?_⟩
    rw [evalQuery_cons, evalQuery_nil, Bool.and_true, evalClause_singleton, evalLit_encode,
      BoolExpr.eval_And, BoolExpr.eval_Not, hv, Bool.eq_false_of_not_eq_true he]
    rfl

omit hS in
theorem selectPdrFrameInvariant_some
    (h : selectPdrFrameInvariant p S fresh initFormula = .ok (some e)) :
    initialFrontierImplies S fresh initFormula e = true ∧
      isInductiveInvariant p S fresh (some e) none = .ok true := by
  unfold selectPdrFrameInvariant at h
  split at h
  · cases h
  · next candidate _ =>
    split at h
    · next himplies =>
      obtain ⟨inductive?, hinductive, h⟩ := bind_ok.mp h
      have hsome := Except.ok.inj h
      split at hsome
      · next htrue =>
        obtain rfl := Option.some.inj hsome
        exact ⟨himplies, htrue ▸ hinductive⟩
      · cases hsome
    · cases h

/-- A checked invariant is kept by every step. -/
theorem invariant_step (h : isInductiveInvariant p S fresh (some e) none = .ok true)
    (hv : p.Admissible v) (hv' : p.Admissible v') (hadvance : p.Advance v v')
    (he : e.eval v = true) : e.eval v' = true := by
  by_contra hleaves
  have hmodel : StepModel p e (invariantHypothesis e none) v v' :=
    ⟨hv.domain, hv'.domain, hadvance, hv.reset, he, Bool.not_eq_true _ ▸ hleaves⟩
  obtain ⟨q, hq, hanswer⟩ := bind_ok.mp h
  have hsat : Satisfiable evalAtom q := ⟨_, hmodel.query hq⟩
  cases hsolve : (S.solve fresh q [] .unlimited).1 with
  | sat m =>
    rw [hsolve] at hanswer
    cases hanswer
  | unsat => exact S.not_satisfiable hsolve hsat
  | unknown => exact hS fresh q [] hsolve

end Invariant

/-! ## What is asked of the queries -/

/-- What the answers of the queries are about. The cubes of a run stand for the states from which
`d` steps lead to a state that fails. -/
def runMeaning (p : KInductionProblem) (initFormula : BoolExpr) (frameInvariant : Option BoolExpr) :
    PdrMeaning where
  system := p.pdrSystem initFormula
  J v := p.Admissible v ∧ ∀ e, frameInvariant = some e → e.eval v = true
  Safe v := p.property.eval v = true
  StartFails := ∃ v, p.Admissible v ∧ initFormula.eval v = true ∧ p.property.eval v = false
  Leads d cube := (p.pdrSystem initFormula).CanFail p.SameStates
    (fun v => p.property.eval v = false) d fun v => p.DomainValid v ∧ cube.Holds v
  Meets cube := ∃ v, p.DomainValid v ∧ initFormula.eval v = true ∧ cube.Holds v

/-- What a run sees to before it asks. -/
structure Asks (p : KInductionProblem) (initFormula : BoolExpr) (frameInvariant : Option BoolExpr)
    (decomposeOutputBad : Bool) : Prop where
  bad : ∀ v, p.bad.eval v = !p.property.eval v
  outputs : decomposeOutputBad = true → p.PropertyOfOutputs
  start : ∀ v, (p.pdrSystem initFormula).init v → p.StartFacts (lit v)
  invariant : (p.pdrSystem initFormula).Inductive (runMeaning p initFormula frameInvariant).J

/-- The queries are right in every run: `Idle` is what holds of their caches between runs, whatever
the runs were about. -/
structure PdrQueryLayer.Right {κ : Type} (layer : PdrQueryLayer κ) (Idle : κ → Prop) : Prop where
  queries : ∀ source p initFormula frameInvariant decomposeOutputBad, source.sameModel p = true →
    Asks p initFormula frameInvariant decomposeOutputBad →
    ∃ Good, (layer.queries source p initFormula frameInvariant decomposeOutputBad).Right
        (runMeaning p initFormula frameInvariant) Good ∧
      (∀ caches, Idle caches →
        Good (layer.enter caches) [{ clauses := [], addedClauseLog := [] }]) ∧
      ∀ caches frames, Good caches frames → Idle caches
  certification : ∀ source initFormula, source.buildExactPdrInitFormula = .ok initFormula →
    (layer.certification source initFormula).Right (source.pdrSystem initFormula) Idle

/-- What holds between runs. -/
structure PdrCaches.Ok {κ : Type} (Idle : κ → Prop) (caches : PdrCaches κ) : Prop where
  certified : ∀ cache, caches.exactInitCache = some cache → cache.Certified
  idle : Idle caches.queryCaches

/-- New caches say nothing. -/
theorem newCaches_ok {κ : Type} {Idle : κ → Prop} {queryCaches : κ} (hidle : Idle queryCaches)
    (shared : Option (KInductionProblem × SolverType)) :
    (newCaches shared queryCaches).Ok Idle where
  certified cache h := by
    obtain ⟨source, -, rfl⟩ := Option.map_eq_some_iff.mp h
    have hempty : ∀ v, ClausesHold [] v := fun v clause hclause => absurd hclause List.not_mem_nil
    exact ⟨⟨[], [], frameInv_empty⟩, fun index heq => (by cases heq),
      fun initFormula _ => ⟨fun v _ => hempty v, fun v l v' _ _ => hempty v'⟩⟩
  idle := hidle

/-! ## One run -/

/-- A result is right about the problem that the run was called with. -/
theorem resultSays_of_resultOk {initFormula : BoolExpr} {frameInvariant : Option BoolExpr}
    {result : PDRResult}
    (h : (runMeaning (runProblem p property) initFormula frameInvariant).ResultOk
      ((runProblem p property).combinedStateSymbols != []) result) :
    p.ResultSays initFormula property result := by
  have hmodel := sameModel_runProblem p property
  have hsystem : (runMeaning (runProblem p property) initFormula frameInvariant).system =
      p.pdrSystem initFormula := KInductionProblem.pdrSystem_of_sameModel hmodel initFormula
  have hsafe : ∀ v, (runMeaning (runProblem p property) initFormula frameInvariant).Safe v →
      property.eval v = true := fun v hv => property_runProblem (p := p) ▸ hv
  refine ⟨fun hstatus => ?_, fun hstatus => ?_, fun hstatus τ d hstart hsteps hd => ?_⟩
  · obtain ⟨hstart, hinductive⟩ := h.equivalent hstatus
    rw [hsystem] at hstart hinductive
    refine ⟨fun v hv => hsafe v (hstart v hv), fun hstates v hv => ?_⟩
    obtain ⟨K, hK, hKsafe⟩ := hinductive (by
      rw [KInductionProblem.combinedStateSymbols_of_sameModel hmodel]
      simpa using hstates)
    exact hsafe v (hKsafe v (hK.reachable hv))
  · rcases h.different hstatus with ⟨-, v, hadmissible, hv, hfalse⟩ |
      ⟨cube, d, hleads, ⟨v, hdomain, hv, hcube⟩, hbound⟩
    · have hadmissible := (KInductionProblem.admissible_of_sameModel hmodel).mp hadmissible
      exact ⟨v, fun _ => v, 0, Nat.zero_le _, hadmissible.domain, hv, ⟨hadmissible, fun _ _ => rfl⟩,
        fun i hi => absurd hi (Nat.not_lt_zero i), property_runProblem.symm.trans hfalse⟩
    · obtain ⟨τ, hsame, hsteps, hbad⟩ := hleads v ⟨hdomain, hcube⟩
      refine ⟨v, τ, d, hbound, (KInductionProblem.domainValid_of_sameModel hmodel).mp hdomain, hv,
        (KInductionProblem.sameStates_of_sameModel hmodel).mp hsame, fun i hi => ?_,
        property_runProblem.symm.trans hbad⟩
      obtain ⟨l, hstep⟩ := hsteps i hi
      rwa [KInductionProblem.pdrSystem_of_sameModel hmodel] at hstep
  · rw [← hsystem] at hstart hsteps
    exact hsafe _ (h.inconclusive hstatus τ d hstart hsteps hd)

section Run
variable {κ σ : Type} {S : FrameSolver σ} (hS : S.DecidesUnlimited) {fresh : σ}
  {call : PdrCall κ} {Idle : κ → Prop} {initFormula : BoolExpr}
  {frameInvariant : Option BoolExpr} {caches caches' : PdrCaches κ} {result : PDRResult}
  {shared : Option PDRExactInitCache}

/-- The cache that a run shares is one of its model. -/
theorem sharedExactInit_some {cache : PDRExactInitCache}
    (h : sharedExactInit call caches.exactInitCache = some cache) :
    caches.exactInitCache = some cache ∧ cache.sourceProblem.sameModel call.problem = true := by
  obtain ⟨hcache, hvalid⟩ := Option.filter_eq_some_iff.mp h
  exact ⟨hcache, (Bool.and_eq_true_iff.mp hvalid).2⟩

/-- The problem with the start formula is one of the model of the run. -/
theorem sameModel_exactInitSource :
    (exactInitSource call (sharedExactInit call caches.exactInitCache)).sameModel call.problem =
      true := by
  unfold exactInitSource
  split
  · next cache hcache => exact (sharedExactInit_some hcache).2
  · exact KInductionProblem.sameModel_refl _

/-- What the queries are asked with. -/
theorem asks_of_run (hS : S.DecidesUnlimited)
    (houtputs : call.property = call.problem.property → call.problem.PropertyOfOutputs)
    (hinit : (exactInitSource call (sharedExactInit call
      caches.exactInitCache)).buildExactPdrInitFormula = .ok initFormula)
    (hselected : selectPdrFrameInvariant call.problem S fresh initFormula = .ok frameInvariant) :
    Asks (runProblem call.problem call.property) initFormula frameInvariant
      (decide (call.property = call.problem.property)) := by
  have hmodel := sameModel_runProblem call.problem call.property
  have hsource : (exactInitSource call (sharedExactInit call caches.exactInitCache)).sameModel
      (runProblem call.problem call.property) = true :=
    KInductionProblem.sameModel_trans sameModel_exactInitSource hmodel
  refine ⟨fun v => bad_runProblem, fun hdecompose v => ?_, fun v hv => ?_, ⟨fun v hv => ?_,
    fun v l v' hv hstep => ?_⟩⟩
  · have heq : call.property = call.problem.property := of_decide_eq_true hdecompose
    rw [property_runProblem, outputs_runProblem.1, outputs_runProblem.2, heq]
    exact houtputs heq v
  · rw [KInductionProblem.pdrSystem_of_sameModel hsource] at hv
    exact (KInductionProblem.startFacts_of_sameModel hsource).mpr
      (KInductionProblem.startFacts_of_init hinit hv)
  · refine ⟨hv.1, fun e he => ?_⟩
    obtain rfl : frameInvariant = some e := he
    exact initialFrontierImplies_spec hS (selectPdrFrameInvariant_some hselected).1 hv.2
  · refine ⟨hstep.2.1, fun e he => ?_⟩
    obtain rfl : frameInvariant = some e := he
    exact invariant_step hS (selectPdrFrameInvariant_some hselected).2
      ((KInductionProblem.admissible_of_sameModel hmodel).mp hstep.1)
      ((KInductionProblem.admissible_of_sameModel hmodel).mp hstep.2.1)
      ((KInductionProblem.advance_of_sameModel hmodel).mp hstep.2.2) (hv.2 e rfl)

/-- The cache of a run when its first query is asked. -/
structure Started (Idle : κ → Prop) (shared : Option PDRExactInitCache)
    (start : Option PDRExactInitCache × κ) : Prop where
  idle : Idle start.2
  same : Option.Rel PDRExactInitCache.SameSource shared start.1
  certified : ∀ cache, start.1 = some cache → cache.Certified

theorem refreshed_spec (hlayer : call.layer.Right Idle) (hcaches : caches.Ok Idle)
    (hshared : sharedExactInit call caches.exactInitCache = shared)
    (hinit : (exactInitSource call shared).buildExactPdrInitFormula = .ok initFormula) :
    Started Idle shared (refreshed call shared initFormula caches.queryCaches) := by
  cases shared with
  | none => exact ⟨hcaches.idle, .none, fun cache h => by cases h⟩
  | some cache =>
    have hrefresh := PDRExactInitCache.refreshReusableInvariant_spec
      (hcaches.certified cache (sharedExactInit_some hshared).1) hinit
      (hlayer.certification cache.sourceProblem initFormula hinit)
    obtain ⟨hidle, hcertified, hsame⟩ := Program.Triple.total hrefresh hcaches.idle
    refine ⟨hidle, .some hsame, fun cache' h => ?_⟩
    rw [← Option.some.inj h]
    exact hcertified

variable {start : Option PDRExactInitCache × κ}

/-- The shared invariant is one of the system of the run. -/
theorem Started.inductive_reusable (h : Started Idle shared start)
    (hshared : sharedExactInit call caches.exactInitCache = shared)
    (hinit : (exactInitSource call shared).buildExactPdrInitFormula = .ok initFormula) :
    ((runProblem call.problem call.property).pdrSystem initFormula).Inductive
      (ReusableHolds start.1) := by
  obtain ⟨hidle, hsame, hcertified⟩ := h
  obtain ⟨cache', queryCaches⟩ := start
  cases hsame with
  | none =>
    refine ⟨fun v _ cache heq => ?_, fun v l v' _ _ cache heq => ?_⟩ <;> cases heq
  | @some cache cache' hsame =>
    have hmodel : cache.sourceProblem.sameModel (runProblem call.problem call.property) = true :=
      KInductionProblem.sameModel_trans (sharedExactInit_some hshared).2
        (sameModel_runProblem call.problem call.property)
    have hinvariant := (hcertified cache' rfl).invariant initFormula (hsame.problem ▸ hinit)
    rw [hsame.problem, ← KInductionProblem.pdrSystem_of_sameModel hmodel] at hinvariant
    refine ⟨fun v hv cache'' heq => ?_, fun v l v' hv hstep cache'' heq => ?_⟩
    · rw [← Option.some.inj heq]
      exact hinvariant.init v hv
    · rw [← Option.some.inj heq]
      exact hinvariant.step v l v' (hv cache' rfl) hstep

/-- A conflict that a run knows has no start state. -/
theorem Started.knownConflict_outside (h : Started Idle shared start)
    (hshared : sharedExactInit call caches.exactInitCache = shared)
    (hinit : (exactInitSource call shared).buildExactPdrInitFormula = .ok initFormula)
    {cube conflict : StateCube}
    (hconflict : (runInitFacts call start.1).knownInitConflictCube cube = some conflict) :
    (runMeaning (runProblem call.problem call.property) initFormula frameInvariant).Outside
      conflict := by
  have hmodel : (exactInitSource call shared).sameModel
      (runProblem call.problem call.property) = true := by
    rw [← hshared]
    exact KInductionProblem.sameModel_trans sameModel_exactInitSource
      (sameModel_runProblem call.problem call.property)
  intro v hv
  change ((runProblem call.problem call.property).pdrSystem initFormula).init v at hv
  rw [KInductionProblem.pdrSystem_of_sameModel hmodel] at hv
  have hfacts := KInductionProblem.startFacts_of_init hinit hv
  obtain ⟨hidle, hsame, hcertified⟩ := h
  obtain ⟨cache', queryCaches⟩ := start
  cases hsame with
  | none =>
    exact (KInductionProblem.outside_of_knownConflict hconflict
      ((KInductionProblem.startFacts_of_sameModel hmodel).mpr hfacts)).1
  | @some cache cache' hsame =>
    have hindex : runInitFacts call (some cache') = cache'.sourceProblem.buildInitFactIndex := by
      unfold runInitFacts
      cases hknown : cache'.initFacts with
      | none => simp [hknown]
      | some index => simp [hknown, (hcertified cache' rfl).facts index hknown]
    rw [hindex, hsame.problem] at hconflict
    exact (KInductionProblem.outside_of_knownConflict hconflict hfacts).1

/-- What a run leaves to the next one. -/
theorem Started.leaves (h : Started Idle shared start) (hcaches : caches.Ok Idle)
    (hshared : sharedExactInit call caches.exactInitCache = shared) {state : PdrState κ}
    (hstate : Idle state.context.caches) :
    (PDREngine.leaves start.1 caches.exactInitCache state).Ok Idle ∧
      Option.Rel PDRExactInitCache.SameSource caches.exactInitCache
        (PDREngine.leaves start.1 caches.exactInitCache state).exactInitCache := by
  obtain ⟨hidle, hsame, hcertified⟩ := h
  obtain ⟨cache', queryCaches⟩ := start
  cases hsame with
  | none =>
    refine ⟨⟨hcaches.certified, hstate⟩, ?_⟩
    change Option.Rel PDRExactInitCache.SameSource caches.exactInitCache caches.exactInitCache
    cases caches.exactInitCache with
    | none => exact .none
    | some cache => exact .some ⟨rfl, rfl⟩
  | @some cache cache' hsame =>
    rw [(sharedExactInit_some hshared).1]
    have hfacts : ∀ index, some (cache'.initFacts.getD cache'.sourceProblem.buildInitFactIndex) =
        some index → index = cache'.sourceProblem.buildInitFactIndex := by
      intro index heq
      rw [← Option.some.inj heq]
      cases hknown : cache'.initFacts with
      | none => rfl
      | some known => exact (hcertified cache' rfl).facts known hknown
    have hrecord : (recordReusableInvariantCandidates cache' state.frames).Certified ∧
        cache'.SameSource (recordReusableInvariantCandidates cache' state.frames) := by
      have hcache := hcertified cache' rfl
      unfold recordReusableInvariantCandidates
      split
      · have hwith : ({ cache' with initFacts := some (cache'.initFacts.getD
            cache'.sourceProblem.buildInitFactIndex) } : PDRExactInitCache).Certified :=
          ⟨hcache.kept, hfacts, hcache.invariant⟩
        obtain ⟨hstored, hsource⟩ := hwith.store state.frames
        exact ⟨hstored, hsource.problem, hsource.solver⟩
      · exact hcache.store state.frames
    refine ⟨⟨fun cache'' heq => ?_, hstate⟩, .some ⟨?_, ?_⟩⟩
    · rw [← Option.some.inj heq]
      exact hrecord.1
    · exact hrecord.2.problem.trans hsame.problem
    · exact hrecord.2.solver.trans hsame.solver

/-- The start formula of a later run is the one that an earlier run would have had. -/
theorem exactInitSource_congr {before after : Option PDRExactInitCache}
    (h : Option.Rel PDRExactInitCache.SameSource before after) :
    exactInitSource call (sharedExactInit call after) =
      exactInitSource call (sharedExactInit call before) := by
  cases h with
  | none => rfl
  | @some cache cache' h =>
    have hvalid : cache'.validFor call.problem call.solverType =
        cache.validFor call.problem call.solverType := by
      unfold PDRExactInitCache.validFor
      rw [h.problem, h.solver]
    unfold sharedExactInit
    rw [Option.filter_some, Option.filter_some, hvalid]
    split
    · exact h.problem
    · rfl

include hS

/-- The result of a run is right, and so are the caches that it leaves. -/
theorem runWithQueryLimits_spec (hlayer : call.layer.Right Idle)
    (houtputs : call.property = call.problem.property → call.problem.PropertyOfOutputs)
    (hcaches : caches.Ok Idle)
    (hrun : runWithQueryLimits call S fresh caches = .ok (result, caches')) :
    (caches'.Ok Idle ∧ Option.Rel PDRExactInitCache.SameSource caches.exactInitCache
      caches'.exactInitCache) ∧
    ∃ initFormula, (exactInitSource call (sharedExactInit call
        caches.exactInitCache)).buildExactPdrInitFormula = .ok initFormula ∧
      call.problem.ResultSays initFormula call.property result := by
  unfold runWithQueryLimits at hrun
  obtain ⟨initFormula, hinit, hrun⟩ := bind_ok.mp hrun
  obtain ⟨frameInvariant, hselected, hrun⟩ := bind_ok.mp hrun
  obtain ⟨⟨result', state⟩, hexplore, hrun⟩ := bind_ok.mp hrun
  obtain ⟨rfl, rfl⟩ := Prod.mk.inj (Except.ok.inj hrun)
  generalize hshared : sharedExactInit call caches.exactInitCache = shared at *
  have hinit : (exactInitSource call shared).buildExactPdrInitFormula = .ok initFormula := by
    cases hbuilt : (exactInitSource call shared).buildExactPdrInitFormula with
    | error message =>
      rw [hbuilt] at hinit
      cases hinit
    | ok built =>
      rw [hbuilt] at hinit
      rw [Except.ok.inj hinit]
  have hselected : selectPdrFrameInvariant call.problem S fresh initFormula =
      .ok frameInvariant := by
    cases hfound : selectPdrFrameInvariant call.problem S fresh initFormula with
    | error message =>
      rw [hfound] at hselected
      cases hselected
    | ok found =>
      rw [hfound] at hselected
      rw [Except.ok.inj hselected]
  have hstart := refreshed_spec hlayer hcaches hshared hinit
  have hsource : (exactInitSource call (sharedExactInit call
      caches.exactInitCache)).buildExactPdrInitFormula = .ok initFormula := by
    rw [hshared]
    exact hinit
  have hasks := asks_of_run hS houtputs hsource hselected
  have hmodel : ((shared.map (·.sourceProblem)).getD
      (runProblem call.problem call.property)).sameModel
      (runProblem call.problem call.property) = true := by
    cases shared with
    | none => exact KInductionProblem.sameModel_refl _
    | some cache =>
      exact KInductionProblem.sameModel_trans (sharedExactInit_some hshared).2
        (sameModel_runProblem call.problem call.property)
  obtain ⟨Good, hQ, henter, hleave⟩ := hlayer.queries _ _ _ _ _ hmodel hasks
  have hended := explore_spec hQ hasks.invariant
    (fun cube conflict h => hstart.knownConflict_outside hshared hinit h)
    (hstart.inductive_reusable hshared hinit) _ _ _ _ ⟨rfl, henter _ hstart.idle⟩ _ _ hexplore
  obtain ⟨hresult, frames, hgood⟩ := hended
  exact ⟨hstart.leaves hcaches hshared (hleave _ _ hgood), initFormula, hinit,
    resultSays_of_resultOk hresult⟩

/-- The results of runs one after the other, and what they leave. -/
theorem runCalls_spec {calls : List (PdrCall κ)} {results : List PDRResult}
    (hlayers : ∀ call ∈ calls, call.layer.Right Idle)
    (houtputs : ∀ call ∈ calls, call.property = call.problem.property →
      call.problem.PropertyOfOutputs)
    (hcaches : caches.Ok Idle)
    (hrun : runCalls S fresh calls caches = .ok (results, caches')) :
    caches'.Ok Idle ∧
    List.Forall₂ (fun call result => ∃ initFormula, (exactInitSource call (sharedExactInit call
        caches.exactInitCache)).buildExactPdrInitFormula = .ok initFormula ∧
      call.problem.ResultSays initFormula call.property result) calls results := by
  induction calls generalizing caches results with
  | nil =>
    obtain ⟨rfl, rfl⟩ := Prod.mk.inj (Except.ok.inj hrun)
    exact ⟨hcaches, .nil⟩
  | cons call calls ih =>
    obtain ⟨⟨result, caches₁⟩, hfirst, hrun⟩ := bind_ok.mp hrun
    obtain ⟨⟨others, caches₂⟩, hothers, hrun⟩ := bind_ok.mp hrun
    obtain ⟨rfl, rfl⟩ := Prod.mk.inj (Except.ok.inj hrun)
    obtain ⟨⟨hok, hsame⟩, hsays⟩ := runWithQueryLimits_spec hS (hlayers call List.mem_cons_self)
      (houtputs call List.mem_cons_self) hcaches hfirst
    obtain ⟨hok', hrest⟩ := ih (fun call h => hlayers call (List.mem_cons_of_mem _ h))
      (fun call h => houtputs call (List.mem_cons_of_mem _ h)) hok hothers
    refine ⟨hok', .cons hsays (hrest.imp fun call result h => ?_)⟩
    rwa [exactInitSource_congr hsame] at h

end Run

/-! ## Two registers -/

/-- Register 40 keeps its value, and 41 takes it. -/
def registerPairProblem : KInductionProblem where
  state0Symbols := [40, 41]
  transitions0 := [(40, .var 40), (41, .var 40)]
  initialStateAssignments := [(40, false), (41, false)]
  observedOutputExprs0 := [.var 40, .var 41]
  observedOutputExprs1 := [.var 0, .var 0]
  usesDualRailStateEncoding := true
  property := .not (.or (.var 40) (.var 41))
  bad := .or (.var 40) (.var 41)

/-- Answers to what a run that looks at register `s` asks. -/
def registerQueries (s : Nat) : PdrQueries Unit where
  findBadCube frames level :=
    if level = 0 ∨ [⟨s, false⟩] ∈ (frameAt frames level).clauses then return none
    else return some [⟨s, true⟩]
  findPredecessorCube frames level target _ _ :=
    if (target = [⟨40, true⟩] ∨ target = [⟨41, true⟩]) ∧
        (level = 0 ∨ [⟨40, false⟩] ∈ (frameAt frames level).clauses) then return {}
    else throw (.error "not answered")
  cubeIntersectsInit cube :=
    if cube = [⟨40, true⟩] ∨ cube = [⟨41, true⟩] then return false
    else throw (.error "not answered")
  cachedPredecessorUnsatCoreForCube _ _ _ _ := return none
  retireGeneralizationStatusQ2Selectors := id

def unansweredQueries : PdrQueries Unit where
  findBadCube _ _ := throw (.error "not answered")
  findPredecessorCube _ _ _ _ _ := throw (.error "not answered")
  cubeIntersectsInit _ := throw (.error "not answered")
  cachedPredecessorUnsatCoreForCube _ _ _ _ := throw (.error "not answered")
  retireGeneralizationStatusQ2Selectors := id

def registerLayer : PdrQueryLayer Unit where
  enter := id
  queries _ p _ _ _ :=
    if registerPairProblem.sameModel p = true ∧ p.property = .not (.var 40) then registerQueries 40
    else if registerPairProblem.sameModel p = true ∧ p.property = .not (.var 41) then
      registerQueries 41
    else unansweredQueries
  certification source _ :=
    { violatedInitially := fun _ => return .unknown
      violatedNext := fun base candidates active =>
        if registerPairProblem.sameModel source = true ∧ base = [] ∧
          candidates = [[⟨40, false⟩]] ∧ active = [true] then return .unsat
        else return .unknown
      certificationBudgetExhausted := fun _ => false }

section Registers
variable {s : Nat} {initFormula : BoolExpr} {frameInvariant : Option BoolExpr}

theorem registerPair_step (hmodel : registerPairProblem.sameModel p = true)
    (h : (p.pdrSystem initFormula).step v () v') : lit v' 40 = lit v 40 ∧ lit v' 41 = lit v 40 := by
  have hadvance := (KInductionProblem.advance_of_sameModel hmodel).mp h.2.2
  exact ⟨hadvance 40 _ rfl, hadvance 41 _ rfl⟩

theorem registerPair_start (hmodel : registerPairProblem.sameModel p = true)
    (h : p.StartFacts (lit v)) : lit v 40 = false ∧ lit v 41 = false := by
  have hstart := ((KInductionProblem.startFacts_of_sameModel hmodel).mp h).assignments
  exact ⟨hstart (40, false) (by decide), hstart (41, false) (by decide)⟩

/-- A register that is set nowhere in the frame is clear. -/
theorem register_clear (hmodel : registerPairProblem.sameModel p = true) (hs : s = 40 ∨ s = 41)
    (hstart : ∀ v, (p.pdrSystem initFormula).init v → p.StartFacts (lit v))
    {frames : List FrameClauses} {level : Nat}
    (h : level = 0 ∨ [⟨s, false⟩] ∈ (frameAt frames level).clauses)
    (hframe : FrameHolds frames level v)
    (hinit : level = 0 → (p.pdrSystem initFormula).init v) : lit v s = false := by
  rcases h with h0 | hclause
  · obtain ⟨h40, h41⟩ := registerPair_start hmodel (hstart v (hinit h0))
    rcases hs with rfl | rfl
    · exact h40
    · exact h41
  · obtain ⟨literal, hliteral, hvalue⟩ := hframe _ hclause
    rwa [List.mem_singleton.mp hliteral] at hvalue

theorem not_holds_of_clear (h : lit v s = false) : ¬ StateCube.Holds v [⟨s, true⟩] := by
  intro hcube
  have hset := hcube ⟨s, true⟩ List.mem_cons_self
  rw [h] at hset
  cases hset

theorem registerQueries_right (hmodel : registerPairProblem.sameModel p = true)
    (hs : s = 40 ∨ s = 41) (hproperty : p.property = .not (.var s))
    (hstart : ∀ v, (p.pdrSystem initFormula).init v → p.StartFacts (lit v)) :
    (registerQueries s).Right (runMeaning p initFormula frameInvariant) fun _ _ => True where
  grows _ _ _ _ _ _ := trivial
  retire _ _ _ := trivial
  bad frames level := by
    have hsafe : ∀ v, (runMeaning p initFormula frameInvariant).Safe v ↔ lit v s = false := by
      intro v
      change p.property.eval v = true ↔ _
      rw [hproperty]
      simp [BoolExpr.eval]
    refine .ite (fun hnone => .ret _ fun c _ => ⟨trivial, fun _ _ v hv => ?_, fun cube heq => ?_⟩)
      fun hsome => .ret _ fun c _ => ⟨trivial, fun heq => ?_, fun cube heq => ⟨?_, fun h0 => ?_⟩⟩
    · exact (hsafe v).mpr (register_clear hmodel hs hstart hnone hv.frame hv.start)
    · cases heq
    · cases heq
    · rw [← Option.some.inj heq]
      rintro v ⟨hdomain, hcube⟩
      have hadmissible : p.Admissible v := by
        refine ⟨hdomain, fun hcycles => absurd ?_ hcycles⟩
        obtain ⟨view, _, _, _, rfl⟩ := KInductionProblem.sameModel_iff.mp hmodel
        rfl
      refine ⟨fun _ => v, ⟨hadmissible, fun _ _ => rfl⟩,
        fun i hi => absurd hi (Nat.not_lt_zero i), ?_⟩
      have hvalue := hcube ⟨s, true⟩ List.mem_cons_self
      rw [hproperty]
      simpa [BoolExpr.eval] using hvalue
    · exact absurd (.inl h0) hsome
  predecessor frames level target exclude purpose := by
    refine .ite (fun hnone => .ret _ fun c _ => ⟨trivial, fun _ _ v v' hv _ hstep hcube => ?_,
      fun cube d heq => ?_⟩) fun _ => .stop _
    · have hclear := register_clear hmodel (.inl rfl) hstart hnone.2 hv.frame hv.start
      obtain ⟨h40, h41⟩ := registerPair_step hmodel hstep
      rcases hnone.1 with rfl | rfl
      · exact not_holds_of_clear (h40.trans hclear) hcube
      · exact not_holds_of_clear (h41.trans hclear) hcube
    · cases heq
  intersects frames cube := by
    refine .ite (fun hcube => .ret _ fun c _ => ⟨trivial, fun _ v hv hholds => ?_, fun heq => ?_⟩)
      fun _ => .stop _
    · obtain ⟨h40, h41⟩ := registerPair_start hmodel (hstart v hv)
      rcases hcube with rfl | rfl
      · exact not_holds_of_clear h40 hholds
      · exact not_holds_of_clear h41 hholds
    · cases heq
  core frames level cube := .ret _ fun c _ => ⟨trivial, fun core heq => by cases heq⟩

theorem unansweredQueries_right (M : PdrMeaning) :
    unansweredQueries.Right M fun _ _ => True where
  grows _ _ _ _ _ _ := trivial
  retire _ _ _ := trivial
  bad _ _ := .stop _
  predecessor _ _ _ _ _ := .stop _
  intersects _ _ := .stop _
  core _ _ _ := .stop _

theorem registerLayer_right : registerLayer.Right fun _ => True where
  queries source p initFormula frameInvariant decomposeOutputBad _ hasks := by
    refine ⟨fun _ _ => True, ?_, fun _ _ => trivial, fun _ _ _ => trivial⟩
    unfold registerLayer
    dsimp only
    split
    · next h => exact registerQueries_right h.1 (.inl rfl) h.2 hasks.start
    · split
      · next h => exact registerQueries_right h.1 (.inr rfl) h.2 hasks.start
      · exact unansweredQueries_right _
  certification source initFormula _ := by
    refine ⟨fun clause => .ret _ fun _ _ => ⟨trivial, fun heq => by cases heq⟩,
      fun base candidates active => .ite (fun h => .ret _ fun _ _ => ⟨trivial, fun _ => ?_⟩)
        fun _ => .ret _ fun _ _ => ⟨trivial, fun heq => by cases heq⟩⟩
    obtain ⟨hmodel, rfl, rfl, rfl⟩ := h
    intro v v' hstep _ hv clause hclause
    obtain ⟨literal, hliteral, hvalue⟩ := hv clause hclause
    obtain rfl : clause = [⟨40, false⟩] := by simpa [activeClauses] using hclause
    rw [List.mem_singleton.mp hliteral] at hvalue
    exact ⟨⟨40, false⟩, List.mem_cons_self, (registerPair_step hmodel hstep).1.trans hvalue⟩

end Registers

/-- A run on a slice. -/
def registerCall (slice : KInductionProblem) (limit : Nat) : PdrCall Unit where
  layer := registerLayer
  problem := slice
  solverType := .cadical
  maxPredecessorQueries := limit
  maxFrames := 5
  property := slice.property
  fuel := 20

/-- The slice of one output. -/
def registerSlice (output : Nat) : KInductionProblem :=
  registerPairProblem.configureOutputBatchProblem output (output + 1)

def registerCalls : List (PdrCall Unit) :=
  [registerCall (registerSlice 0) 0, registerCall (registerSlice 1) 0]

theorem registerCalls_layer {call : PdrCall Unit} (h : call ∈ registerCalls) :
    call.layer = registerLayer := by
  rcases List.mem_pair.mp h with rfl | rfl <;> rfl

theorem registerCalls_outputs {call : PdrCall Unit} (h : call ∈ registerCalls) :
    call.problem.PropertyOfOutputs := by
  rcases List.mem_pair.mp h with rfl | rfl <;>
    exact KInductionProblem.propertyOfOutputs_configureOutputBatchProblem _ _

end PDREngine

end KeplerFormal
