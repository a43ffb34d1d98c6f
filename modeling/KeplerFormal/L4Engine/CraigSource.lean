import KeplerFormal.L4Engine.CraigSound

/-!
# The direct source of the image query (`src/sec/imc/CraigInterpolatingModelChecker.cpp`)

The fast path encodes the bootstrap cube directly and takes the regions of `Q` from
index 1 on, as if the first region were always the cube. Compaction tries the oldest
regions first and may drop that one.

* `KeepsInitialRegion`: the expansion does not drop the first region.
* `SourceInv`, `sourceInv_step`: the first region is the cube.
* `source_agrees`: in runs of such steps the fast path denotes `Q`.
* `source_disagrees`: a run whose eighth region lets compaction drop the cube.
-/
namespace KeplerFormal

open Core KInductionProblem

section Source
variable {c : CraigConfig} {ς : Type} {S : CraigSatSolver ς} {fresh : ς}

/-- The pass adds the interpolant to `Q`. -/
def Expands (S : CraigSatSolver ς) (fresh : ς) (c : CraigConfig) (loop : CraigLoop)
    (choice : LoopChoice) (region : InterpolantRegion) : Prop :=
  regionContainedInReachableUnion c.problem loop.tracked c.helperInvariantRegions
      loop.activeAuxiliary S fresh loop.reachableRegions region = false ∧
    (choice.growthBudgetExceeded = true → choice.continueSaturated = true)

/-- An expansion either stays below the size that compaction starts at, or the first
region is not covered by the others. -/
def KeepsInitialRegion (S : CraigSatSolver ς) (fresh : ς) (c : CraigConfig) :
    CraigState → CraigChoice → Prop
  | .looping _ loop, .image choice => ∀ cnf, choice.answer = .unsat cnf →
    Expands S fresh c loop choice (convertInterpolant S fresh cnf) →
    loop.reachableRegions.length + 1 < kCraigRegionCompactionStart ∨
      ∀ first ∈ loop.reachableRegions.head?,
        regionContainedInReachableUnion c.problem loop.tracked c.helperInvariantRegions
          loop.activeAuxiliary S fresh
          (loop.reachableRegions.tail ++ [convertInterpolant S fresh cnf]) first = false
  | _, _ => True

/-- The first region of `Q` is the one the round started from. -/
structure SourceInv (c : CraigConfig) (loop : CraigLoop) : Prop where
  first : ∃ rest, loop.reachableRegions = loop.concreteInitialRegion :: rest
  cube : loop.hasConcreteInitialCube = true → buildConcreteAssignmentRegion
    c.problem.bootstrapStateAssignments loop.tracked = some loop.concreteInitialRegion
  initial_total : loop.concreteInitialRegion.Total
  total : ∀ r ∈ loop.reachableRegions, r.Total

def SourceStateInv (c : CraigConfig) : CraigState → Prop
  | .looping _ loop => SourceInv c loop
  | _ => True

def SourceOutcomeInv (c : CraigConfig) : LoopOutcome → Prop
  | .again loop => SourceInv c loop
  | .done _ _ => True

theorem SourceInv.restart {loop : CraigLoop} (h : SourceInv c loop) : SourceInv c loop.restart where
  first := ⟨[], rfl⟩
  cube := h.cube
  initial_total := h.initial_total
  total := List.forall_mem_singleton.mpr h.initial_total

theorem SourceInv.mine {loop next : CraigLoop} (h : SourceInv c loop) {choice : MiningChoice}
    (hmine : loop.mine S fresh c choice = some next) : SourceInv c next := by
  unfold CraigLoop.mine CraigLoop.promote at hmine
  dsimp only at hmine
  split at hmine
  · cases hmine
  · rw [Option.some.injEq] at hmine
    subst hmine
    exact { h with }

/-- Compaction keeps a first region that the others do not cover. -/
theorem compactReachableRegions_cons {p : KInductionProblem} {tracked : List Nat}
    {helpers : List InterpolantRegion} {X : AuxiliaryStateInvariants} {first : InterpolantRegion}
    {rest : List InterpolantRegion} {start limit : Nat}
    (h : rest.length + 1 < start ∨
      regionContainedInReachableUnion p tracked helpers X S fresh rest first = false) :
    ∃ rest', compactReachableRegions S fresh p tracked helpers X (first :: rest) start limit =
      first :: rest' := by
  rcases @compaction_cases _ S fresh p tracked helpers X (first :: rest) start limit with
    hkept | ⟨i, r, hi, hstart, _, hcontained, hkept⟩
  · exact ⟨rest, hkept⟩
  · cases i with
    | zero =>
      rw [List.getElem?_cons_zero, Option.some.injEq] at hi
      subst hi
      rw [List.length_cons] at hstart
      rcases h with h | h
      · omega
      · rw [List.eraseIdx_cons_zero, h] at hcontained
        cases hcontained
    | succ i => exact ⟨rest.eraseIdx i, hkept⟩

theorem SourceInv.expand {loop : CraigLoop} (h : SourceInv c loop) {region : InterpolantRegion}
    (htotal : region.Total)
    (hkeeps : loop.reachableRegions.length + 1 < kCraigRegionCompactionStart ∨
      ∀ first ∈ loop.reachableRegions.head?,
        regionContainedInReachableUnion c.problem loop.tracked c.helperInvariantRegions
          loop.activeAuxiliary S fresh (loop.reachableRegions.tail ++ [region]) first = false) :
    SourceInv c (loop.expand S fresh c region) := by
  obtain ⟨rest, hregions⟩ := h.first
  refine { h with first := ?_, total := fun r hr => ?_ }
  · rw [CraigLoop.expand, hregions, List.cons_append]
    refine compactReachableRegions_cons ?_
    rw [hregions] at hkeeps
    refine hkeeps.imp (fun hlt => ?_) fun hcovered => hcovered _ rfl
    simpa using hlt
  · rcases List.mem_append.mp (compaction_subset _ _ _ _ _ _ _ hr) with hr | hr
    · exact h.total r hr
    · exact List.mem_singleton.mp hr ▸ htotal

/-! ## Steps -/

theorem sourceOutcome_refineOrRestart {loop : CraigLoop} (h : SourceInv c loop)
    (choice : LoopChoice) : SourceOutcomeInv c (refineOrRestart c loop choice) := by
  unfold refineOrRestart
  dsimp only
  split
  · trivial
  · split
    · trivial
    · split
      · trivial
      · exact h.restart

theorem sourceOutcome_satPass {loop : CraigLoop} (h : SourceInv c loop) (choice : LoopChoice) :
    SourceOutcomeInv c (satPass S fresh c loop choice) := by
  unfold satPass
  dsimp only
  split
  · rename_i mined _ hlocal
    split at hlocal
    · exact h.mine hlocal
    · cases hlocal
  · rename_i mined _ hselected
    split at hselected
    · cases hselected
    · obtain ⟨mining, _, hmined⟩ := Option.bind_eq_some_iff.mp hselected
      exact h.mine hmined
  · exact sourceOutcome_refineOrRestart h choice

theorem sourceOutcome_unsatPass {loop : CraigLoop} (h : SourceInv c loop) {choice : LoopChoice}
    {cnf : CraigInterpolantCnf} (htotal : cnf.Total)
    (hkeeps : Expands S fresh c loop choice (convertInterpolant S fresh cnf) →
      loop.reachableRegions.length + 1 < kCraigRegionCompactionStart ∨
        ∀ first ∈ loop.reachableRegions.head?,
          regionContainedInReachableUnion c.problem loop.tracked c.helperInvariantRegions
            loop.activeAuxiliary S fresh
            (loop.reachableRegions.tail ++ [convertInterpolant S fresh cnf]) first = false) :
    SourceOutcomeInv c (unsatPass S fresh c loop choice cnf) := by
  unfold unsatPass
  dsimp only
  split
  · trivial
  · rename_i hnew
    have hnew := Bool.eq_false_iff.mpr hnew
    split
    · unfold overBudget
      dsimp only
      split
      · trivial
      · split
        · rename_i hcontinue
          exact h.expand (total_convertInterpolant htotal) (hkeeps ⟨hnew, fun _ => hcontinue⟩)
        · split
          · exact h.restart
          · trivial
    · rename_i hbudget
      exact h.expand (total_convertInterpolant htotal)
        (hkeeps ⟨hnew, fun hexceeded => absurd hexceeded hbudget⟩)

theorem sourceOutcome_loopPass {loop : CraigLoop} (h : SourceInv c loop) {choice : LoopChoice}
    (hanswers : ∀ cnf, choice.answer = .unsat cnf →
      cnf.Interpolates 1 (loop.queryA c choice.plan) (loop.queryB c choice.plan))
    {n : Nat} (hkeeps : KeepsInitialRegion S fresh c (.looping n loop) (.image choice))
    {outcome : LoopOutcome} (hpass : loopPass S fresh c loop choice = some outcome) :
    SourceOutcomeInv c outcome := by
  unfold loopPass at hpass
  split at hpass
  · obtain rfl := Option.some.inj hpass
    trivial
  · split at hpass
    · obtain rfl := Option.some.inj hpass
      trivial
    · split at hpass
      · cases hpass
      · split at hpass
        · rename_i cnf hanswer
          obtain rfl := Option.some.inj hpass
          exact sourceOutcome_unsatPass h (hanswers cnf hanswer).total (hkeeps cnf hanswer)
        · obtain rfl := Option.some.inj hpass
          exact sourceOutcome_satPass h choice

theorem sourceState_finishRound (n size : Nat) (tracked : List Nat) (X : AuxiliaryStateInvariants)
    (r : CraigImcResult) : SourceStateInv c (finishRound n size tracked X r) := by
  unfold finishRound
  split <;> trivial

theorem sourceState_startLoop {n : Nat} {tracked : List Nat} {X : AuxiliaryStateInvariants}
    {initial : InterpolantRegion} (htotal : initial.Total) {concrete : Bool}
    (hcube : concrete = true → buildConcreteAssignmentRegion
      c.problem.bootstrapStateAssignments tracked = some initial) :
    SourceStateInv c (startLoop S fresh c n tracked X initial concrete) := by
  unfold startLoop
  split
  · exact ⟨⟨[], rfl⟩, hcube, htotal, List.forall_mem_singleton.mpr htotal⟩
  · exact sourceState_finishRound _ _ _ _ _

theorem sourceState_roundStep {n : Nat} {tracked : List Nat} {X : AuxiliaryStateInvariants}
    {choice : RoundChoice} (hanswers : Answers c (.round n tracked X) (.round choice)) :
    SourceStateInv c (roundStep S fresh c n tracked X choice) := by
  unfold roundStep
  split
  · trivial
  · split
    · trivial
    · split
      · rename_i initial hinitial
        exact sourceState_startLoop (total_concreteRegion hinitial) fun _ => hinitial
      · split
        · rename_i cnf hanswer
          exact sourceState_startLoop (total_convertInterpolant (hanswers cnf hanswer).total)
            fun h => by cases h
        · exact sourceState_finishRound _ _ _ _ _

theorem sourceInv_step {s s' : CraigState} {choice : CraigChoice} (h : SourceStateInv c s)
    (hkeeps : KeepsInitialRegion S fresh c s choice) (hanswers : Answers c s choice)
    (hstep : craigStep S fresh c s choice = some s') : SourceStateInv c s' := by
  match s, choice with
  | .round n tracked X, .round choice =>
    obtain rfl := Option.some.inj hstep
    exact sourceState_roundStep hanswers
  | .looping n loop, .image choice =>
    simp only [craigStep] at hstep
    split at hstep
    · rename_i next hpass
      obtain rfl := Option.some.inj hstep
      exact sourceOutcome_loopPass h hanswers hkeeps hpass
    · rename_i result after hpass
      obtain rfl := Option.some.inj hstep
      exact sourceState_finishRound _ _ _ _ _
    · cases hstep
  | .round _ _ _, .image _ => cases hstep
  | .looping _ _, .round _ => cases hstep
  | .finished _, _ => cases hstep

theorem inductive_sourceInv :
    ((craigChecker S fresh c).restrict (KeepsInitialRegion S fresh c)).Inductive
      (SourceStateInv c) where
  init := by
    rintro _ rfl
    unfold initialCraigState
    dsimp only
    split <;> trivial
  step _ _ _ h hstep := sourceInv_step h hstep.1 hstep.2.1 hstep.2.2

/-! ## What the source denotes -/

theorem SourceInv.denotes {loop : CraigLoop} (h : SourceInv c loop)
    (hconsistent : Consistent c.problem.bootstrapStateAssignments) (σ : Nat → Bool) :
    SourceDenotes (loop.source c) σ ↔ ∃ r ∈ loop.reachableRegions, r.Holds σ := by
  obtain ⟨rest, hregions⟩ := h.first
  have hne : loop.reachableRegions ≠ [] := hregions ▸ List.cons_ne_nil _ _
  rw [CraigLoop.source, imageSource]
  cases hdirect : loop.useDirectConcreteCube c with
  | false =>
    rw [if_neg (by decide)]
    exact sourceDenotes_regionSource h.total hne σ
  | true =>
    rw [if_pos rfl, sourceDenotes_directSource fun r hr => h.total r (List.mem_of_mem_tail hr)]
    have hcube := h.cube (Bool.and_eq_true_iff.mp hdirect).1
    rw [← cubeHolds_iff hconsistent, ← holds_concreteRegion hcube, hregions, List.tail_cons,
      List.exists_mem_cons_iff]

/-- Every successor of a frame in `Q` is in `Q`, as far as the queries' facts go. -/
def ImageInside (c : CraigConfig) (loop : CraigLoop) : Prop :=
  ∀ σ σ', FrameFacts c.problem c.helperInvariantRegions loop.activeAuxiliary σ →
    FrameFacts c.problem c.helperInvariantRegions loop.activeAuxiliary σ' →
    c.problem.Advance σ σ' → (∃ r ∈ loop.reachableRegions, r.Holds (lit σ)) →
    ∃ r ∈ loop.reachableRegions, r.Holds (lit σ')

theorem SourceInv.sourceHolds {loop : CraigLoop} (h : SourceInv c loop)
    (hconsistent : Consistent c.problem.bootstrapStateAssignments) {σ : Nat → Bool}
    (hQ : ∃ r ∈ loop.reachableRegions, r.Holds σ) : SourceHolds (loop.source c) σ := by
  obtain ⟨r, hr, hholds⟩ := hQ
  cases hdirect : loop.useDirectConcreteCube c with
  | false => exact sourceHolds_of_plain hdirect h.total hr hholds
  | true =>
    have hcube := h.cube (Bool.and_eq_true_iff.mp hdirect).1
    obtain ⟨rest, hregions⟩ := h.first
    refine sourceHolds_of_tail hdirect h.total ?_
    rw [hregions] at hr ⊢
    rcases List.mem_cons.mp hr with rfl | hr
    · exact .inl ((cubeHolds_iff hconsistent _ _).mp ((holds_concreteRegion hcube σ).mp hholds))
    · exact .inr ⟨r, hr, hholds⟩

theorem SourceInv.imageInside {loop : CraigLoop} (h : SourceInv c loop)
    (hconsistent : Consistent c.problem.bootstrapStateAssignments) {cnf : CraigInterpolantCnf}
    {plan : Nat → ProjectedTransitionFrame}
    (hcnf : cnf.Interpolates 1 (loop.queryA c plan) (loop.queryB c plan))
    (hcontained : regionContainedInReachableUnion c.problem loop.tracked c.helperInvariantRegions
      loop.activeAuxiliary S fresh loop.reachableRegions (convertInterpolant S fresh cnf) = true) :
    ImageInside c loop := by
  intro σ σ' hσ hσ' hadvance hQ
  obtain ⟨m, hstate, hm⟩ := exists_imageA hσ hσ' hadvance (h.sourceHolds hconsistent hQ) plan
  refine contained_sound hcontained h.total hσ' ?_
  rw [holds_convertInterpolant, ← hstate]
  exact hcnf.implied m hm

/-- As long as no expansion drops the first region, the source of every image query
denotes `Q`, and an interpolant inside `Q` means that the image of `Q` is. -/
theorem source_agrees (hconsistent : Consistent c.problem.bootstrapStateAssignments) {n : Nat}
    {loop : CraigLoop}
    (hrun : ((craigChecker S fresh c).restrict (KeepsInitialRegion S fresh c)).Reachable
      (.looping n loop)) :
    (∀ σ, SourceDenotes (loop.source c) σ ↔ SourceDenotes (regionSource loop.reachableRegions) σ) ∧
    ∀ cnf plan, cnf.Interpolates 1 (loop.queryA c plan) (loop.queryB c plan) →
      regionContainedInReachableUnion c.problem loop.tracked c.helperInvariantRegions
        loop.activeAuxiliary S fresh loop.reachableRegions (convertInterpolant S fresh cnf) = true →
      ImageInside c loop := by
  have hinv : SourceInv c loop := inductive_sourceInv.reachable hrun
  obtain ⟨rest, hregions⟩ := hinv.first
  refine ⟨fun σ => ?_, fun cnf plan hcnf hcontained => hinv.imageInside hconsistent hcnf hcontained⟩
  rw [hinv.denotes hconsistent,
    sourceDenotes_regionSource hinv.total (hregions ▸ List.cons_ne_nil _ _)]

/-! ## Single steps of a run -/

theorem not_contained {p : KInductionProblem} {tracked : List Nat}
    {helpers : List InterpolantRegion} {X : AuxiliaryStateInvariants}
    {regions : List InterpolantRegion} {candidate : InterpolantRegion}
    (htype : candidate.type ≠ .constantFalse) (htotal : ∀ r ∈ regions, r.Total) {σ : Valuation}
    (hσ : FrameFacts p helpers X σ) (hcandidate : candidate.Holds (lit σ))
    (hout : ∀ r ∈ regions, ¬ r.Holds (lit σ)) :
    regionContainedInReachableUnion p tracked helpers X S fresh regions candidate = false := by
  rw [regionContainedInReachableUnion, if_neg htype]
  split
  · rfl
  · refine answersUnsat_eq_false ?_
    obtain ⟨aₕ, hhelpers⟩ := hσ.helperCopies
    obtain ⟨a, hdefs, hroot⟩ := hcandidate
    obtain ⟨b, hb⟩ := exists_definitions htotal (lit σ)
    let m := traceModel (fun _ => σ) (fun _ _ => σ) (queryCopies (fun _ => aₕ) b a)
    have hframe : Sees m (.frame 0) σ := sees_frame 0
    refine ⟨m, ?_⟩
    simp only [containmentQuery, evalQuery_append, Bool.and_eq_true, evalQuery_instantiateRegion,
      evalQuery_instantiateRegions, evalQuery_map, evalQuery_cons, evalQuery_nil, Bool.and_true,
      evalClause_singleton, evalLit_instantiateRegion]
    refine ⟨⟨⟨⟨⟨⟨?_, ?_⟩, ?_⟩, hdefs⟩, hroot⟩, fun i r hi => ?_⟩, fun root hmem => ?_⟩
    · exact hhelpers m (.helper 0) 0 rfl fun _ => rfl
    · exact hframe.stateSemantics hσ.domain _
    · exact hframe.auxiliaryInvariants hσ.auxiliary _
    · rw [Nat.zero_add]
      exact hb i r hi
    · obtain ⟨i, r, hi, rfl⟩ := mem_instantiateRegions.mp hmem
      rw [evalLit_neg, evalLit_instantiateRegion, Nat.zero_add, Bool.not_eq_true']
      exact Bool.eq_false_iff.mpr fun hroot' =>
        hout r (List.mem_of_getElem? hi) ⟨b i, hb i r hi, hroot'⟩

theorem compactReachableRegions_covered {p : KInductionProblem} {tracked : List Nat}
    {helpers : List InterpolantRegion} {X : AuxiliaryStateInvariants} {first : InterpolantRegion}
    {rest : List InterpolantRegion} {start limit : Nat} (hstart : start ≤ rest.length + 1)
    (hlimit : 0 < limit)
    (h : regionContainedInReachableUnion p tracked helpers X S fresh rest first = true) :
    compactReachableRegions S fresh p tracked helpers X (first :: rest) start limit = rest := by
  obtain ⟨n, hn⟩ : ∃ n, min limit (first :: rest).length = n + 1 :=
    Nat.exists_eq_succ_of_ne_zero (by rw [List.length_cons]; omega)
  rw [compactReachableRegions, if_neg (by rw [List.length_cons]; omega), hn, List.range_succ_eq_map,
    List.find?_cons_of_pos]
  · rfl
  · exact h

theorem roundStep_cube {n : Nat} {tracked : List Nat} {X : AuxiliaryStateInvariants}
    {choice : RoundChoice} {initial : InterpolantRegion}
    (hround : n ≤ c.problem.stateSymbolSet.length)
    (hbudget : choice.projectionBudgetExceeded = false)
    (hcube : buildConcreteAssignmentRegion c.problem.bootstrapStateAssignments tracked =
      some initial) :
    roundStep S fresh c n tracked X choice = startLoop S fresh c n tracked X initial true := by
  rw [roundStep, if_neg (Nat.not_lt.mpr hround), hbudget, if_neg (by decide), hcube]

theorem unsatPass_of_new {loop : CraigLoop} {choice : LoopChoice} {cnf : CraigInterpolantCnf}
    (h : regionContainedInReachableUnion c.problem loop.tracked c.helperInvariantRegions
      loop.activeAuxiliary S fresh loop.reachableRegions (convertInterpolant S fresh cnf) = false)
    (hbudget : choice.growthBudgetExceeded = false) :
    unsatPass S fresh c loop choice cnf =
      .again (loop.expand S fresh c (convertInterpolant S fresh cnf)) := by
  unfold unsatPass
  dsimp only
  rw [h, hbudget, if_neg (by decide), if_neg (by decide)]

end Source

/-! ## A ladder of regions -/

/-- The state literal that the interpolant of pass `i` consists of. -/
def ladderLiteral (i : Nat) : Nat × Bool := (i + 2, i != 6)

/-- Seven registers take the value of their literal in every step, register 9 keeps its
value; the bootstrap clears all eight. -/
def ladderProblem : KInductionProblem where
  bootstrapStateAssignments := [2, 3, 4, 5, 6, 7, 8, 9].map fun s => (s, false)
  state0Symbols := [2, 3, 4, 5, 6, 7, 8, 9]
  allSymbols := [2, 3, 4, 5, 6, 7, 8, 9]
  transitions0 := [(2, .createTrue), (3, .createTrue), (4, .createTrue), (5, .createTrue),
    (6, .createTrue), (7, .createTrue), (8, .createFalse), (9, .var 9)]
  property := .createTrue
  bad := .createFalse

def ladderConfig : CraigConfig where
  problem := ladderProblem
  initialTrackedStates := [2, 3, 4, 5, 6, 7, 8, 9]
  enableDirectConcreteCubeSource := true
  maxLookahead := 1

def ladderRegion (i : Nat) : InterpolantRegion :=
  literalRegion (ladderLiteral i).1 (ladderLiteral i).2

def ladderCube : InterpolantRegion where
  type := .normal
  auxiliaryCount := 1
  definitions := ladderProblem.bootstrapStateAssignments.map (fun a =>
      [⟨.auxiliary 0, false⟩, ⟨.state a.1, a.2⟩]) ++
    [⟨.auxiliary 0, true⟩ :: ladderProblem.bootstrapStateAssignments.map fun a => ⟨.state a.1, !a.2⟩]
  root := ⟨.auxiliary 0, true⟩

/-- After `k` passes. -/
def ladderLoop (regions : List InterpolantRegion) (k : Nat) : CraigLoop where
  tracked := [2, 3, 4, 5, 6, 7, 8, 9]
  concreteInitialRegion := ladderCube
  hasConcreteInitialCube := true
  qExpansionPass := k + 1
  reachableRegions := regions
  activeAuxiliary := {}
  projectionAuxiliary := {}

theorem ladder_cube : buildConcreteAssignmentRegion ladderProblem.bootstrapStateAssignments
    [2, 3, 4, 5, 6, 7, 8, 9] = some ladderCube := by rfl

theorem ladder_initial : initialCraigState craigSolver () ladderConfig =
    .round 0 [2, 3, 4, 5, 6, 7, 8, 9] {} := by
  have htracked : sortedSymbols (seededTrackedStates ladderProblem [2, 3, 4, 5, 6, 7, 8, 9]) =
      [2, 3, 4, 5, 6, 7, 8, 9] := by
    decide +kernel
  unfold initialCraigState
  dsimp only [ladderConfig]
  rw [htracked]
  rfl

theorem ladder_domainValid (σ : Valuation) : ladderProblem.DomainValid σ :=
  ⟨by simp [complementedStatePairs, ladderProblem],
    by simp [sameFrameStateEqualityPairs, ladderProblem], by simp [ladderProblem]⟩

theorem ladder_frameFacts (σ : Valuation) : FrameFacts ladderProblem [] {} σ where
  domain := ladder_domainValid σ
  auxiliary := hold_empty σ
  released := by simp [ResetDeasserted, ladderProblem]
  helpers := .inl rfl

theorem ladder_excludesBad : craigInvariantExcludesBad ladderProblem [2, 3, 4, 5, 6, 7, 8, 9] {}
    craigSolver () [ladderCube] = true := by
  rw [craigInvariantExcludesBad, if_neg (by simp)]
  refine answersUnsat_of_not_satisfiable craigSolver_decides ?_
  rintro ⟨m, hm⟩
  simp only [excludesBadQuery, addBadFormula, evalQuery_append, Bool.and_eq_true] at hm
  have hroot := hm.2.2
  rw [evalQuery_cons, Bool.and_eq_true] at hroot
  exact Bool.false_ne_true hroot.1

theorem ladder_consistent : Consistent ladderProblem.bootstrapStateAssignments := by
  unfold Consistent
  decide

theorem holds_ladderCube (σ : Nat → Bool) :
    ladderCube.Holds σ ↔ CubeHolds ladderProblem.bootstrapStateAssignments [2, 3, 4, 5, 6, 7, 8, 9] σ :=
  holds_concreteRegion ladder_cube σ

def ladderScope : LeafScope := .encoder .transition 0 [2, 3, 4, 5, 6, 7, 8, 9]

theorem ladder_equation : ∀ i < 7,
    addTransitionEquations ladderProblem ladderScope 0 []
        ([(ladderLiteral i).1].filter ([2, 3, 4, 5, 6, 7, 8, 9].contains ·)) =
      litEquivalence (leafLit (.frame 1) (ladderLiteral i).1)
        (formulaLit ladderScope
          (if (ladderLiteral i).2 then .createTrue else .createFalse)) := by
  decide

def ladderPlan (i : Nat) : Nat → ProjectedTransitionFrame :=
  fun _ => { targets := [(ladderLiteral i).1] }

theorem ladder_interpolates {i : Nat} (hi : i < 7) (regions : List InterpolantRegion) :
    (literalInterpolant (ladderLiteral i).1 (ladderLiteral i).2).Interpolates 1
      ((ladderLoop regions i).queryA ladderConfig (ladderPlan i))
      ((ladderLoop regions i).queryB ladderConfig (ladderPlan i)) where
  total _ := ⟨fun _ => false, rfl⟩
  implied m hm := by
    simp only [CraigLoop.queryA, imageA, addProjectedTransition, evalQuery_append,
      Bool.and_eq_true] at hm
    have hequation : evalQuery (evalCraigAtom m) (litEquivalence
        (leafLit (.frame 1) (ladderLiteral i).1) (formulaLit ladderScope
          (if (ladderLiteral i).2 then .createTrue else .createFalse))) = true := by
      rw [← ladder_equation i hi]
      exact hm.1.1.2.1.1.1
    rw [eval_litEquivalence, beq_iff_eq, leafLit, formulaLit, evalLit_mk_true,
      evalLit_mk_true] at hequation
    rw [holds_literalInterpolant]
    refine hequation.trans ?_
    cases (ladderLiteral i).2 <;> rfl
  inconsistent m hm := by
    simp only [CraigLoop.queryB, imageB, addSuffixBadFormula, evalQuery_append, Bool.and_eq_true] at hm
    exact (Bool.false_ne_true hm.2.2).elim

theorem holds_literalRegion (s : Nat) (v : Bool) (σ : Nat → Bool) :
    (literalRegion s v).Holds σ ↔ σ s = v := by
  simp [literalRegion, InterpolantRegion.Holds, InterpolantRegion.encoding, InterpolantRegion.values,
    evalQuery, evalLit]

theorem total_literalRegion (s : Nat) (v : Bool) : (literalRegion s v).Total :=
  fun _ => ⟨fun _ => false, rfl⟩

/-- The cube and the first `k` interpolants. -/
def ladderRegions (k : Nat) : List InterpolantRegion := ladderCube :: (List.range k).map ladderRegion

theorem ladder_total (k : Nat) : ∀ r ∈ ladderRegions k, r.Total := by
  intro r hr
  rcases List.mem_cons.mp hr with rfl | hr
  · exact total_concreteRegion ladder_cube
  · obtain ⟨i, _, rfl⟩ := List.mem_map.mp hr
    exact total_literalRegion _ _

theorem ladder_instantiable (k : Nat) (hk : k ≤ 7) :
    ∀ r ∈ [] ++ ladderRegions k, r.instantiable [2, 3, 4, 5, 6, 7, 8, 9] = true := by
  revert k
  decide

/-- A state of interpolant `i` that no earlier region has. -/
def ladderState (i : Nat) : Valuation := fun s => s == if i = 6 then 9 else i + 2

theorem ladder_new {k : Nat} (hk : k < 7) :
    (ladderRegion k).Holds (lit (ladderState k)) ∧
    ∀ r ∈ ladderRegions k, ¬ r.Holds (lit (ladderState k)) := by
  have hown : ∀ k < 7, lit (ladderState k) (ladderLiteral k).1 = (ladderLiteral k).2 := by decide
  have hearlier : ∀ k < 7, ∀ i < k,
      lit (ladderState k) (ladderLiteral i).1 ≠ (ladderLiteral i).2 := by decide
  have hcube : ∀ k < 7, ∃ a ∈ ladderProblem.bootstrapStateAssignments,
      a.1 ∈ [2, 3, 4, 5, 6, 7, 8, 9] ∧ lit (ladderState k) a.1 ≠ a.2 := by decide
  refine ⟨(holds_literalRegion _ _ _).mpr (hown k hk), fun r hr hholds => ?_⟩
  rcases List.mem_cons.mp hr with rfl | hr
  · obtain ⟨a, ha, htracked, hne⟩ := hcube k hk
    exact hne ((cubeHolds_iff ladder_consistent _ _).mp ((holds_ladderCube _).mp hholds) a ha htracked)
  · obtain ⟨i, hi, rfl⟩ := List.mem_map.mp hr
    exact hearlier k hk i (List.mem_range.mp hi) ((holds_literalRegion _ _ _).mp hholds)

theorem ladderRegions_succ (k : Nat) : ladderRegions (k + 1) = ladderRegions k ++ [ladderRegion k] := by
  simp [ladderRegions, List.range_succ]

def ladderChoice (k : Nat) : CraigChoice :=
  .image { plan := ladderPlan k
           answer := .unsat (literalInterpolant (ladderLiteral k).1 (ladderLiteral k).2) }

theorem ladder_step {k : Nat} (hk : k < 7) (n : Nat) :
    (craigChecker craigSolver () ladderConfig).step (.looping n (ladderLoop (ladderRegions k) k))
      (ladderChoice k) (.looping n (ladderLoop (compactReachableRegions craigSolver () ladderProblem
        [2, 3, 4, 5, 6, 7, 8, 9] [] {} (ladderRegions (k + 1)) kCraigRegionCompactionStart
        kCraigRegionCompactionCandidateLimit) (k + 1))) := by
  refine ⟨fun cnf hanswer => ?_, ?_⟩
  · obtain rfl := CraigAnswer.unsat.inj hanswer
    exact ladder_interpolates hk _
  · obtain ⟨hholds, hout⟩ := ladder_new hk
    rw [ladderChoice, craigStep, loopPass_unsat (le_refl 1) rfl (ladder_instantiable k (by omega)) rfl,
      unsatPass_of_new]
    · rw [ladderRegions_succ]
      rfl
    · exact not_contained RegionType.noConfusion (ladder_total k) (ladder_frameFacts _) hholds hout
    · rfl

/-- Up to the sixth expansion nothing is dropped. -/
theorem ladder_reachable {k : Nat} (hk : k < 7) :
    ((craigChecker craigSolver () ladderConfig).restrict
      (KeepsInitialRegion craigSolver () ladderConfig)).Reachable
        (.looping 0 (ladderLoop (ladderRegions k) k)) := by
  induction k with
  | zero =>
    refine .step (l := .round {}) (.init ladder_initial.symm) ⟨trivial, fun _ h => (by cases h), ?_⟩
    rw [craigStep, roundStep_cube (Nat.zero_le _) rfl ladder_cube, startLoop_of_excludes]
    · rfl
    · exact ladder_excludesBad
  | succ k ih =>
    have hlength : (ladderRegions (k + 1)).length < kCraigRegionCompactionStart := by
      simp only [ladderRegions, List.length_cons, List.length_map, List.length_range,
        kCraigRegionCompactionStart]
      omega
    have hstep := ladder_step (k := k) (by omega) 0
    rw [compactReachableRegions, if_pos hlength] at hstep
    rw [ladderRegions_succ, List.length_append, List.length_singleton] at hlength
    have hkeeps : KeepsInitialRegion craigSolver () ladderConfig
        (.looping 0 (ladderLoop (ladderRegions k) k)) (ladderChoice k) :=
      fun _ _ _ => .inl hlength
    exact .step (ih (by omega)) ⟨hkeeps, hstep⟩

theorem source_agrees_ladder :
    (∀ σ, SourceDenotes ((ladderLoop (ladderRegions 6) 6).source ladderConfig) σ ↔
      SourceDenotes (regionSource (ladderRegions 6)) σ) ∧
    ∀ cnf plan, cnf.Interpolates 1 ((ladderLoop (ladderRegions 6) 6).queryA ladderConfig plan)
        ((ladderLoop (ladderRegions 6) 6).queryB ladderConfig plan) →
      regionContainedInReachableUnion ladderProblem [2, 3, 4, 5, 6, 7, 8, 9] [] {} craigSolver ()
        (ladderRegions 6) (convertInterpolant craigSolver () cnf) = true →
      ImageInside ladderConfig (ladderLoop (ladderRegions 6) 6) :=
  source_agrees ladder_consistent (ladder_reachable (k := 6) (by decide))

/-- The last interpolant covers the cube. -/
theorem ladder_covered : regionContainedInReachableUnion ladderProblem [2, 3, 4, 5, 6, 7, 8, 9] [] {}
    craigSolver () ((List.range 7).map ladderRegion) ladderCube = true := by
  rw [regionContainedInReachableUnion, if_neg (by decide), if_neg (by decide)]
  refine answersUnsat_of_not_satisfiable craigSolver_decides ?_
  rintro ⟨m, hm⟩
  simp only [containmentQuery, evalQuery_append, Bool.and_eq_true, evalQuery_instantiateRegion, evalQuery_instantiateRegions,
    evalQuery_map, evalQuery_cons, evalQuery_nil, Bool.and_true, evalClause_singleton,
    evalLit_instantiateRegion] at hm
  obtain ⟨⟨⟨⟨_, hdefs⟩, hroot⟩, _⟩, hroots⟩ := hm
  have hcube : InCube ladderProblem [2, 3, 4, 5, 6, 7, 8, 9] (m.state 0) :=
    (cubeHolds_iff ladder_consistent _ _).mp ((holds_ladderCube _).mp ⟨_, hdefs, hroot⟩)
  have hclear : m.state 0 8 = false := hcube (8, false) (by decide) (by decide)
  have hlast := hroots _ (mem_instantiateRegions.mpr ⟨6, ladderRegion 6, rfl, rfl⟩)
  have hvalue : evalLit (InterpolantRegion.values (m.state 0) (m.copy (.reachable 6)))
      (ladderRegion 6).encoding.2 = (m.state 0 8 == false) := rfl
  rw [evalLit_neg, evalLit_instantiateRegion, Nat.zero_add, hvalue, hclear] at hlast
  cases hlast

/-- After seven expansions the cube is covered and dropped, and the direct source leaves
out the states of the first interpolant that have registers 2 and 8 set. -/
theorem source_disagrees :
    ∃ loop, (craigChecker craigSolver () ladderConfig).Reachable (.looping 0 loop) ∧
      ∃ σ, SourceDenotes (regionSource loop.reachableRegions) σ ∧
        ¬ SourceDenotes (loop.source ladderConfig) σ := by
  have hstep := ladder_step (k := 6) (by decide) 0
  have hcompacted : compactReachableRegions craigSolver () ladderProblem [2, 3, 4, 5, 6, 7, 8, 9] []
      {} (ladderRegions 7) kCraigRegionCompactionStart kCraigRegionCompactionCandidateLimit =
      (List.range 7).map ladderRegion :=
    compactReachableRegions_covered (by decide) (by decide) ladder_covered
  rw [hcompacted] at hstep
  have htotal : ∀ r ∈ (List.range 7).map ladderRegion, r.Total := by
    intro r hr
    obtain ⟨i, _, rfl⟩ := List.mem_map.mp hr
    exact total_literalRegion _ _
  refine ⟨_, .step (ladder_reachable (k := 6) (by decide)).of_restrict hstep,
    fun s => s == 2 || s == 8, ?_, ?_⟩
  · refine (sourceDenotes_regionSource htotal (by decide) _).mpr ⟨ladderRegion 0, ?_, ?_⟩
    · exact List.mem_map_of_mem (List.mem_range.mpr (by decide))
    · exact (holds_literalRegion _ _ _).mpr rfl
  · intro hdenotes
    have hout : ∀ i ∈ [1, 2, 3, 4, 5, 6], ((ladderLiteral i).1 == 2 || (ladderLiteral i).1 == 8) ≠
        (ladderLiteral i).2 := by decide
    rcases (sourceDenotes_directSource (fun r hr => htotal r (List.mem_of_mem_tail hr)) _).mp hdenotes with
      hcube | ⟨r, hr, hholds⟩
    · exact absurd (hcube (2, false) (by decide) (by decide)) (by decide)
    · have hlater : r ∈ [1, 2, 3, 4, 5, 6].map ladderRegion := hr
      obtain ⟨i, hi, rfl⟩ := List.mem_map.mp hlater
      exact hout i hi ((holds_literalRegion _ _ _).mp hholds)

end KeplerFormal
