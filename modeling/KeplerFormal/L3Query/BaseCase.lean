import KeplerFormal.L3Query.Cone

/-!
# The base case query (`src/sec/kinduction/BaseCaseSolver.cpp`)

A bounded search for a bad frame: an optional reset prefix of
`resetBootstrapFrames` frames, the startup facts the initial mode asserts, the
relations in every frame, the transitions of the cone and the bad formula in the
requested frames.

* `BaseStartup`: what the query decides about startup before it is built.
* `baseQuery`: the clauses of the query and of its hand-made copies.
* `Unrolling`: the same startup facts with every symbol, every transition and every
  relation in every frame; `UnrollingOn`: the part of it the query keeps.
* `evalQuery_baseQuery`: a trace satisfies the query exactly when it is such a part
  with a bad frame; `no_bad_of_unsat`: an unsatisfiable query excludes bad runs.
-/
namespace KeplerFormal

open Core

/-- mirrors src/sec/kinduction/BaseCaseSolver.cpp:172-179 -/
inductive InitialConstraintMode where
  | none
  | observationOnly
  | partialInit
  | completeInit
  deriving DecidableEq, Repr

def InitialConstraintMode.assertsInitialFacts : InitialConstraintMode → Bool
  | .completeInit | .partialInit => true
  | _ => false

def InitialConstraintMode.assertsObservation : InitialConstraintMode → Bool
  | .observationOnly | .partialInit => true
  | _ => false

/-- The startup part of one query. -/
structure BaseStartup where
  bootstrapFrames : Nat
  observationFrontier : Bool
  initialMode : InitialConstraintMode
  firstBadFrame : Nat
  deriving DecidableEq, Repr

structure BaseCaseCoi where
  transitionTargetsByFrame : Nat → List Nat
  solverSymbols : Finset Nat

namespace KInductionProblem
variable (p : KInductionProblem)

/-- mirrors src/sec/kinduction/BaseCaseSolver.cpp:181-187 -/
def resetBootstrapFrames : Nat :=
  if (!p.hasCompleteInitialState || p.usesDualRailStateEncoding) && p.hasResetBootstrap then
    p.resetBootstrapCycles
  else 0

/-- mirrors src/sec/kinduction/BaseCaseSolver.cpp:189-203 -/
def determineInitialConstraintMode : InitialConstraintMode :=
  if !p.hasSequentialState then .none
  else if p.hasCompleteInitialState then .completeInit
  else if p.hasExplicitInitialState then .partialInit
  else .observationOnly

/-- mirrors src/sec/kinduction/BaseCaseSolver.cpp:1600-1624 -/
def baseStartup : BaseStartup :=
  let bootstrapFrames := p.resetBootstrapFrames
  let observationFrontier := bootstrapFrames != 0 && p.usesResetBootstrapObservationFrontier
  let initialMode := if bootstrapFrames = 0 then p.determineInitialConstraintMode else .none
  let firstBadFrame :=
    if bootstrapFrames ≠ 0 then bootstrapFrames + (if observationFrontier then 1 else 0)
    else if initialMode.assertsObservation then 1 else 0
  ⟨bootstrapFrames, observationFrontier, initialMode, firstBadFrame⟩

def hasStructuredInitialAssignments : Bool := !p.initialStateAssignments.isEmpty

/-- The startup formulas whose states are required in a frame: the initial
condition and the observation at frame 0, or the observation at the frontier.
mirrors src/sec/kinduction/BaseCaseSolver.cpp:577-604 -/
def startupFormulas (st : BaseStartup) (frame : Nat) : List BoolExpr :=
  if st.bootstrapFrames = 0 then
    if frame = 0 then
      (if st.initialMode.assertsInitialFacts && !p.hasStructuredInitialAssignments then
        p.initialCondition.toList else []) ++
      (if st.initialMode.assertsObservation then [p.property] else [])
    else []
  else if st.observationFrontier && frame == st.bootstrapFrames then [p.property] else []

def stateSupportOf (es : List BoolExpr) : Finset Nat :=
  es.foldr (fun e X => p.addFormulaStateSupport e ∪ X) ∅

def supportOf (es : List BoolExpr) : Finset Nat :=
  es.foldr (fun e X => addFormulaSupport e ∪ X) ∅

/-- mirrors src/sec/kinduction/BaseCaseSolver.cpp:563-604 -/
def baseSeed (st : BaseStartup) (frame : Nat) : Finset Nat :=
  (if st.firstBadFrame ≤ frame then p.addFormulaStateSupport p.bad else ∅) ∪
    p.stateSupportOf (p.startupFormulas st frame)

/-- The symbols of the cone before the relation partners join. -/
def baseConeSymbols (st : BaseStartup) (internalK : Nat) : Finset Nat :=
  (p.resetBootstrapInputs.map Prod.fst).toFinset ∪ addFormulaSupport p.bad ∪
    supportOf (p.startupFormulas st st.bootstrapFrames) ∪ p.coneSymbols (p.baseSeed st) internalK

/-- `buildImcCachedBaseCaseCoi` is the same function over cached indexes.
mirrors src/sec/kinduction/BaseCaseSolver.cpp:542-639, 641-719 -/
def buildBaseCaseCoi (st : BaseStartup) (internalK : Nat) : BaseCaseCoi where
  transitionTargetsByFrame frame :=
    sortedSymbols (p.transitionTargets (p.baseSeed st) internalK frame)
  solverSymbols := p.addRelationPartners (p.baseConeSymbols st internalK)

/-! ## Startup clauses -/

/-- mirrors src/sec/kinduction/BaseCaseSolver.cpp:914-935 -/
def addResetBootstrapConstraints (numFrames : Nat) : FrameQuery :=
  if p.resetBootstrapFrames = 0 then []
  else p.resetBootstrapInputs.flatMap fun r =>
    (List.range numFrames).map fun frame =>
      [assignmentLiteral frame
        (r.1, if frame < p.resetBootstrapFrames then r.2 else !r.2)]

/-- The unit clauses of the assignments whose symbol the solver holds.
mirrors src/sec/kinduction/BaseCaseSolver.cpp:937-966 -/
def addStateAssignments (assignments : List (Nat × Bool)) (solverSymbols : Finset Nat)
    (frame : Nat) : FrameQuery :=
  (assignments.filter (·.1 ∈ solverSymbols)).map fun a => [assignmentLiteral frame a]

def addInitialStateAssignments (solverSymbols : Finset Nat) : FrameQuery :=
  addStateAssignments p.initialStateAssignments solverSymbols 0

def addBootstrapStateAssignments (solverSymbols : Finset Nat) (frame : Nat) : FrameQuery :=
  addStateAssignments p.bootstrapStateAssignments solverSymbols frame

/-- mirrors src/sec/kinduction/BaseCaseSolver.cpp:968-999 -/
def addInitialConstraints (solverSymbols : Finset Nat) (mode : InitialConstraintMode) :
    FrameQuery :=
  (match mode.assertsInitialFacts, p.initialCondition with
    | true, some initialCondition =>
      if p.hasStructuredInitialAssignments then p.addInitialStateAssignments solverSymbols
      else [[encode 0 initialCondition]]
    | _, _ => []) ++
  (if mode.assertsObservation then [[encode 0 p.property]] else [])

/-- Where the copies of the base query differ: whether the initial assignments
also precede a reset prefix, and whether the bootstrap assignments end it. -/
structure StartupFacts where
  prefixInitial : Bool
  frontierBootstrap : Bool
  deriving DecidableEq, Repr

/-- mirrors src/sec/kinduction/BaseCaseSolver.cpp:1683-1688, 1711-1714 -/
def plainFacts : StartupFacts where
  prefixInitial := p.resetBootstrapFrames != 0 && p.usesDualRailStateEncoding
  frontierBootstrap := p.resetBootstrapFrames != 0 && !p.usesDualRailStateEncoding

/-- mirrors src/sec/kinduction/BaseCaseSolver.cpp:1833-1865 -/
def cachedFacts : StartupFacts where
  prefixInitial := false
  frontierBootstrap := p.resetBootstrapFrames != 0

/-- The clauses that every base query has before its bad clause. -/
def basePrefixQuery (facts : StartupFacts) (st : BaseStartup) (coi : BaseCaseCoi)
    (internalK : Nat) : FrameQuery :=
  p.addResetBootstrapConstraints (internalK + 1) ++
  p.addInitialConstraints coi.solverSymbols st.initialMode ++
  (if facts.prefixInitial then p.addInitialStateAssignments coi.solverSymbols else []) ++
  (if st.observationFrontier then [[encode st.bootstrapFrames p.property]] else []) ++
  p.addRelations coi.solverSymbols (internalK + 1) ++
  (List.range internalK).flatMap (fun frame =>
    p.addTransitionRelation (coi.transitionTargetsByFrame frame) frame) ++
  (if facts.frontierBootstrap then
    p.addBootstrapStateAssignments coi.solverSymbols st.bootstrapFrames else [])

/-- One of the frames `first .. last` is bad. -/
def badClause (bad : BoolExpr) (first last : Nat) : FrameClause :=
  ((List.range (last + 1)).filter (first ≤ ·)).map fun frame => encode frame bad

/-- The bad frames of a query, `none` when it has none: all frames from the first
one on, or the one requested.
mirrors src/sec/kinduction/BaseCaseSolver.cpp:1616-1641 -/
def badFrames (k : Nat) (exactPublicBadFrame : Option Nat) : Option (Nat × Nat) :=
  let st := p.baseStartup
  let internalK := k + st.bootstrapFrames
  if internalK < st.firstBadFrame then none
  else match exactPublicBadFrame with
    | none => some (st.firstBadFrame, internalK)
    | some exact =>
      let frame := exact + st.bootstrapFrames
      if frame < st.firstBadFrame ∨ internalK < frame then none else some (frame, frame)

/-- The startup of the query with the first bad frame that the COI is built for. -/
def queryStartup (first : Nat) : BaseStartup := { p.baseStartup with firstBadFrame := first }

/-- The clauses with bad frames `first .. last`; `plainFacts` gives those of
`findBaseCounterexampleImpl`, `cachedFacts` those of the newest-frontier copy.
mirrors src/sec/kinduction/BaseCaseSolver.cpp:1643-1731, 1813-1874 -/
def baseQuery (facts : StartupFacts) (internalK first last : Nat) : FrameQuery :=
  let st := p.queryStartup first
  p.basePrefixQuery facts st (p.buildBaseCaseCoi st internalK) internalK ++
  [badClause p.bad first last]

/-! ## The full unrolling -/

/-- The initial assignments are asserted in frame 0. -/
def assertsInitialAssignments (facts : StartupFacts) : Bool :=
  (p.baseStartup.initialMode.assertsInitialFacts && p.initialCondition.isSome) ||
    facts.prefixInitial

/-- The facts about startup, over the symbols of `X`. -/
structure StartsOn (facts : StartupFacts) (X : Finset Nat) (τ : Trace) : Prop where
  initialAssignments : p.assertsInitialAssignments facts = true →
    ∀ a ∈ p.initialStateAssignments, a.1 ∈ X → lit (τ 0) a.1 = a.2
  initialCondition : p.baseStartup.initialMode.assertsInitialFacts = true →
    p.hasStructuredInitialAssignments = false →
    ∀ e, p.initialCondition = some e → e.eval (τ 0) = true
  startObservation : p.baseStartup.initialMode.assertsObservation = true →
    p.property.eval (τ 0) = true
  frontierObservation : p.baseStartup.observationFrontier = true →
    p.property.eval (τ p.resetBootstrapFrames) = true
  bootstrapAssignments : facts.frontierBootstrap = true →
    ∀ a ∈ p.bootstrapStateAssignments, a.1 ∈ X → lit (τ p.resetBootstrapFrames) a.1 = a.2

/-- The reset controls over `n + 1` frames: asserted in the prefix, then released. -/
structure ResetSequence (n : Nat) (τ : Trace) : Prop where
  asserted : ∀ f ≤ n, f < p.resetBootstrapFrames → p.ResetAsserted (τ f)
  deasserted : p.resetBootstrapFrames ≠ 0 →
    ∀ f ≤ n, p.resetBootstrapFrames ≤ f → p.ResetDeasserted (τ f)

/-- All frames up to `n`, cut down to the symbols `X` and the transitions into
`targets`. -/
structure UnrollingOn (facts : StartupFacts) (X : Finset Nat) (targets : Nat → Nat → Prop)
    (n : Nat) (τ : Trace) : Prop where
  domain : ∀ f ≤ n, p.DomainValidOn X (τ f)
  transitions : ∀ f < n, ∀ t, targets f t → ∀ e, p.transitionAt t = some e →
    lit (τ (f + 1)) t = e.eval (τ f)
  reset : p.ResetSequence n τ
  starts : p.StartsOn facts X τ

/-- All frames up to `n` with every symbol: relations in every frame, every
transition, and the startup facts. -/
structure Unrolling (facts : StartupFacts) (n : Nat) (τ : Trace) : Prop where
  domain : ∀ f ≤ n, p.DomainValid (τ f)
  transitions : ∀ f < n, ∀ t e, p.transitionAt t = some e → lit (τ (f + 1)) t = e.eval (τ f)
  reset : p.ResetSequence n τ
  starts : ∀ X, p.StartsOn facts X τ

variable {p}

theorem Unrolling.on {facts : StartupFacts} {n : Nat} {τ : Trace} (h : p.Unrolling facts n τ)
    (X : Finset Nat) (targets : Nat → Nat → Prop) : p.UnrollingOn facts X targets n τ where
  domain f hf := (h.domain f hf).on X
  transitions f hf t _ e he := h.transitions f hf t e he
  reset := h.reset
  starts := h.starts X

theorem Unrolling.path {facts : StartupFacts} {n : Nat} {τ : Trace} (h : p.Unrolling facts n τ) :
    p.Path τ n := fun f hf => advance_of_transitions (h.domain (f + 1) hf) (h.transitions f hf)

/-! ## What the clauses say -/

theorem evalQuery_addResetBootstrapConstraints {τ : Trace} {n : Nat} :
    evalQuery (evalAtom τ) (p.addResetBootstrapConstraints (n + 1)) = true ↔
      p.ResetSequence n τ := by
  unfold addResetBootstrapConstraints
  split
  · rename_i hzero
    refine iff_of_true rfl ⟨fun f _ hf => ?_, fun hne => absurd hzero hne⟩
    omega
  · rename_i hne
    simp only [evalQuery_flatMap, evalQuery_map, List.mem_range, evalClause_singleton,
      evalLit_assignmentLiteral, eval_var_eq_lit, beq_iff_eq, Nat.lt_succ_iff]
    constructor
    · intro h
      refine ⟨fun f hf hlt r hr => ?_, fun _ f hf hge r hr => ?_⟩
      · rw [h r hr f hf, if_pos hlt]
      · rw [h r hr f hf, if_neg (by omega)]
    · intro h r hr f hf
      split
      · exact h.asserted f hf (by assumption) r hr
      · exact h.deasserted hne f hf (by omega) r hr

theorem evalQuery_addStateAssignments {τ : Trace} {as : List (Nat × Bool)} {X : Finset Nat}
    {f : Nat} : evalQuery (evalAtom τ) (addStateAssignments as X f) = true ↔
      ∀ a ∈ as, a.1 ∈ X → lit (τ f) a.1 = a.2 := by
  simp [addStateAssignments, evalQuery_map]

theorem eval_badClause {τ : Trace} {bad : BoolExpr} {first last : Nat} :
    evalClause (evalAtom τ) (badClause bad first last) = true ↔
      ∃ f, first ≤ f ∧ f ≤ last ∧ bad.eval (τ f) = true := by
  simp only [badClause, evalClause_iff, List.mem_map, List.mem_filter, List.mem_range,
    decide_eq_true_eq, Nat.lt_succ_iff]
  constructor
  · rintro ⟨_, ⟨f, ⟨hlast, hfirst⟩, rfl⟩, hbad⟩
    exact ⟨f, hfirst, hlast, by simpa using hbad⟩
  · rintro ⟨f, hfirst, hlast, hbad⟩
    exact ⟨_, ⟨f, ⟨hlast, hfirst⟩, rfl⟩, by simpa using hbad⟩

theorem initialStateAssignments_eq_nil (h : p.hasStructuredInitialAssignments = false) :
    p.initialStateAssignments = [] := by
  simpa [hasStructuredInitialAssignments] using h

theorem evalQuery_addInitialConstraints {τ : Trace} {X : Finset Nat}
    {mode : InitialConstraintMode} :
    evalQuery (evalAtom τ) (p.addInitialConstraints X mode) = true ↔
      (mode.assertsInitialFacts = true → p.initialCondition.isSome = true →
        ∀ a ∈ p.initialStateAssignments, a.1 ∈ X → lit (τ 0) a.1 = a.2) ∧
      (mode.assertsInitialFacts = true → p.hasStructuredInitialAssignments = false →
        ∀ e, p.initialCondition = some e → e.eval (τ 0) = true) ∧
      (mode.assertsObservation = true → p.property.eval (τ 0) = true) := by
  have hobs : evalQuery (evalAtom τ)
      (if mode.assertsObservation then [[encode 0 p.property]] else []) = true ↔
      (mode.assertsObservation = true → p.property.eval (τ 0) = true) := by
    cases mode.assertsObservation <;> simp
  rw [addInitialConstraints, evalQuery_append, Bool.and_eq_true, hobs, ← and_assoc]
  refine and_congr_left fun _ => ?_
  cases hfacts : mode.assertsInitialFacts with
  | false => simp
  | true =>
    cases hcond : p.initialCondition with
    | none => simp
    | some e =>
      cases hstruct : p.hasStructuredInitialAssignments with
      | false => simp [initialStateAssignments_eq_nil hstruct]
      | true => simp [addInitialStateAssignments, evalQuery_addStateAssignments]

theorem evalQuery_ite {τ : Trace} {c : Prop} [Decidable c] {q : FrameQuery} :
    evalQuery (evalAtom τ) (if c then q else []) = true ↔
      (c → evalQuery (evalAtom τ) q = true) := by
  split <;> simp_all

@[simp] theorem baseStartup_bootstrapFrames :
    p.baseStartup.bootstrapFrames = p.resetBootstrapFrames := rfl

@[simp] theorem queryStartup_bootstrapFrames (first : Nat) :
    (p.queryStartup first).bootstrapFrames = p.resetBootstrapFrames := rfl

@[simp] theorem queryStartup_initialMode (first : Nat) :
    (p.queryStartup first).initialMode = p.baseStartup.initialMode := rfl

@[simp] theorem queryStartup_observationFrontier (first : Nat) :
    (p.queryStartup first).observationFrontier = p.baseStartup.observationFrontier := rfl

/-- A trace satisfies the clauses before the bad clause exactly when it is an
unrolling over the solver symbols and the transition targets. -/
theorem evalQuery_basePrefixQuery {τ : Trace} {facts : StartupFacts} {first internalK : Nat}
    {coi : BaseCaseCoi} :
    evalQuery (evalAtom τ) (p.basePrefixQuery facts (p.queryStartup first) coi internalK) = true ↔
      p.UnrollingOn facts coi.solverSymbols (fun f t => t ∈ coi.transitionTargetsByFrame f)
        internalK τ := by
  have htransitions : evalQuery (evalAtom τ) ((List.range internalK).flatMap fun f =>
      p.addTransitionRelation (coi.transitionTargetsByFrame f) f) = true ↔
      ∀ f < internalK, ∀ t, t ∈ coi.transitionTargetsByFrame f → ∀ e, p.transitionAt t = some e →
        lit (τ (f + 1)) t = e.eval (τ f) := by
    simp only [evalQuery_flatMap, List.mem_range, evalQuery_addTransitionRelation]
  have hfrontier : evalQuery (evalAtom τ) [[encode p.resetBootstrapFrames p.property]] =
      p.property.eval (τ p.resetBootstrapFrames) := by simp
  simp only [basePrefixQuery, evalQuery_append, Bool.and_eq_true, evalQuery_ite, hfrontier,
    evalQuery_addResetBootstrapConstraints, evalQuery_addInitialConstraints,
    evalQuery_addRelations, htransitions, addInitialStateAssignments,
    addBootstrapStateAssignments, evalQuery_addStateAssignments, queryStartup_bootstrapFrames,
    queryStartup_initialMode, Nat.lt_succ_iff]
  constructor
  · rintro ⟨⟨⟨⟨⟨⟨hreset, hassign, hcond, hstart⟩, hprefixRun⟩, hfrontier⟩, hdom⟩, htrans⟩, hboot⟩
    refine ⟨hdom, htrans, hreset, ⟨fun h => ?_, hcond, hstart, hfrontier, hboot⟩⟩
    rw [assertsInitialAssignments, Bool.or_eq_true, Bool.and_eq_true] at h
    exact h.elim (fun h => hassign h.1 h.2) hprefixRun
  · rintro ⟨hdom, htrans, hreset, hassign, hcond, hstart, hfrontier, hboot⟩
    rw [assertsInitialAssignments, Bool.or_eq_true, Bool.and_eq_true] at hassign
    exact ⟨⟨⟨⟨⟨⟨hreset, fun h1 h2 => hassign (.inl ⟨h1, h2⟩), hcond, hstart⟩,
      fun h => hassign (.inr h)⟩, hfrontier⟩, hdom⟩, htrans⟩, hboot⟩

/-- The part of the unrolling that the query with bad frames from `first` keeps. -/
def ReducedUnrolling (p : KInductionProblem) (facts : StartupFacts) (internalK first : Nat)
    (τ : Trace) : Prop :=
  p.UnrollingOn facts (p.buildBaseCaseCoi (p.queryStartup first) internalK).solverSymbols
    (fun f t => t ∈ p.transitionTargets (p.baseSeed (p.queryStartup first)) internalK f)
    internalK τ

theorem evalQuery_baseQuery {τ : Trace} {facts : StartupFacts} {internalK first last : Nat} :
    evalQuery (evalAtom τ) (p.baseQuery facts internalK first last) = true ↔
      p.ReducedUnrolling facts internalK first τ ∧
      ∃ f, first ≤ f ∧ f ≤ last ∧ p.bad.eval (τ f) = true := by
  rw [baseQuery, evalQuery_append, Bool.and_eq_true, evalQuery_basePrefixQuery, evalQuery_cons,
    evalQuery_nil, Bool.and_true, eval_badClause]
  refine and_congr_left fun _ => ?_
  simp only [ReducedUnrolling, buildBaseCaseCoi, mem_sortedSymbols]

/-- An unsatisfiable query excludes every run with a bad frame in its range. -/
theorem no_bad_of_unsat {facts : StartupFacts} {internalK first last : Nat} {τ : Trace}
    (hunsat : ¬ Satisfiable evalAtom (p.baseQuery facts internalK first last))
    (h : p.Unrolling facts internalK τ) {f : Nat} (hfirst : first ≤ f) (hlast : f ≤ last) :
    p.bad.eval (τ f) = false := by
  by_contra hbad
  rw [Bool.not_eq_false] at hbad
  exact hunsat ⟨τ, evalQuery_baseQuery.mpr ⟨h.on _ _, f, hfirst, hlast, hbad⟩⟩

end KInductionProblem
end KeplerFormal
