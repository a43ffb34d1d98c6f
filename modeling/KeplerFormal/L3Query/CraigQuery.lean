import KeplerFormal.L3Query.CraigInterpolant

/-!
# Queries of the Craig model checker (`src/sec/imc/CraigInterpolatingModelChecker.cpp`)

The image query has an A side (source regions, one transition) and a B side (the
suffix and the bad predicate); the bounded query builds the first region; two plain
queries decide containment and the exclusion of bad states. Which transitions, leaves
and relations a query takes is a choice of the projection, kept here as a plan.

* `imageA`, `imageB`: the two sides of an image query.
* `boundedA`, `boundedB`: the two sides of the bounded query.
* `containmentQuery`, `excludesBadQuery`: the two plain queries.
-/
namespace KeplerFormal

open Core

/-- mirrors src/sec/imc/CraigInterpolatingModelChecker.cpp:111-118 -/
structure AuxiliaryStateInvariants where
  constants : List (Nat × Bool) := []
  equalities : List (Nat × Nat) := []
  deriving DecidableEq, Repr

def AuxiliaryStateInvariants.empty (X : AuxiliaryStateInvariants) : Bool :=
  X.constants.isEmpty && X.equalities.isEmpty

def ConstantsHold (constants : List (Nat × Bool)) (σ : Valuation) : Prop :=
  ∀ c ∈ constants, lit σ c.1 = c.2

structure AuxiliaryStateInvariants.Hold (X : AuxiliaryStateInvariants) (σ : Valuation) : Prop where
  constants : ConstantsHold X.constants σ
  equalities : ∀ e ∈ X.equalities, lit σ e.1 = lit σ e.2

/-! ## Constants in the encoder -/

/-- The formula the constant-aware encoder returns a literal for.
mirrors src/sec/imc/CraigInterpolatingModelChecker.cpp:903-1235 -/
def BoolExpr.assign (constants : List (Nat × Bool)) : BoolExpr → BoolExpr
  | .var 0 => .var 0
  | .var 1 => .var 1
  | .var (n + 2) =>
    match constants.lookup (n + 2) with
    | some v => if v then createTrue else createFalse
    | none => .var (n + 2)
  | .and a b => .and (a.assign constants) (b.assign constants)
  | .or a b => .or (a.assign constants) (b.assign constants)
  | .not a => .not (a.assign constants)
  | .xor a b => .xor (a.assign constants) (b.assign constants)

theorem BoolExpr.eval_assign {constants : List (Nat × Bool)} {σ : Valuation}
    (h : ConstantsHold constants σ) (e : BoolExpr) : (e.assign constants).eval σ = e.eval σ := by
  induction e with
  | var id =>
    match id with
    | 0 => rfl
    | 1 => rfl
    | n + 2 =>
      unfold assign
      cases hlookup : constants.lookup (n + 2) with
      | none => rfl
      | some v =>
        obtain ⟨l₁, l₂, rfl, _⟩ := List.lookup_eq_some_iff.mp hlookup
        have hv := h (n + 2, v) (by simp)
        rw [← eval_var_eq_lit] at hv
        rw [hv]
        cases v <;> rfl
  | and a b iha ihb => simp only [assign, eval, iha, ihb]
  | or a b iha ihb => simp only [assign, eval, iha, ihb]
  | not a ih => simp only [assign, eval, ih]
  | xor a b iha ihb => simp only [assign, eval, iha, ihb]

theorem BoolExpr.eval_lit (e : BoolExpr) (σ : Valuation) : e.eval (lit σ) = e.eval σ :=
  BoolExpr.eval_congr fun _ _ h2 => lit_of_two_le σ h2

/-! ## Clauses of one frame -/

def leafLit (scope : LeafScope) (s : Nat) : CraigLit := ⟨.leaf (scope.leaf s), true⟩

def formulaLit (scope : LeafScope) (e : BoolExpr) : CraigLit := ⟨.formula scope e, true⟩

/-- `value ? leaf : -leaf` -/
def assignmentLit (scope : LeafScope) (a : Nat × Bool) : CraigLit := ⟨.leaf (scope.leaf a.1), a.2⟩

/-- mirrors src/sec/imc/CraigInterpolatingModelChecker.cpp:1246-1264 -/
def addPairEqualities (scope : LeafScope) (leaves : List Nat) (pairs : List (Nat × Nat))
    (complemented : Bool) : CraigQuery :=
  pairs.flatMap fun pr =>
    if pr.1 ∈ leaves ∧ pr.2 ∈ leaves then
      litEquivalence (leafLit scope pr.2)
        (if complemented then (leafLit scope pr.1).neg else leafLit scope pr.1)
    else []

/-- Also the clauses of the indexed form, which lists them by the left symbol.
mirrors src/sec/imc/CraigInterpolatingModelChecker.cpp:1294-1353 -/
def addStateSemantics (p : KInductionProblem) (scope : LeafScope) (leaves : List Nat) :
    CraigQuery :=
  addPairEqualities scope leaves p.complementedStatePairs true ++
    addPairEqualities scope leaves p.sameFrameStateEqualityPairs false ++
    p.dualRailStatePairs.flatMap fun r =>
      if r.mayBeOne ∈ leaves ∧ r.mayBeZero ∈ leaves then
        [[leafLit scope r.mayBeOne, leafLit scope r.mayBeZero]]
      else []

/-- mirrors src/sec/imc/CraigInterpolatingModelChecker.cpp:3411-3421 -/
def addStateAssignments (scope : LeafScope) (leaves : List Nat)
    (assignments : List (Nat × Bool)) : CraigQuery :=
  (assignments.filter fun a => leaves.contains a.1).map fun a => [assignmentLit scope a]

/-- mirrors src/sec/imc/CraigInterpolatingModelChecker.cpp:1355-1378 -/
def addAuxiliaryStateInvariants (scope : LeafScope) (leaves : List Nat)
    (X : AuxiliaryStateInvariants) : CraigQuery :=
  addStateAssignments scope leaves X.constants ++ addPairEqualities scope leaves X.equalities false

/-- mirrors src/sec/imc/CraigInterpolatingModelChecker.cpp:2291-2308 -/
def addResetInputValue (p : KInductionProblem) (scope : LeafScope) (asserted : Bool) : CraigQuery :=
  p.resetBootstrapInputs.map fun r => [assignmentLit scope (r.1, if asserted then r.2 else !r.2)]

/-- Reset inputs are written last and override.
mirrors src/sec/imc/CraigInterpolatingModelChecker.cpp:1390-1404 -/
def transitionConstantAssignmentsForEncoding (p : KInductionProblem)
    (X : AuxiliaryStateInvariants) : List (Nat × Bool) :=
  (p.resetBootstrapInputs.map fun r => (r.1, !r.2)).reverse ++ X.constants

/-- What the projection takes of one transition: the targets whose next value is
encoded, the leaves its relations range over, and whether the same-frame relations
are encoded at all. -/
structure ProjectedTransitionFrame where
  targets : List Nat := []
  leaves : List Nat := []
  localSemantics : Bool := true

/-- `next <-> transition` for every target.
mirrors src/sec/imc/CraigInterpolatingModelChecker.cpp:2487-2518 -/
def addTransitionEquations (p : KInductionProblem) (scope : LeafScope) (frame : Nat)
    (constants : List (Nat × Bool)) (targets : List Nat) : CraigQuery :=
  targets.flatMap fun t =>
    match p.transitionAt t with
    | some e =>
      litEquivalence (leafLit (.frame (frame + 1)) t) (formulaLit scope (e.assign constants))
    | none => []

section Query
variable (p : KInductionProblem) (tracked : List Nat) (helpers : List InterpolantRegion)
  (X : AuxiliaryStateInvariants)

/-- mirrors src/sec/imc/CraigInterpolatingModelChecker.cpp:2460-2546 -/
def addProjectedTransition (frame : Nat) (plan : ProjectedTransitionFrame) : CraigQuery :=
  let scope := LeafScope.encoder .transition frame tracked
  addTransitionEquations p scope frame (transitionConstantAssignmentsForEncoding p X)
      (plan.targets.filter (tracked.contains ·)) ++
    addResetInputValue p scope false ++
    (if plan.localSemantics then addStateSemantics p scope plan.leaves else []) ++
    addAuxiliaryStateInvariants scope plan.leaves X

/-- mirrors src/sec/imc/CraigInterpolatingModelChecker.cpp:2727-2748 -/
def encodeBadFormulaRoot (frame : Nat) : CraigQuery × CraigLit :=
  (addResetInputValue p (.encoder .bad frame tracked) false,
    formulaLit (.encoder .bad frame tracked) p.bad)

/-- mirrors src/sec/imc/CraigInterpolatingModelChecker.cpp:2750-2757 -/
def addBadFormula (frame : Nat) : CraigQuery :=
  (encodeBadFormulaRoot p tracked frame).1 ++ [[(encodeBadFormulaRoot p tracked frame).2]]

/-- mirrors src/sec/imc/CraigInterpolatingModelChecker.cpp:2759-2773 -/
def addSuffixBadFormula (lastFrame : Nat) : CraigQuery :=
  ((List.range lastFrame).flatMap fun k => (encodeBadFormulaRoot p tracked (k + 1)).1) ++
    [(List.range lastFrame).map fun k => (encodeBadFormulaRoot p tracked (k + 1)).2]

/-! ## The image query -/

/-- The union of all regions.
mirrors src/sec/imc/CraigInterpolatingModelChecker.cpp:3724-3738 -/
def regionSource (regions : List InterpolantRegion) : CraigQuery :=
  (instantiateRegions .reachable 0 0 regions).1 ++ [(instantiateRegions .reachable 0 0 regions).2]

/-- mirrors src/sec/imc/CraigInterpolatingModelChecker.cpp:3423-3438 -/
def addConcreteCubeOrRegionRoots (cubeAssignments : List (Nat × Bool)) (roots : List CraigLit) :
    CraigQuery :=
  (cubeAssignments.filter fun a => tracked.contains a.1).map fun a =>
    roots ++ [assignmentLit (.frame 0) a]

/-- The bootstrap cube or any region from index 1 on.
mirrors src/sec/imc/CraigInterpolatingModelChecker.cpp:3705-3723 -/
def directSource (regions : List InterpolantRegion) : CraigQuery :=
  (instantiateRegions .reachable 0 1 regions.tail).1 ++
    addConcreteCubeOrRegionRoots tracked p.bootstrapStateAssignments
      (instantiateRegions .reachable 0 1 regions.tail).2

/-- mirrors src/sec/imc/CraigInterpolatingModelChecker.cpp:3702-3738 -/
def imageSource (direct : Bool) (regions : List InterpolantRegion) : CraigQuery :=
  if direct then directSource p tracked regions else regionSource regions

/-- mirrors src/sec/imc/CraigInterpolatingModelChecker.cpp:3651-3773, 3814-3817 -/
def imageA (source : CraigQuery) (plan : Nat → ProjectedTransitionFrame) : CraigQuery :=
  regionUnionConstraint (.helper 0) 0 helpers ++
    regionUnionConstraint (.helper 1) 1 helpers ++
    addAuxiliaryStateInvariants (.frame 0) tracked X ++
    source ++
    addProjectedTransition p tracked X 0 (plan 0) ++
    addStateSemantics p (.frame 1) tracked ++
    addAuxiliaryStateInvariants (.frame 1) tracked X

/-- The frames after the interpolated one: `1 <= frame < lookahead` has a transition,
`2 <= frame <= lookahead` the helper facts.
mirrors src/sec/imc/CraigInterpolatingModelChecker.cpp:3670-3690, 3783-3812, 3818-3830 -/
def imageB (lookahead : Nat) (plan : Nat → ProjectedTransitionFrame) : CraigQuery :=
  ((List.range (lookahead - 1)).flatMap fun k =>
    regionUnionConstraint (.helper (k + 2)) (k + 2) helpers ++
      addAuxiliaryStateInvariants (.frame (k + 2)) tracked X ++
      addProjectedTransition p tracked X (k + 1) (plan (k + 1))) ++
    addStateSemantics p (.frame lookahead) tracked ++
    addAuxiliaryStateInvariants (.frame lookahead) tracked X ++
    addSuffixBadFormula p tracked lookahead

/-! ## The bounded query -/

def startsAtConcreteBootstrapFrontier : Bool :=
  p.resetBootstrapCycles != 0 && !p.bootstrapStateAssignments.isEmpty

def boundedDepth : Nat :=
  if startsAtConcreteBootstrapFrontier p then 0 else p.resetBootstrapCycles

def initialFrontierFormula : Option BoolExpr :=
  if p.initialStateAssignments.isEmpty then
    if p.hasExplicitInitialState then none else some p.property
  else
    some (p.initialStateAssignments.foldl (fun e a =>
      .And e (if a.2 then .var a.1 else .Not (.var a.1))) .createTrue)

/-- mirrors src/sec/imc/CraigInterpolatingModelChecker.cpp:2775-2804 -/
def addInitialFrontierConstraint : CraigQuery :=
  match initialFrontierFormula p with
  | some e => [[formulaLit (.encoder .initial 0 tracked) e]]
  | none => []

/-- One frame under reset.
mirrors src/sec/imc/CraigInterpolatingModelChecker.cpp:3483-3515 -/
def boundedFrame (frame : Nat) (plan : ProjectedTransitionFrame) : CraigQuery :=
  addTransitionEquations p (.frame frame) frame [] plan.targets ++
    addResetInputValue p (.frame frame) true ++
    addStateSemantics p (.frame frame) plan.leaves ++
    addAuxiliaryStateInvariants (.frame frame) plan.leaves X

/-- mirrors src/sec/imc/CraigInterpolatingModelChecker.cpp:3478-3560 -/
def boundedA (plan : Nat → ProjectedTransitionFrame) : CraigQuery :=
  (if boundedDepth p = 0 ∧ startsAtConcreteBootstrapFrontier p = false then
      addInitialFrontierConstraint p tracked
    else []) ++
    ((List.range (boundedDepth p)).flatMap fun k => boundedFrame p X k (plan k)) ++
    (if startsAtConcreteBootstrapFrontier p then []
      else addStateAssignments (.frame 0)
        (if boundedDepth p = 0 then tracked else (plan 0).leaves) p.initialStateAssignments) ++
    addStateAssignments (.frame (boundedDepth p)) tracked p.bootstrapStateAssignments ++
    addStateSemantics p (.frame (boundedDepth p)) tracked ++
    addAuxiliaryStateInvariants (.frame (boundedDepth p)) tracked X

/-- mirrors src/sec/imc/CraigInterpolatingModelChecker.cpp:3571 -/
def boundedB : CraigQuery := addBadFormula p tracked (boundedDepth p)

/-! ## Containment and bad states -/

/-- mirrors src/sec/imc/CraigInterpolatingModelChecker.cpp:3898-3934 -/
def containmentQuery (regions : List InterpolantRegion) (candidate : InterpolantRegion) :
    CraigQuery :=
  regionUnionConstraint (.helper 0) 0 helpers ++
    addStateSemantics p (.frame 0) tracked ++
    addAuxiliaryStateInvariants (.frame 0) tracked X ++
    (instantiateRegion .candidate 0 candidate).1 ++ [[(instantiateRegion .candidate 0 candidate).2]] ++
    (instantiateRegions .reachable 0 0 regions).1 ++
    (instantiateRegions .reachable 0 0 regions).2.map fun root => [root.neg]

/-- mirrors src/sec/imc/CraigInterpolatingModelChecker.cpp:4034-4052 -/
def excludesBadQuery (regions : List InterpolantRegion) : CraigQuery :=
  addStateSemantics p (.frame 0) tracked ++
    addAuxiliaryStateInvariants (.frame 0) tracked X ++
    regionSource regions ++ addBadFormula p tracked 0

variable {σ : Type} (S : CraigSatSolver σ) (fresh : σ)

/-- `regions` are the reachable regions without the skipped one.
mirrors src/sec/imc/CraigInterpolatingModelChecker.cpp:3883-3951 -/
def regionContainedInReachableUnion (regions : List InterpolantRegion)
    (candidate : InterpolantRegion) : Bool :=
  if candidate.type = .constantFalse then true
  else if regions = [] then false
  else answersUnsat S fresh (containmentQuery p tracked helpers X regions candidate)

/-- mirrors src/sec/imc/CraigInterpolatingModelChecker.cpp:4025-4060 -/
def craigInvariantExcludesBad (regions : List InterpolantRegion) : Bool :=
  if tracked = [] ∨ regions = [] then false
  else answersUnsat S fresh (excludesBadQuery p tracked X regions)

end Query

end KeplerFormal
