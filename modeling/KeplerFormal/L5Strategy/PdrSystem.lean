import KeplerFormal.Core.Frames
import KeplerFormal.L4Engine.PdrCubes

/-!
# The system that a PDR run is about (`src/sec/pdr/PDREngine.cpp`)

* `Admissible`, `pdrSystem`: frames that keep the relations, with the reset controls released
  after a bootstrap, and the steps between them.
* `sameModel`: what is compared before a cache is shared; problems of one model have one system.
* `outside_of_knownConflict`, `outside_of_contradicts`: a known conflict of a cube leaves no start
  state in it.
-/
namespace KeplerFormal

open Core

instance : DecidableEq LazyTransition := fun a b =>
  decidable_of_iff (a.expr = b.expr ∧ a.support = b.support) (by cases a; cases b; simp)

namespace KInductionProblem
variable (p : KInductionProblem)

/-- The frames of the system after reset. -/
structure Admissible (v : Valuation) : Prop where
  domain : p.DomainValid v
  reset : p.resetBootstrapCycles ≠ 0 → p.ResetDeasserted v

def pdrSystem (initFormula : BoolExpr) : LTS Valuation Unit where
  init v := p.Admissible v ∧ initFormula.eval v = true
  step v _ v' := p.Admissible v ∧ p.Admissible v' ∧ p.Advance v v'

def SameStates (v v' : Valuation) : Prop :=
  p.Admissible v' ∧ ∀ s ∈ p.combinedStateSymbols, lit v' s = lit v s

/-- Only output and property fields may differ. The list of all inputs, which no modelled function
reads, is not compared; the lazy transitions are compared by content.
mirrors src/sec/pdr/PDREngine.cpp:1395-1426 -/
def sameModel (candidate : KInductionProblem) : Bool :=
  p.resetBootstrapCycles == candidate.resetBootstrapCycles &&
  p.resetBootstrapInputs == candidate.resetBootstrapInputs &&
  p.initialStateAssignments == candidate.initialStateAssignments &&
  p.bootstrapStateAssignments == candidate.bootstrapStateAssignments &&
  p.state0Symbols == candidate.state0Symbols &&
  p.state1Symbols == candidate.state1Symbols &&
  p.auxiliaryStateSymbols == candidate.auxiliaryStateSymbols &&
  p.allSymbols == candidate.allSymbols &&
  p.complementedStatePairs0 == candidate.complementedStatePairs0 &&
  p.complementedStatePairs1 == candidate.complementedStatePairs1 &&
  p.sameFrameStateEqualityPairs0 == candidate.sameFrameStateEqualityPairs0 &&
  p.sameFrameStateEqualityPairs1 == candidate.sameFrameStateEqualityPairs1 &&
  p.dualRailStatePairs == candidate.dualRailStatePairs &&
  p.transitions0 == candidate.transitions0 &&
  p.transitions1 == candidate.transitions1 &&
  p.auxiliaryTransitions == candidate.auxiliaryTransitions &&
  p.lazyTransitions == candidate.lazyTransitions &&
  p.initialCondition == candidate.initialCondition

/-! ## Problems of one model -/

section SameModel
variable {p} {q r : KInductionProblem} {v v' : Valuation}

/-- The candidate is the problem with outputs and properties of its own. -/
theorem sameModel_iff : p.sameModel q = true ↔ ∃ view initialized total dualRail,
    q = { p.observing view with
      initializedStateCount := initialized
      totalStateCount := total
      usesDualRailStateEncoding := dualRail } := by
  constructor
  · intro h
    simp only [sameModel, Bool.and_eq_true, beq_iff_eq, and_assoc] at h
    refine ⟨q.ownView, q.initializedStateCount, q.totalStateCount, q.usesDualRailStateEncoding, ?_⟩
    cases p
    cases q
    obtain ⟨rfl, rfl, rfl, rfl, rfl, rfl, rfl, rfl, rfl, rfl, rfl, rfl, rfl, rfl, rfl, rfl, rfl,
      rfl⟩ := h
    rfl
  · rintro ⟨view, initialized, total, dualRail, rfl⟩
    simp [sameModel, observing]

theorem sameModel_refl (p : KInductionProblem) : p.sameModel p = true :=
  sameModel_iff.mpr ⟨p.ownView, _, _, _, rfl⟩

theorem sameModel_observing (view : OutputView) : p.sameModel (p.observing view) = true :=
  sameModel_iff.mpr ⟨view, _, _, _, rfl⟩

theorem sameModel_trans (h : p.sameModel q = true) (h' : q.sameModel r = true) :
    p.sameModel r = true := by
  obtain ⟨view, _, _, _, rfl⟩ := sameModel_iff.mp h
  obtain ⟨view', initialized, total, dualRail, rfl⟩ := sameModel_iff.mp h'
  exact sameModel_iff.mpr ⟨view', initialized, total, dualRail, rfl⟩

variable (h : p.sameModel q = true)

include h

theorem combinedStateSymbols_of_sameModel : q.combinedStateSymbols = p.combinedStateSymbols := by
  obtain ⟨view, _, _, _, rfl⟩ := sameModel_iff.mp h
  rfl

theorem domainValid_of_sameModel : q.DomainValid v ↔ p.DomainValid v := by
  obtain ⟨view, _, _, _, rfl⟩ := sameModel_iff.mp h
  exact ⟨fun hv => ⟨hv.complemented, hv.equal, hv.rails⟩,
    fun hv => ⟨hv.complemented, hv.equal, hv.rails⟩⟩

theorem admissible_of_sameModel : q.Admissible v ↔ p.Admissible v := by
  have hdomain := @domainValid_of_sameModel p q v h
  obtain ⟨view, _, _, _, rfl⟩ := sameModel_iff.mp h
  exact ⟨fun hv => ⟨hdomain.mp hv.domain, hv.reset⟩, fun hv => ⟨hdomain.mpr hv.domain, hv.reset⟩⟩

theorem advance_of_sameModel : q.Advance v v' ↔ p.Advance v v' := by
  obtain ⟨view, _, _, _, rfl⟩ := sameModel_iff.mp h
  exact Iff.rfl

theorem pdrSystem_of_sameModel (initFormula : BoolExpr) :
    q.pdrSystem initFormula = p.pdrSystem initFormula := by
  unfold pdrSystem
  congr 1
  · funext v
    exact propext (and_congr_left' (admissible_of_sameModel h))
  · funext v l v'
    exact propext (and_congr (admissible_of_sameModel h)
      (and_congr (admissible_of_sameModel h) (advance_of_sameModel h)))

theorem sameStates_of_sameModel : q.SameStates v v' ↔ p.SameStates v v' := by
  unfold SameStates
  rw [combinedStateSymbols_of_sameModel h]
  exact and_congr_left' (admissible_of_sameModel h)

theorem startFacts_of_sameModel {values : Nat → Bool} :
    q.StartFacts values ↔ p.StartFacts values := by
  obtain ⟨view, _, _, _, rfl⟩ := sameModel_iff.mp h
  exact ⟨fun hv => ⟨hv.1, hv.2⟩, fun hv => ⟨hv.1, hv.2⟩⟩

end SameModel

/-! ## Cubes without start states -/

section Conflicts
variable {p} {initFormula : BoolExpr} {cube conflict : StateCube} {v : Valuation}

theorem startFacts_of_init (hinit : p.buildExactPdrInitFormula = .ok initFormula)
    (hv : (p.pdrSystem initFormula).init v) : p.StartFacts (lit v) :=
  startFacts_of_exactInit hinit hv.2 hv.1.domain

/-- The conflict is part of the cube, and no start state has its literals. -/
theorem outside_of_knownConflict
    (h : p.buildInitFactIndex.knownInitConflictCube cube = some conflict)
    (hv : p.StartFacts (lit v)) : ¬ conflict.Holds v ∧ ¬ cube.Holds v := by
  have hfound : p.buildInitFactIndex.Conflict cube conflict :=
    InitFactIndex.conflict_of_conflictFrom p.knowsAssigned (fun r first h => by cases h)
      (fun literal hl => hl) h
  have hout : ¬ conflict.Holds v := fun hconflict => hfound.excluded (lit v) hv.kept hconflict
  refine ⟨hout, fun hcube => hout fun literal hmem => hcube literal ?_⟩
  exact (InitFactIndex.mem_knownLiterals.mp (hfound.subset literal hmem)).1

theorem outside_of_contradicts (h : cubeContradictsKnownInitFacts p cube = true)
    (hinit : p.buildExactPdrInitFormula = .ok initFormula)
    (hv : (p.pdrSystem initFormula).init v) : ¬ cube.Holds v := by
  refine not_holds_of_contradicts h hv.1.domain fun hcycles a ha => ?_
  refine (startFacts_of_init hinit hv).assignments a ?_
  rw [startAssignments, if_neg (not_not.mpr hcycles)]
  exact ha

end Conflicts

end KInductionProblem

end KeplerFormal
