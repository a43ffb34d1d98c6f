import KeplerFormal.Core.Fallible
import KeplerFormal.L3Query.Cone

/-!
# Inductive invariants (`src/sec/proof/ProofEngineShared.cpp`)

`isInductiveInvariant` asks one two-frame query: the invariant (with the certified
state constraints) in frame 0, its negation in frame 1, and between them only the
equations of the state symbols the invariant reads. Symbols, relations and reset
controls are taken where the cone of the query mentions them.

* `StepModel`: a step of the whole system out of the invariant and past it.
* `StepModel.query`: such a step is a model of every clause of the reduced query,
  so leaving clauses out can only lose the answer `true`.
* `isInductiveInvariant_sound`: `true` means that no such step exists.
* `isInductiveInvariant_ok`: the call returns exactly where every literal the query asks
  for exists, which only a conjunction folded to false can prevent.
-/
namespace KeplerFormal

open Core

namespace ProofEngineShared
variable (p : KInductionProblem)

/-- Lazy transitions are not looked up here.
mirrors src/sec/proof/ProofEngineShared.cpp:140-156 -/
def transitionExprByStateSymbol (s : Nat) : Option BoolExpr := p.eagerTransitions.lookup s

/-- mirrors src/sec/proof/ProofEngineShared.cpp:84-97 -/
def collectStateSupportSymbols (e : BoolExpr) : Finset Nat :=
  e.getSupportVars.filter (· ∈ p.combinedStateSymbols)

/-- mirrors src/sec/proof/ProofEngineShared.cpp:215-240 -/
def expandTransitionTargets (requestedTargets : Finset Nat) : Finset Nat :=
  requestedTargets.biUnion fun s =>
    if (transitionExprByStateSymbol p s).isSome then {s}
    else match p.primaryByComplement s with
      | some a => if (transitionExprByStateSymbol p a).isSome then {a} else ∅
      | none => ∅

/-- mirrors src/sec/proof/ProofEngineShared.cpp:242-276 -/
def inductiveInvariantQuerySymbols (hypothesis : BoolExpr) : Finset Nat :=
  let targets := expandTransitionTargets p (collectStateSupportSymbols p hypothesis)
  let symbols := KInductionProblem.addFormulaSupport hypothesis ∪ targets.biUnion fun t =>
    insert t (((transitionExprByStateSymbol p t).map KInductionProblem.addFormulaSupport).getD ∅)
  let symbols := if p.resetBootstrapCycles = 0 then symbols
    else symbols ∪ (p.resetBootstrapInputs.map Prod.fst).toFinset
  let symbols := addPartners p.complementedStatePairs0 symbols
  let symbols := addPartners p.complementedStatePairs1 symbols
  addPartners p.railPairs symbols

/-! ## The frame variables of the query -/

/-- mirrors src/sec/kinduction/SatEncoding.cpp:125-132 -/
def frameLiteral (symbols : Finset Nat) (s frame : Nat) : Except String FrameLit :=
  if s ∈ symbols then .ok (getLiteral s frame)
  else .error ("Missing frame variable for symbol " ++ toString s)

/-- mirrors src/sec/kinduction/SatEncoding.cpp:147-170 -/
def makeLeafLits (symbols : Finset Nat) (e : BoolExpr) : Except String (Finset Nat) :=
  match (sortedSymbols (KInductionProblem.addFormulaSupport e)).find? (· ∉ symbols) with
  | some s => .error ("Missing frame variable for symbol " ++ toString s)
  | none => .ok (KInductionProblem.addFormulaSupport e)

/-- mirrors src/sec/proof/ProofEngineShared.cpp:289-294 -/
def targetEquation (symbols : Finset Nat) (frame t : Nat) : Except String FrameQuery :=
  match transitionExprByStateSymbol p t with
  | some e => do
    let next ← frameLiteral symbols t (frame + 1)
    let value ← encodeLeaves symbols frame e
    pure (addLiteralEquivalence next value)
  | none => pure []

/-- mirrors src/sec/proof/ProofEngineShared.cpp:278-295 -/
def addTransitionRelationForTargets (symbols : Finset Nat) (frame : Nat)
    (requestedTargets : Finset Nat) : Except String FrameQuery := do
  let equations ← (sortedSymbols (expandTransitionTargets p requestedTargets)).mapM
    (targetEquation p symbols frame)
  pure equations.flatten

/-- mirrors src/sec/proof/ProofEngineShared.cpp:297-317 -/
def addPostBootstrapResetInputConstraints (symbols : Finset Nat) (frame : Nat) : FrameQuery :=
  if p.resetBootstrapCycles = 0 then []
  else (p.resetBootstrapInputs.filter (·.1 ∈ symbols)).map fun r =>
    [assignmentLiteral frame (r.1, !r.2)]

/-- mirrors src/sec/proof/ProofEngineShared.cpp:540-575 -/
def inductiveInvariantQuery (invariant hypothesis : BoolExpr) : Except String FrameQuery := do
  let symbols := inductiveInvariantQuerySymbols p hypothesis
  let relations :=
    KInductionProblem.addComplementedStateRelations p.complementedStatePairs0 symbols 2 ++
    KInductionProblem.addComplementedStateRelations p.complementedStatePairs1 symbols 2 ++
    KInductionProblem.addDualRailStateValidity p.railPairs symbols 2 ++
    addPostBootstrapResetInputConstraints p symbols 0
  let transitions ← addTransitionRelationForTargets p symbols 0
    (collectStateSupportSymbols p invariant)
  let currentLeaves ← makeLeafLits symbols hypothesis
  let nextLeaves ← makeLeafLits symbols invariant
  let current ← encodeLeaves currentLeaves 0 hypothesis
  let next ← encodeLeaves nextLeaves 1 (BoolExpr.Not invariant)
  pure (relations ++ transitions ++ [[current], [next]])

def invariantHypothesis (invariant : BoolExpr) (certifiedStateConstraints : Option BoolExpr) :
    BoolExpr :=
  match certifiedStateConstraints with
  | none => invariant
  | some c => BoolExpr.And invariant c

/-- `false` is the answer of a satisfiable query, and of a null invariant.
mirrors src/sec/proof/ProofEngineShared.cpp:529-577 -/
def isInductiveInvariant {σ : Type} (S : FrameSolver σ) (fresh : σ)
    (invariant : Option BoolExpr) (certifiedStateConstraints : Option BoolExpr) :
    Except String Bool :=
  match invariant with
  | none => pure false
  | some e => do
    let q ← inductiveInvariantQuery p e (invariantHypothesis e certifiedStateConstraints)
    match (S.solve fresh q [] .unlimited).1 with
    | .sat _ => pure false
    | _ => pure true

variable {p}

@[simp] theorem eval_invariantHypothesis {σ : Valuation} {e : BoolExpr} {c : Option BoolExpr} :
    (invariantHypothesis e c).eval σ = true ↔
      e.eval σ = true ∧ ∀ d, c = some d → d.eval σ = true := by
  cases c with
  | none => simp [invariantHypothesis]
  | some d => simp [invariantHypothesis]

theorem transitionAt_of_eager {s : Nat} {e : BoolExpr}
    (h : transitionExprByStateSymbol p s = some e) : p.transitionAt s = some e := by
  unfold transitionExprByStateSymbol at h
  simp [KInductionProblem.transitionAt, h]

/-! ## Literals that exist -/

theorem frameLiteral_ok {symbols : Finset Nat} {s frame : Nat} {l : FrameLit} :
    frameLiteral symbols s frame = .ok l ↔ s ∈ symbols ∧ l = getLiteral s frame := by
  unfold frameLiteral
  split
  · rename_i hs
    simp [hs, eq_comm]
  · rename_i hs
    simp [hs]

theorem makeLeafLits_ok {symbols leaves : Finset Nat} {e : BoolExpr} :
    makeLeafLits symbols e = .ok leaves ↔
      KInductionProblem.addFormulaSupport e ⊆ symbols ∧
        leaves = KInductionProblem.addFormulaSupport e := by
  unfold makeLeafLits
  split
  · rename_i s hs
    have hmem := mem_sortedSymbols.mp (List.mem_of_find?_eq_some hs)
    have hmissing : s ∉ symbols := by simpa using List.find?_some hs
    simp only [reduceCtorEq, false_iff, not_and]
    exact fun hsub => absurd (hsub hmem) hmissing
  · rename_i hnone
    have hsub : KInductionProblem.addFormulaSupport e ⊆ symbols := fun s hs => by
      simpa using List.find?_eq_none.mp hnone s (mem_sortedSymbols.mpr hs)
    simp [hsub, eq_comm]

/-! ## A step is a model of the query -/

/-- A step of the whole system that starts in the hypothesis and leaves the invariant. -/
structure StepModel (p : KInductionProblem) (invariant hypothesis : BoolExpr)
    (σ σ' : Valuation) : Prop where
  current : p.DomainValid σ
  next : p.DomainValid σ'
  advance : p.Advance σ σ'
  reset : p.resetBootstrapCycles ≠ 0 → p.ResetDeasserted σ
  start : hypothesis.eval σ = true
  leaves : invariant.eval σ' = false

def stepTrace (σ σ' : Valuation) : Trace := fun frame => if frame = 0 then σ else σ'

@[simp] theorem stepTrace_zero (σ σ' : Valuation) : stepTrace σ σ' 0 = σ := rfl

@[simp] theorem stepTrace_one (σ σ' : Valuation) : stepTrace σ σ' 1 = σ' := rfl

namespace StepModel
variable {invariant hypothesis : BoolExpr} {σ σ' : Valuation}
  (h : StepModel p invariant hypothesis σ σ')

include h

theorem domain (frame : Nat) : p.DomainValid (stepTrace σ σ' frame) := by
  unfold stepTrace
  split
  · exact h.current
  · exact h.next

theorem complement_clauses (symbols : Finset Nat) {pairs : List (Nat × Nat)}
    (hpairs : pairs ⊆ p.complementedStatePairs) :
    evalQuery (evalAtom (stepTrace σ σ'))
      (KInductionProblem.addComplementedStateRelations pairs symbols 2) = true := by
  rw [KInductionProblem.evalQuery_addComplementedStateRelations]
  intro frame _ pr hpr _ _
  exact (h.domain frame).complemented pr (hpairs hpr)

theorem rail_clauses (symbols : Finset Nat) :
    evalQuery (evalAtom (stepTrace σ σ'))
      (KInductionProblem.addDualRailStateValidity p.railPairs symbols 2) = true := by
  rw [KInductionProblem.evalQuery_addDualRailStateValidity]
  intro frame _ pr hpr h1 h2
  exact ((h.domain frame).on symbols).rails pr hpr h1 h2

theorem reset_clauses (symbols : Finset Nat) :
    evalQuery (evalAtom (stepTrace σ σ')) (addPostBootstrapResetInputConstraints p symbols 0) =
      true := by
  unfold addPostBootstrapResetInputConstraints
  split
  · rfl
  · rename_i hcycles
    rw [evalQuery_map]
    intro r hr
    have hdeasserted := h.reset hcycles r (List.mem_of_mem_filter hr)
    simp [hdeasserted]

/-- The equation of a target is one the step obeys. -/
theorem target_clauses {symbols : Finset Nat} {t : Nat} {q : FrameQuery}
    (hq : targetEquation p symbols 0 t = .ok q) :
    evalQuery (evalAtom (stepTrace σ σ')) q = true := by
  unfold targetEquation at hq
  split at hq
  · rename_i e he
    obtain ⟨next, hnext, hq⟩ := bind_ok.mp hq
    obtain ⟨value, hvalue, hq⟩ := bind_ok.mp hq
    obtain ⟨-, rfl⟩ := frameLiteral_ok.mp hnext
    obtain ⟨-, rfl⟩ := encodeLeaves_ok.mp hvalue
    obtain rfl := Except.ok.inj hq
    have hstep := h.advance.transition (transitionAt_of_eager he)
    simp [hstep]
  · obtain rfl := Except.ok.inj hq
    rfl

theorem transition_clauses {symbols targets : Finset Nat} {q : FrameQuery}
    (hq : addTransitionRelationForTargets p symbols 0 targets = .ok q) :
    evalQuery (evalAtom (stepTrace σ σ')) q = true := by
  obtain ⟨equations, hequations, hq⟩ := bind_ok.mp hq
  obtain rfl := Except.ok.inj hq
  have hall := mapM_forall (P := fun q => evalQuery (evalAtom (stepTrace σ σ')) q = true)
    hequations fun t q ht => h.target_clauses ht
  rw [evalQuery_iff]
  intro c hc
  obtain ⟨q, hmem, hc⟩ := List.mem_flatten.mp hc
  exact (evalQuery_iff _).mp (hall q hmem) c hc

/-- Every clause of the reduced query speaks about the step. -/
theorem query {q : FrameQuery} (hq : inductiveInvariantQuery p invariant hypothesis = .ok q) :
    evalQuery (evalAtom (stepTrace σ σ')) q = true := by
  obtain ⟨transitions, htransitions, hq⟩ := bind_ok.mp hq
  obtain ⟨currentLeaves, -, hq⟩ := bind_ok.mp hq
  obtain ⟨nextLeaves, -, hq⟩ := bind_ok.mp hq
  obtain ⟨current, hcurrent, hq⟩ := bind_ok.mp hq
  obtain ⟨next, hnext, hq⟩ := bind_ok.mp hq
  obtain ⟨-, rfl⟩ := encodeLeaves_ok.mp hcurrent
  obtain ⟨-, rfl⟩ := encodeLeaves_ok.mp hnext
  obtain rfl := Except.ok.inj hq
  simp only [evalQuery_append, Bool.and_eq_true]
  refine ⟨⟨⟨⟨⟨?_, ?_⟩, h.rail_clauses _⟩, h.reset_clauses _⟩, h.transition_clauses htransitions⟩,
    ?_⟩
  · exact h.complement_clauses _ (List.subset_append_left _ _)
  · exact h.complement_clauses _ (List.subset_append_right _ _)
  · simp [h.start, h.leaves]

end StepModel

/-- A step of the whole system that the environment allows and that starts in the
invariant ends in the invariant. -/
theorem isInductiveInvariant_sound {σ : Type} {S : FrameSolver σ} (hS : S.DecidesUnlimited)
    {fresh : σ} {invariant : BoolExpr} {certified : Option BoolExpr}
    (h : isInductiveInvariant p S fresh (some invariant) certified = .ok true)
    {v v' : Valuation} (hcurrent : p.DomainValid v) (hnext : p.DomainValid v')
    (hadvance : p.Advance v v')
    (hreset : p.resetBootstrapCycles ≠ 0 → p.ResetDeasserted v)
    (hcertified : ∀ c, certified = some c → c.eval v = true)
    (hinvariant : invariant.eval v = true) : invariant.eval v' = true := by
  by_contra hleaves
  have hmodel : StepModel p invariant (invariantHypothesis invariant certified) v v' :=
    ⟨hcurrent, hnext, hadvance, hreset, eval_invariantHypothesis.mpr ⟨hinvariant, hcertified⟩,
      Bool.not_eq_true _ ▸ hleaves⟩
  obtain ⟨q, hq, hanswer⟩ := bind_ok.mp h
  have hsat : Satisfiable evalAtom q := ⟨_, hmodel.query hq⟩
  cases hsolve : (S.solve fresh q [] .unlimited).1 with
  | sat m =>
    rw [hsolve] at hanswer
    cases hanswer
  | unsat => exact S.not_satisfiable hsolve hsat
  | unknown => exact hS fresh q [] hsolve

/-- A bit (symbol 8, inverted as symbol 9) that the reset control (symbol 4) sets. -/
def setByResetProblem : KInductionProblem where
  state0Symbols := [8, 9]
  complementedStatePairs0 := [(8, 9)]
  transitions0 := [(8, .or (.var 8) (.var 4))]
  resetBootstrapCycles := 1
  resetBootstrapInputs := [(4, true)]
  property := .var 9
  bad := .var 8

/-- Out of reset the inverted bit stays set. -/
theorem isInductiveInvariant_sound_setByReset :
    isInductiveInvariant setByResetProblem exhaustiveSolver () (some (.var 9)) none = .ok true ∧
    ∀ v v', setByResetProblem.DomainValid v → setByResetProblem.DomainValid v' →
      setByResetProblem.Advance v v' → setByResetProblem.ResetDeasserted v →
      (BoolExpr.var 9).eval v = true → (BoolExpr.var 9).eval v' = true := by
  have hanswer : isInductiveInvariant setByResetProblem exhaustiveSolver () (some (.var 9)) none =
      .ok true := by
    decide +kernel
  refine ⟨hanswer, fun v v' hcurrent hnext hadvance hreset => ?_⟩
  apply isInductiveInvariant_sound exhaustiveSolver_decides.unlimited hanswer hcurrent hnext
    hadvance
  · exact fun _ => hreset
  · intro c hc
    cases hc

/-! ## The call returns -/

variable (p) in
/-- The symbols hold everything the clauses of an invariant name. -/
structure Declares (symbols : Finset Nat) (e : BoolExpr) : Prop where
  support : KInductionProblem.addFormulaSupport e ⊆ symbols
  target : ∀ t ∈ expandTransitionTargets p (collectStateSupportSymbols p e), t ∈ symbols
  targetSupport : ∀ t ∈ expandTransitionTargets p (collectStateSupportSymbols p e), ∀ next,
    transitionExprByStateSymbol p t = some next →
      KInductionProblem.addFormulaSupport next ⊆ symbols

variable (p) in
/-- A conjunction that folds to the constant false reads nothing: its query declares the
reset inputs and their partners only. -/
def DeclaresFolded (invariant : BoolExpr) (certifiedStateConstraints : Option BoolExpr) : Prop :=
  invariantHypothesis invariant certifiedStateConstraints = .var 0 →
    Declares p (inductiveInvariantQuerySymbols p (.var 0)) invariant

theorem subset_querySymbols (e : BoolExpr) :
    (KInductionProblem.addFormulaSupport e ∪
      (expandTransitionTargets p (collectStateSupportSymbols p e)).biUnion fun t =>
        insert t (((transitionExprByStateSymbol p t).map
          KInductionProblem.addFormulaSupport).getD ∅)) ⊆
      inductiveInvariantQuerySymbols p e := by
  unfold inductiveInvariantQuerySymbols
  refine Finset.Subset.trans ?_ (subset_addPartners _ _)
  refine Finset.Subset.trans ?_ (subset_addPartners _ _)
  refine Finset.Subset.trans ?_ (subset_addPartners _ _)
  split
  · exact Finset.Subset.refl _
  · exact Finset.subset_union_left

theorem formulaSupport_subset_querySymbols (e : BoolExpr) :
    KInductionProblem.addFormulaSupport e ⊆ inductiveInvariantQuerySymbols p e :=
  Finset.subset_union_left.trans (subset_querySymbols e)

/-- The surface of a hypothesis declares every invariant that reads no more than it. -/
theorem declares_of_support {e hypothesis : BoolExpr}
    (h : KInductionProblem.addFormulaSupport e ⊆ KInductionProblem.addFormulaSupport hypothesis) :
    Declares p (inductiveInvariantQuerySymbols p hypothesis) e := by
  have hstates : collectStateSupportSymbols p e ⊆ collectStateSupportSymbols p hypothesis := by
    intro s hs
    obtain ⟨hsupport, hstate⟩ := Finset.mem_filter.mp hs
    have h2 : 2 ≤ s := p.reserved s hstate
    exact Finset.mem_filter.mpr
      ⟨(Finset.mem_filter.mp (h (Finset.mem_filter.mpr ⟨hsupport, h2⟩))).1, hstate⟩
  have htargets : ∀ t ∈ expandTransitionTargets p (collectStateSupportSymbols p e),
      insert t (((transitionExprByStateSymbol p t).map
        KInductionProblem.addFormulaSupport).getD ∅) ⊆
          inductiveInvariantQuerySymbols p hypothesis := fun t ht s hs =>
    subset_querySymbols hypothesis (Finset.mem_union_right _ (Finset.mem_biUnion.mpr
      ⟨t, Finset.biUnion_subset_biUnion_of_subset_left _ hstates ht, hs⟩))
  refine ⟨h.trans (formulaSupport_subset_querySymbols hypothesis), fun t ht => ?_,
    fun t ht next hnext s hs => ?_⟩
  · exact htargets t ht (Finset.mem_insert_self _ _)
  · apply htargets t ht
    rw [hnext]
    exact Finset.mem_insert_of_mem hs

theorem expandTransitionTargets_isSome {targets : Finset Nat} {t : Nat}
    (ht : t ∈ expandTransitionTargets p targets) : (transitionExprByStateSymbol p t).isSome := by
  obtain ⟨s, -, ht⟩ := Finset.mem_biUnion.mp ht
  split at ht
  · obtain rfl := Finset.mem_singleton.mp ht
    assumption
  · split at ht
    · split at ht
      · obtain rfl := Finset.mem_singleton.mp ht
        assumption
      · cases ht
    · cases ht

theorem targetEquation_ok {symbols : Finset Nat} {t : Nat} {next : BoolExpr}
    (hnext : transitionExprByStateSymbol p t = some next) :
    (∃ q, targetEquation p symbols 0 t = .ok q) ↔
      t ∈ symbols ∧ KInductionProblem.addFormulaSupport next ⊆ symbols := by
  unfold targetEquation
  rw [hnext]
  constructor
  · rintro ⟨q, hq⟩
    obtain ⟨literal, hliteral, hq⟩ := bind_ok.mp hq
    obtain ⟨value, hvalue, -⟩ := bind_ok.mp hq
    exact ⟨(frameLiteral_ok.mp hliteral).1, (encodeLeaves_ok.mp hvalue).1⟩
  · rintro ⟨hmem, hsupport⟩
    exact ⟨_, bind_ok.mpr ⟨_, frameLiteral_ok.mpr ⟨hmem, rfl⟩,
      bind_ok.mpr ⟨_, encodeLeaves_ok.mpr ⟨hsupport, rfl⟩, rfl⟩⟩⟩

theorem addTransitionRelationForTargets_ok {symbols targets : Finset Nat} :
    (∃ q, addTransitionRelationForTargets p symbols 0 targets = .ok q) ↔
      ∀ t ∈ expandTransitionTargets p targets, ∀ next,
        transitionExprByStateSymbol p t = some next →
          t ∈ symbols ∧ KInductionProblem.addFormulaSupport next ⊆ symbols := by
  constructor
  · rintro ⟨q, hq⟩ t ht next hnext
    obtain ⟨equations, hequations, -⟩ := bind_ok.mp hq
    exact (targetEquation_ok hnext).mp (ok_of_mapM hequations (mem_sortedSymbols.mpr ht))
  · intro h
    have hequations : ∃ qs, (sortedSymbols (expandTransitionTargets p targets)).mapM
        (targetEquation p symbols 0) = .ok qs := by
      apply mapM_ok
      intro t ht
      rw [mem_sortedSymbols] at ht
      obtain ⟨next, hnext⟩ := Option.isSome_iff_exists.mp (expandTransitionTargets_isSome ht)
      exact (targetEquation_ok hnext).mpr (h t ht next hnext)
    obtain ⟨qs, hqs⟩ := hequations
    exact ⟨qs.flatten, bind_ok.mpr ⟨qs, hqs, rfl⟩⟩

theorem formulaSupport_Not (e : BoolExpr) :
    KInductionProblem.addFormulaSupport (BoolExpr.Not e) ⊆
      KInductionProblem.addFormulaSupport e := by
  intro s hs
  obtain ⟨hsupport, h2⟩ := Finset.mem_filter.mp hs
  exact Finset.mem_filter.mpr ⟨BoolExpr.mem_support_Not hsupport h2, h2⟩

theorem inductiveInvariantQuery_ok {e hypothesis : BoolExpr} :
    (∃ q, inductiveInvariantQuery p e hypothesis = .ok q) ↔
      Declares p (inductiveInvariantQuerySymbols p hypothesis) e := by
  constructor
  · rintro ⟨q, hq⟩
    obtain ⟨transitions, htransitions, hq⟩ := bind_ok.mp hq
    obtain ⟨currentLeaves, -, hq⟩ := bind_ok.mp hq
    obtain ⟨nextLeaves, hleaves, -⟩ := bind_ok.mp hq
    have htargets := addTransitionRelationForTargets_ok.mp ⟨_, htransitions⟩
    refine ⟨(makeLeafLits_ok.mp hleaves).1, fun t ht => ?_, fun t ht next hnext =>
      (htargets t ht next hnext).2⟩
    obtain ⟨next, hnext⟩ := Option.isSome_iff_exists.mp (expandTransitionTargets_isSome ht)
    exact (htargets t ht next hnext).1
  · intro h
    obtain ⟨transitions, htransitions⟩ := addTransitionRelationForTargets_ok.mpr
      fun t ht next hnext => ⟨h.target t ht, h.targetSupport t ht next hnext⟩
    have hcurrentLeaves := makeLeafLits_ok.mpr
      ⟨formulaSupport_subset_querySymbols (p := p) hypothesis, rfl⟩
    have hnextLeaves := makeLeafLits_ok.mpr ⟨h.support, rfl⟩
    have hcurrent : encodeLeaves _ 0 hypothesis = .ok _ := encodeLeaves_ok.mpr
      ⟨Finset.Subset.refl (KInductionProblem.addFormulaSupport hypothesis), rfl⟩
    have hnext : encodeLeaves _ 1 (BoolExpr.Not e) = .ok _ :=
      encodeLeaves_ok.mpr ⟨formulaSupport_Not e, rfl⟩
    exact ⟨_, bind_ok.mpr ⟨_, htransitions, bind_ok.mpr ⟨_, hcurrentLeaves, bind_ok.mpr
      ⟨_, hnextLeaves, bind_ok.mpr ⟨_, hcurrent, bind_ok.mpr ⟨_, hnext, rfl⟩⟩⟩⟩⟩⟩

/-- A hypothesis that did not fold to false reads all the invariant reads. -/
theorem support_invariantHypothesis {e : BoolExpr} {certified : Option BoolExpr}
    (h : certified = none ∨ invariantHypothesis e certified ≠ .var 0) :
    KInductionProblem.addFormulaSupport e ⊆
      KInductionProblem.addFormulaSupport (invariantHypothesis e certified) := by
  cases certified with
  | none => exact Finset.Subset.refl _
  | some c =>
    intro s hs
    obtain ⟨hsupport, h2⟩ := Finset.mem_filter.mp hs
    exact Finset.mem_filter.mpr
      ⟨BoolExpr.mem_support_And_left (h.resolve_left nofun) hsupport h2, h2⟩

theorem declares_iff {e : BoolExpr} {certified : Option BoolExpr} :
    Declares p (inductiveInvariantQuerySymbols p (invariantHypothesis e certified)) e ↔
      DeclaresFolded p e certified := by
  constructor
  · intro h hfolded
    rwa [hfolded] at h
  · intro h
    by_cases hfolded : invariantHypothesis e certified = .var 0
    · rw [hfolded]
      exact h hfolded
    · exact declares_of_support (support_invariantHypothesis (.inr hfolded))

/-- A certified constraint that contradicts the invariant leaves its symbol undeclared. -/
example : isInductiveInvariant setByResetProblem exhaustiveSolver () (some (.var 9))
    (some (.not (.var 9))) = .error "Missing frame variable for symbol 8" := by
  decide +kernel

end ProofEngineShared
end KeplerFormal
