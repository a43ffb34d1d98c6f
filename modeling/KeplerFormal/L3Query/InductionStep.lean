import KeplerFormal.L3Query.Cone

/-!
# The k-induction step (`src/sec/kinduction/InductionStepSolver.cpp`)

`proveByInductionStatus` asks for `k + 1` frames that keep the relations, release
reset, follow the transitions of the cone, satisfy the property in the first `k`
frames and the bad formula in the last, and differ pairwise in some state symbol
of the cone.

* `window_agree`: an unsatisfiable step query means that every such window repeats
  the relevant state symbols.
* `bad_spliced`: skipping the repetition keeps the bad formula, as long as no
  auxiliary state is read in the frames after the first.
* `proveByInductionStatus_sound`: under that condition `Proved` at `k` together
  with the property in fewer than `k` steps gives the property everywhere.
* `proveByInductionStatus_unsound`: without it `Proved` says nothing, since
  `buildStateSymbolSet` leaves auxiliary states out of the pairwise difference.
-/
namespace KeplerFormal

open Core

inductive InductionProofStatus where
  | proved
  | notProved
  | unknown
  deriving DecidableEq, Repr

structure InductionCoi where
  transitionTargetsByFrame : Nat → List Nat
  relevantStateSymbols : Finset Nat
  solverSymbols : Finset Nat

def kMaxSimplePathStateSymbols : Nat := 4096

namespace KInductionProblem
variable (p : KInductionProblem)

def selectedInductionProperty : BoolExpr := p.inductionProperty.getD p.property

def selectedInductionBad : BoolExpr := p.inductionBad.getD p.bad

def inductionSeed (k frame : Nat) : Finset Nat :=
  if frame < k then p.addFormulaStateSupport p.selectedInductionProperty
  else p.addFormulaStateSupport p.selectedInductionBad

/-- mirrors src/sec/kinduction/InductionStepSolver.cpp:474-482 -/
def addPostBootstrapResetInputSymbols (X : Finset Nat) : Finset Nat :=
  if p.resetBootstrapCycles = 0 then X
  else X ∪ (p.resetBootstrapInputs.map Prod.fst).toFinset

/-- mirrors src/sec/kinduction/InductionStepSolver.cpp:515-599 -/
def buildInductionCoi (k : Nat) : InductionCoi :=
  let seed := p.inductionSeed k
  let required := (Finset.range (k + 1)).biUnion (p.requiredStates seed k)
  let targets := (Finset.range k).biUnion (p.transitionTargets seed k)
  let formulas :=
    addFormulaSupport p.selectedInductionProperty ∪ addFormulaSupport p.selectedInductionBad
  { transitionTargetsByFrame := fun frame => sortedSymbols (p.transitionTargets seed k frame)
    relevantStateSymbols := required ∪ targets
    solverSymbols := p.addPostBootstrapResetInputSymbols
      (p.addRelationPartners (formulas ∪ p.coneSymbols seed k)) }

/-- Both branches on `usesDualRailStateEncoding` compare with one bound.
mirrors src/sec/kinduction/InductionStepSolver.cpp:284-295 -/
def shouldAddSimplePathConstraint (coi : InductionCoi) : Bool :=
  coi.relevantStateSymbols.card ≤ kMaxSimplePathStateSymbols

/-- mirrors src/sec/kinduction/InductionStepSolver.cpp:727-756 -/
def addPostBootstrapResetInputConstraints (solverSymbols : Finset Nat) (numFrames : Nat) :
    FrameQuery :=
  if p.resetBootstrapCycles = 0 then []
  else (p.resetBootstrapInputs.filter (·.1 ∈ solverSymbols)).flatMap fun r =>
    (List.range numFrames).map fun frame => [assignmentLiteral frame (r.1, !r.2)]

/-- mirrors src/sec/kinduction/InductionStepSolver.cpp:779-887 -/
def inductionQuery (k : Nat) : FrameQuery :=
  let coi := p.buildInductionCoi k
  p.addRelations coi.solverSymbols (k + 1) ++
  p.addPostBootstrapResetInputConstraints coi.solverSymbols (k + 1) ++
  (List.range k).flatMap (fun frame =>
    p.addTransitionRelation (coi.transitionTargetsByFrame frame) frame) ++
  (List.range k).map (fun frame => [encode frame p.selectedInductionProperty]) ++
  (if shouldAddSimplePathConstraint coi then
    addSimplePathConstraint (sortedSymbols coi.relevantStateSymbols) (k + 1) else []) ++
  [[encode k p.selectedInductionBad]]

end KInductionProblem

open KInductionProblem

/-- Kissat takes a decision limit, CaDiCaL takes it twice.
mirrors src/sec/kinduction/InductionStepSolver.cpp:889-902 -/
def inductionSolveLimits (solverType : SolverType) (decisionLimit : Option Nat) : SolveLimits :=
  match solverType, decisionLimit with
  | .kissat, some n => ⟨none, some n, none⟩
  | .cadical, some n => ⟨some n, some n, none⟩
  | _, _ => .unlimited

/-- mirrors src/sec/kinduction/InductionStepSolver.cpp:779-918 -/
def proveByInductionStatus {σ : Type} (S : FrameSolver σ) (s : σ) (p : KInductionProblem)
    (solverType : SolverType) (k : Nat) (decisionLimit : Option Nat) :
    InductionProofStatus × σ :=
  match S.solve s (p.inductionQuery k) [] (inductionSolveLimits solverType decisionLimit) with
  | (.unsat, s') => (.proved, s')
  | (.sat _, s') => (.notProved, s')
  | (.unknown, s') => (.unknown, s')

namespace KInductionProblem
variable {p : KInductionProblem}

theorem not_satisfiable_of_proved {σ : Type} {S : FrameSolver σ} {s : σ} {solverType : SolverType}
    {k : Nat} {limit : Option Nat}
    (h : (proveByInductionStatus S s p solverType k limit).1 = .proved) :
    ¬ Satisfiable evalAtom (p.inductionQuery k) := by
  unfold proveByInductionStatus at h
  split at h
  · rename_i hsolve
    exact S.not_satisfiable (congrArg Prod.fst hsolve)
  · simp at h
  · simp at h

/-- A window of `k` steps with the property in its first `k` frames and the bad
formula in its last. -/
structure Window (p : KInductionProblem) (k : Nat) (τ : Trace) : Prop where
  domain : ∀ f ≤ k, p.DomainValid (τ f)
  path : p.Path τ k
  reset : p.resetBootstrapCycles ≠ 0 → ∀ f ≤ k, p.ResetDeasserted (τ f)
  property : ∀ f < k, p.selectedInductionProperty.eval (τ f) = true
  bad : p.selectedInductionBad.eval (τ k) = true

theorem Window.reset_clauses {k : Nat} {τ : Trace} (h : p.Window k τ) (X : Finset Nat) :
    evalQuery (evalAtom τ) (p.addPostBootstrapResetInputConstraints X (k + 1)) = true := by
  unfold addPostBootstrapResetInputConstraints
  split
  · rfl
  · rename_i hc
    rw [evalQuery_flatMap]
    intro r hr
    rw [evalQuery_map]
    intro frame hframe
    have hdeasserted := h.reset hc frame (Nat.lt_succ_iff.mp (List.mem_range.mp hframe)) r
      (List.mem_of_mem_filter hr)
    simp [hdeasserted]

theorem Window.transition_clauses {k : Nat} {τ : Trace} (h : p.Window k τ)
    (targets : Nat → List Nat) :
    evalQuery (evalAtom τ)
      ((List.range k).flatMap fun f => p.addTransitionRelation (targets f) f) = true := by
  rw [evalQuery_flatMap]
  intro f hf
  rw [evalQuery_addTransitionRelation]
  exact fun t _ e he => (h.path f (List.mem_range.mp hf)).transition he

/-- An unsatisfiable step query leaves a window one way out: the simple-path
clauses are asserted and two of its frames carry the same relevant states. -/
theorem window_agree {k : Nat} {τ : Trace} (hunsat : ¬ Satisfiable evalAtom (p.inductionQuery k))
    (h : p.Window k τ) :
    shouldAddSimplePathConstraint (p.buildInductionCoi k) = true ∧
    (p.buildInductionCoi k).relevantStateSymbols ≠ ∅ ∧
    ∃ i j, i < j ∧ j ≤ k ∧ ∀ s ∈ (p.buildInductionCoi k).relevantStateSymbols,
      lit (τ i) s = lit (τ j) s := by
  by_contra hcontra
  refine hunsat ⟨τ, ?_⟩
  have hproperty : evalQuery (evalAtom τ)
      ((List.range k).map fun f => [encode f p.selectedInductionProperty]) = true := by
    rw [evalQuery_map]
    intro f hf
    simpa using h.property f (List.mem_range.mp hf)
  have hsimple : evalQuery (evalAtom τ)
      (if shouldAddSimplePathConstraint (p.buildInductionCoi k) then
        addSimplePathConstraint (sortedSymbols (p.buildInductionCoi k).relevantStateSymbols) (k + 1)
      else []) = true := by
    split
    · rename_i hadd
      by_cases hne : sortedSymbols (p.buildInductionCoi k).relevantStateSymbols = []
      · simp [addSimplePathConstraint, hne]
      · rw [evalQuery_addSimplePathConstraint hne]
        intro i j hij hj
        by_contra hsame
        push Not at hsame
        refine hcontra ⟨hadd, ?_, i, j, hij, Nat.lt_succ_iff.mp hj, fun s hs => ?_⟩
        · rintro hempty
          exact hne (List.eq_nil_iff_forall_not_mem.mpr fun s hs => by
            rw [mem_sortedSymbols, hempty] at hs
            simp at hs)
        · exact hsame s (mem_sortedSymbols.mpr hs)
    · rfl
  simp only [inductionQuery, evalQuery_append, Bool.and_eq_true]
  refine ⟨⟨⟨⟨⟨?_, h.reset_clauses _⟩, h.transition_clauses _⟩, hproperty⟩, hsimple⟩, ?_⟩
  · exact evalQuery_addRelations.mpr fun f hf => (h.domain f (Nat.lt_succ_iff.mp hf)).on _
  · simpa using h.bad

/-! ## Skipping a repetition -/

/-- The formulas of the step, as roots of the cone. -/
def inductionRoots (p : KInductionProblem) : Finset Nat :=
  addFormulaSupport p.selectedInductionProperty ∪ addFormulaSupport p.selectedInductionBad

/-- No auxiliary state is read in a frame after the first of the window, apart
from those that a design lists as its own state. -/
def ReadsDesignStates (p : KInductionProblem) (k : Nat) : Prop :=
  ∀ s ∈ p.auxiliaryStateSymbols, p.ReadWithin p.inductionRoots (k - 1) s →
    s ∈ p.state0Symbols ++ p.state1Symbols

theorem mem_buildStateSymbolSet {s : Nat} :
    s ∈ p.buildStateSymbolSet ↔ s ∈ p.state0Symbols ++ p.state1Symbols := List.mem_toFinset

theorem inductionSeed_subset_roots (k f : Nat) : p.inductionSeed k f ⊆ p.inductionRoots := by
  have hsub : ∀ e : BoolExpr, p.addFormulaStateSupport e ⊆ addFormulaSupport e := by
    intro e s hs
    obtain ⟨hsupport, hstate⟩ := Finset.mem_filter.mp hs
    have hmem := List.mem_append_left p.auxiliaryStateSymbols (mem_buildStateSymbolSet.mp hstate)
    exact Finset.mem_filter.mpr ⟨hsupport, p.reserved s hmem⟩
  unfold inductionSeed inductionRoots
  split
  · exact (hsub _).trans Finset.subset_union_left
  · exact (hsub _).trans Finset.subset_union_right

/-- Under `ReadsDesignStates` a state symbol that the bad formula or a target of
a later frame reads is a required state of its frame. -/
theorem mem_requiredStates_of_read {k f x : Nat} (hreads : p.ReadsDesignStates k)
    (hf : 0 < f) (hfk : f < k) (hstate : x ∈ p.combinedStateSymbols)
    (hx : x ∈ p.collectSupportForTargets (p.transitionTargets (p.inductionSeed k) k f)) :
    x ∈ p.requiredStates (p.inductionSeed k) k f := by
  refine support_subset_requiredStates hfk (Finset.mem_filter.mpr ⟨hx, ?_⟩)
  rw [mem_buildStateSymbolSet]
  rcases List.mem_append.mp hstate with hdesign | haux
  · exact hdesign
  · refine hreads x haux ?_
    have hread := readWithin_support
      (requiredBack_readWithin (fun i _ => inductionSeed_subset_roots k i) (k - (f + 1))) hx
    exact hread.mono (by omega)

theorem mem_requiredStates_of_bad {k x : Nat} (hreads : p.ReadsDesignStates k)
    (hstate : x ∈ p.combinedStateSymbols) (hx : x ∈ p.selectedInductionBad.getSupportVars) :
    x ∈ p.requiredStates (p.inductionSeed k) k k := by
  refine seed_subset_requiredStates (Nat.le_refl k) ?_
  have hdesign : x ∈ p.state0Symbols ++ p.state1Symbols := by
    rcases List.mem_append.mp hstate with hdesign | haux
    · exact hdesign
    · refine hreads x haux (.root (Finset.mem_union_right _ ?_))
      exact Finset.mem_filter.mpr ⟨hx, p.reserved x hstate⟩
  unfold inductionSeed
  rw [if_neg (Nat.lt_irrefl k)]
  exact Finset.mem_filter.mpr ⟨hx, mem_buildStateSymbolSet.mpr hdesign⟩

/-- After the splice the required states of every later frame carry the values
they had in the original run, `d` frames later. -/
theorem lit_spliced_required {k w i d : Nat} {τ : Trace} (hpath : p.Path τ (w + k))
    (hreads : p.ReadsDesignStates k) (hd : 0 < d)
    (hagree : ∀ s ∈ p.requiredStates (p.inductionSeed k) k (i + d),
      lit (τ (w + i)) s = lit (τ (w + (i + d))) s) :
    ∀ m, i + d + m ≤ k → ∀ s ∈ p.requiredStates (p.inductionSeed k) k (i + d + m),
      lit (p.spliced τ (w + i) d (w + i + m)) s = lit (τ (w + (i + d + m))) s := by
  intro m
  induction m with
  | zero =>
    intro _ s hs
    rw [Nat.add_zero, spliced_at]
    by_cases hstate : s ∈ p.combinedStateSymbols
    · rw [lit_withInputs_of_mem hstate]
      exact hagree s hs
    · rw [lit_withInputs_of_not_mem hstate, show w + i + d = w + (i + d + 0) by omega]
  | succ m ih =>
    intro hm s hs
    have hadv := hpath (w + (i + d + m)) (by omega)
    rw [show w + i + (m + 1) = (w + i + m) + 1 by omega, spliced_after (by omega),
      show w + i + m + 1 + d = w + (i + d + m) + 1 by omega,
      show w + (i + d + (m + 1)) = w + (i + d + m) + 1 by omega]
    refine lit_successor_congr (hadv s) fun t ht x hx => ?_
    by_cases hstate : x ∈ p.combinedStateSymbols
    · refine ih (by omega) x (mem_requiredStates_of_read hreads (by omega) (by omega) hstate ?_)
      exact mem_collectSupportForTargets.mpr
        ⟨t, mem_expandTransitionTargets.mpr ⟨s, hs, ht⟩, hx⟩
    · rw [lit_spliced_input (by omega) hstate, show w + i + m + d = w + (i + d + m) by omega]

/-- The spliced run ends in a frame where the bad formula holds as well. -/
theorem bad_spliced {k w i j : Nat} {τ : Trace} (hpath : p.Path τ (w + k))
    (hreads : p.ReadsDesignStates k) (hij : i < j) (hj : j ≤ k)
    (hagree : ∀ s ∈ p.requiredStates (p.inductionSeed k) k j,
      lit (τ (w + i)) s = lit (τ (w + j)) s)
    (hbad : p.selectedInductionBad.eval (τ (w + k)) = true) :
    p.selectedInductionBad.eval (p.spliced τ (w + i) (j - i) (w + k - (j - i))) = true := by
  obtain ⟨d, rfl⟩ : ∃ d, j = i + d := ⟨j - i, by omega⟩
  obtain ⟨m, rfl⟩ : ∃ m, k = i + d + m := ⟨k - (i + d), by omega⟩
  have hend : w + (i + d + m) - (i + d - i) = w + i + m := by omega
  have hshift : i + d - i = d := by omega
  rw [hend, hshift, ← hbad]
  refine BoolExpr.eval_congr_lit fun x hx _ => ?_
  by_cases hstate : x ∈ p.combinedStateSymbols
  · exact lit_spliced_required hpath hreads (by omega) hagree m (Nat.le_refl _) x
      (mem_requiredStates_of_bad hreads hstate hx)
  · rw [lit_spliced_input (by omega) hstate, show w + i + m + d = w + (i + d + m) by omega]

/-- The simple-path clauses are not asserted, or the states they compare are all
the state the cone reads. -/
def SimplePathCoversCone (p : KInductionProblem) (k : Nat) : Prop :=
  shouldAddSimplePathConstraint (p.buildInductionCoi k) = false ∨
  (p.buildInductionCoi k).relevantStateSymbols = ∅ ∨
  p.ReadsDesignStates k

/-- A run that ends in a bad window of an unsatisfiable step query has a shorter
run with the bad formula in its last frame. -/
theorem exists_shorter_bad {k w : Nat} {τ : Trace}
    (hunsat : ¬ Satisfiable evalAtom (p.inductionQuery k)) (hcover : p.SimplePathCoversCone k)
    (hpath : p.Path τ (w + k)) (hwindow : p.Window k fun f => τ (w + f)) :
    ∃ a d, 0 < d ∧ w ≤ a ∧ a + d ≤ w + k ∧
      p.selectedInductionBad.eval (p.spliced τ a d (w + k - d)) = true := by
  obtain ⟨hadd, hne, i, j, hij, hj, hagree⟩ := window_agree hunsat hwindow
  have hreads : p.ReadsDesignStates k := by
    rcases hcover with h | h | h
    · rw [hadd] at h
      cases h
    · exact absurd h hne
    · exact h
  have hrequired : p.requiredStates (p.inductionSeed k) k j ⊆
      (p.buildInductionCoi k).relevantStateSymbols := by
    refine (Finset.subset_biUnion_of_mem (p.requiredStates (p.inductionSeed k) k) ?_).trans
      Finset.subset_union_left
    exact Finset.mem_range.mpr (by omega)
  exact ⟨w + i, j - i, by omega, by omega, by omega,
    bad_spliced hpath hreads hij hj (fun s hs => hagree s (hrequired hs)) hwindow.bad⟩

/-! ## The step proof -/

/-- `Proved` at `k` and the property in all states reachable in fewer than `k`
steps give the property in every reachable state. -/
theorem proveByInductionStatus_sound (I : InitialStates p) {σ : Type} (S : FrameSolver σ) (s : σ)
    (solverType : SolverType) (k : Nat) (limit : Option Nat)
    (hbad : ∀ v, p.selectedInductionBad.eval v = !p.selectedInductionProperty.eval v)
    (hcover : p.SimplePathCoversCone k)
    (hproved : (proveByInductionStatus S s p solverType k limit).1 = .proved)
    (hbase : ∀ τ n, n < k → I.Run τ n → p.selectedInductionProperty.eval (τ n) = true) :
    ∀ τ n, I.Run τ n → p.selectedInductionProperty.eval (τ n) = true := by
  intro τ n
  -- on a shortest violating run the last `k` steps are a bad window
  induction n using Nat.strong_induction_on generalizing τ with
  | _ n ih =>
    intro hrun
    by_contra hviolated
    have hk : k ≤ n := by
      by_contra hlt
      exact hviolated (hbase τ n (by omega) hrun)
    obtain ⟨w, rfl⟩ : ∃ w, n = w + k := ⟨n - k, by omega⟩
    have hwindow : p.Window k fun f => τ (w + f) := by
      refine ⟨fun f hf => ?_, fun f hf => ?_, fun hc f hf => ?_, fun f hf => ?_, ?_⟩
      · exact I.domain τ (w + k) hrun.start hrun.path hrun.reset (w + f) (by omega)
      · exact hrun.path (w + f) (by omega)
      · exact hrun.reset hc (w + f) (by omega)
      · exact ih (w + f) (by omega) τ (hrun.take (by omega))
      · rw [hbad, Bool.not_eq_true', ← Bool.not_eq_true]
        exact hviolated
    obtain ⟨a, d, hd, _, had, hshort⟩ :=
      exists_shorter_bad (not_satisfiable_of_proved hproved) hcover hrun.path hwindow
    have hgood := ih (w + k - d) (by omega) _ (hrun.spliced had)
    rw [hbad, hgood] at hshort
    cases hshort

/-- A design bit (symbol 2) that holds its value beside a monitor bit (symbol 3)
that the property does not read. -/
def heldBitProblem : KInductionProblem where
  state0Symbols := [2]
  auxiliaryStateSymbols := [3]
  allSymbols := [2, 3]
  transitions0 := [(2, .var 2)]
  auxiliaryTransitions := [(3, .var 1)]
  property := .not (.var 2)
  bad := .var 2

def heldBitInitial : InitialStates heldBitProblem where
  start σ := lit σ 2 = false
  start_state σ υ h hs := by
    rw [h 2 (by decide)]
    exact hs
  domain τ n _ _ _ i _ := by
    refine ⟨fun pr hpr => ?_, fun pr hpr => ?_, fun r hr => ?_⟩
    · simp [complementedStatePairs, heldBitProblem] at hpr
    · simp [sameFrameStateEqualityPairs, heldBitProblem] at hpr
    · simp [heldBitProblem] at hr

theorem heldBitProblem_reads {d s : Nat}
    (h : heldBitProblem.ReadWithin heldBitProblem.inductionRoots d s) : s = 2 := by
  induction h with
  | root h =>
    rw [show heldBitProblem.inductionRoots = {2} by decide, Finset.mem_singleton] at h
    exact h
  | equal _ h => simp [sameFrameStateEqualityPairs, heldBitProblem] at h
  | transition _ ht hx ih =>
    subst ih
    rw [show heldBitProblem.transitionTarget 2 = {2} by decide, Finset.mem_singleton] at ht
    subst ht
    rw [show heldBitProblem.transitionSupport 2 = {2} by decide, Finset.mem_singleton] at hx
    exact hx

/-- The step at `k = 1` proves that the held bit stays cleared. -/
theorem proveByInductionStatus_sound_heldBit :
    (proveByInductionStatus exhaustiveSolver () heldBitProblem .kissat 1 none).1 = .proved ∧
    ∀ τ n, heldBitInitial.Run τ n →
      heldBitProblem.selectedInductionProperty.eval (τ n) = true := by
  have hproved : (proveByInductionStatus exhaustiveSolver () heldBitProblem .kissat 1 none).1 =
      .proved := by
    decide +kernel
  refine ⟨hproved, proveByInductionStatus_sound heldBitInitial exhaustiveSolver () .kissat 1 none
    (fun v => ?_) (.inr (.inr fun s hs hread => ?_)) hproved fun τ n hn hrun => ?_⟩
  · change lit v 2 = !(!lit v 2)
    rw [Bool.not_not]
  · obtain rfl := heldBitProblem_reads hread
    exact absurd hs (by decide)
  · obtain rfl : n = 0 := by omega
    have hclear : lit (τ 0) 2 = false := hrun.start
    change (!lit (τ 0) 2) = true
    rw [hclear]
    rfl

/-- A constant design bit (symbol 2) beside a monitor bit (symbol 3) that is set
after one step; the property asks that the monitor stays clear. -/
def monitorProblem : KInductionProblem where
  state0Symbols := [2]
  auxiliaryStateSymbols := [3]
  allSymbols := [2, 3]
  transitions0 := [(2, .var 2)]
  auxiliaryTransitions := [(3, .var 1)]
  property := .or (.not (.var 3)) (.var 2)
  bad := .and (.var 3) (.not (.var 2))

/-- Both bits start cleared. -/
def monitorInitial : InitialStates monitorProblem where
  start σ := lit σ 2 = false ∧ lit σ 3 = false
  start_state σ υ h hs := by
    rw [h 2 (by decide), h 3 (by decide)]
    exact hs
  domain τ n _ _ _ i _ := by
    refine ⟨fun pr hpr => ?_, fun pr hpr => ?_, fun r hr => ?_⟩
    · simp [complementedStatePairs, monitorProblem] at hpr
    · simp [sameFrameStateEqualityPairs, monitorProblem] at hpr
    · simp [monitorProblem] at hr

/-- The step at `k = 1` is answered `Proved` although the monitor bit, which the
pairwise difference leaves out, makes the property fail after one step. -/
theorem proveByInductionStatus_unsound :
    ¬ ∀ (p : KInductionProblem) (I : InitialStates p) (S : FrameSolver Unit) (k : Nat),
      (∀ v, p.selectedInductionBad.eval v = !p.selectedInductionProperty.eval v) →
      (proveByInductionStatus S () p .kissat k none).1 = .proved →
      (∀ τ n, n < k → I.Run τ n → p.selectedInductionProperty.eval (τ n) = true) →
      ∀ τ n, I.Run τ n → p.selectedInductionProperty.eval (τ n) = true := by
  intro hclaim
  let σ : Valuation := fun _ => false
  let τ : Trace := fun i => if i = 0 then σ else monitorProblem.successor σ σ
  have hrun : monitorInitial.Run τ 1 := by
    refine ⟨⟨rfl, rfl⟩, fun i hi => ?_, fun hc => absurd rfl hc⟩
    obtain rfl : i = 0 := by omega
    exact advance_successor σ σ
  have hbase : ∀ τ n, n < 1 → monitorInitial.Run τ n →
      monitorProblem.selectedInductionProperty.eval (τ n) = true := by
    intro τ n hn h
    obtain rfl : n = 0 := by omega
    have hclear : lit (τ 0) 3 = false := h.start.2
    change (!lit (τ 0) 3 || lit (τ 0) 2) = true
    rw [hclear]
    rfl
  have hcompl : ∀ v, monitorProblem.selectedInductionBad.eval v =
      !monitorProblem.selectedInductionProperty.eval v := by
    intro v
    change (lit v 3 && !lit v 2) = !(!lit v 3 || lit v 2)
    simp
  have hlast := hclaim monitorProblem monitorInitial exhaustiveSolver 1 hcompl
    (by decide +kernel) hbase τ 1 hrun
  exact absurd hlast (by decide)

end KInductionProblem
end KeplerFormal
