import KeplerFormal.L3Query.BaseCase

/-!
# Exactness of the base case cone

Does the cone-reduced base query have a model exactly when the full unrolling has a
bad run? A reduced model is extended to a full run: frame 0 keeps the values of the
solver symbols and fills in the rest, the later frames follow the transitions.

* `KeepsStartup`: what the reduction must not lose. No auxiliary state is read behind
  frame 0; the values of the solver symbols in frame 0 extend to all symbols; the
  bootstrap facts follow from those about the states required at the frontier.
* `extended_agrees`: the extended run carries the reduced model's values on every
  required state.
* `baseQuery_exact`: under `KeepsStartup` query and unrolling agree.
* `baseQuery_inexact`: a complement, an equality and a complement lead from the cone
  to an initialised symbol, the single pass over each kind of relation stops before
  it, and the query reports a bad frame that no run has.
-/
namespace KeplerFormal

open Core

namespace KInductionProblem
variable {p : KInductionProblem}

/-- The formulas of the query, as roots of the cone. -/
def baseRoots (p : KInductionProblem) (st : BaseStartup) : Finset Nat :=
  addFormulaSupport p.bad ∪ supportOf (p.startupFormulas st st.bootstrapFrames)

/-- Values of the symbols of `X` that keep the relations and the asserted initial
assignments among them extend to values of all symbols that keep all of them. -/
def StartupExtends (p : KInductionProblem) (facts : StartupFacts) (X : Finset Nat) : Prop :=
  ∀ σ, p.DomainValidOn X σ →
    (p.assertsInitialAssignments facts = true →
      ∀ a ∈ p.initialStateAssignments, a.1 ∈ X → lit σ a.1 = a.2) →
    ∃ ρ, (∀ s ∈ X, lit ρ s = lit σ s) ∧ p.DomainValid ρ ∧
      (p.assertsInitialAssignments facts = true →
        ∀ a ∈ p.initialStateAssignments, lit ρ a.1 = a.2)

/-- The asserted bootstrap assignments to symbols of `X` imply the others through the
relations. -/
def BootstrapExtends (p : KInductionProblem) (facts : StartupFacts) (X : Finset Nat) : Prop :=
  facts.frontierBootstrap = true → ∀ σ, p.DomainValid σ →
    (∀ a ∈ p.bootstrapStateAssignments, a.1 ∈ X → lit σ a.1 = a.2) →
    ∀ a ∈ p.bootstrapStateAssignments, lit σ a.1 = a.2

/-- What the reduction to the cone of a query must not lose. Frame 0 holds the values of all
symbols that are read there, whatever they are. -/
structure KeepsStartup (p : KInductionProblem) (facts : StartupFacts) (internalK first : Nat) :
    Prop where
  designStates : ∀ s ∈ p.auxiliaryStateSymbols, ∀ d < internalK,
    p.ReadWithin (p.baseRoots (p.queryStartup first)) d s → s ∈ p.state0Symbols ++ p.state1Symbols
  startup : p.StartupExtends facts
    (p.buildBaseCaseCoi (p.queryStartup first) internalK).solverSymbols
  bootstrap : p.BootstrapExtends facts
    (p.requiredStates (p.baseSeed (p.queryStartup first)) internalK p.resetBootstrapFrames)

/-! ## Supports -/

theorem mem_stateSupportOf {es : List BoolExpr} {s : Nat} :
    s ∈ p.stateSupportOf es ↔ ∃ e ∈ es, s ∈ p.addFormulaStateSupport e := by
  induction es with
  | nil => simp [stateSupportOf]
  | cons e es ih =>
    simp only [stateSupportOf, List.foldr_cons, Finset.mem_union, List.mem_cons] at ih ⊢
    rw [ih]
    simp

theorem mem_supportOf {es : List BoolExpr} {s : Nat} :
    s ∈ supportOf es ↔ ∃ e ∈ es, s ∈ addFormulaSupport e := by
  induction es with
  | nil => simp [supportOf]
  | cons e es ih =>
    simp only [supportOf, List.foldr_cons, Finset.mem_union, List.mem_cons] at ih ⊢
    rw [ih]
    simp

/-- Only frame 0 or the reset frontier has startup formulas. -/
theorem startupFormulas_subset {st : BaseStartup} {f : Nat} {e : BoolExpr}
    (h : e ∈ p.startupFormulas st f) : e ∈ p.startupFormulas st st.bootstrapFrames := by
  unfold startupFormulas at h ⊢
  by_cases hzero : st.bootstrapFrames = 0
  · simp only [hzero, if_true] at h ⊢
    split at h
    · exact h
    · simp at h
  · simp only [hzero, if_false, beq_self_eq_true, Bool.and_true] at h ⊢
    split at h
    · rename_i hobs
      rw [Bool.and_eq_true] at hobs
      rw [if_pos hobs.1]
      exact h
    · simp at h

theorem addFormulaStateSupport_subset (e : BoolExpr) :
    p.addFormulaStateSupport e ⊆ addFormulaSupport e := by
  intro s hs
  obtain ⟨hsupport, hstate⟩ := Finset.mem_filter.mp hs
  have hmem := List.mem_append_left p.auxiliaryStateSymbols (List.mem_toFinset.mp hstate)
  exact Finset.mem_filter.mpr ⟨hsupport, p.reserved s hmem⟩

theorem baseSeed_subset_roots (st : BaseStartup) (f : Nat) : p.baseSeed st f ⊆ p.baseRoots st := by
  intro s hs
  rcases Finset.mem_union.mp hs with hs | hs
  · split at hs
    · exact Finset.mem_union_left _ (addFormulaStateSupport_subset _ hs)
    · simp at hs
  · obtain ⟨e, he, hmem⟩ := mem_stateSupportOf.mp hs
    exact Finset.mem_union_right _
      (mem_supportOf.mpr ⟨e, startupFormulas_subset he, addFormulaStateSupport_subset _ hmem⟩)

/-- The symbols the query allocates. -/
def baseSolverSymbols (p : KInductionProblem) (internalK first : Nat) : Finset Nat :=
  (p.buildBaseCaseCoi (p.queryStartup first) internalK).solverSymbols

theorem roots_subset_baseSolverSymbols (internalK first : Nat) :
    p.baseRoots (p.queryStartup first) ⊆ p.baseSolverSymbols internalK first := by
  refine Finset.Subset.trans (fun s hs => ?_) (subset_addRelationPartners _)
  unfold baseConeSymbols
  simp only [baseRoots, Finset.mem_union] at hs ⊢
  rcases hs with hs | hs
  · exact .inl (.inl (.inr hs))
  · exact .inl (.inr hs)

theorem coneSymbols_subset_baseSolverSymbols (internalK first : Nat) :
    p.coneSymbols (p.baseSeed (p.queryStartup first)) internalK ⊆
      p.baseSolverSymbols internalK first :=
  Finset.subset_union_right.trans (subset_addRelationPartners _)

theorem resetInput_mem_baseSolverSymbols {internalK first : Nat} {r : Nat × Bool}
    (hr : r ∈ p.resetBootstrapInputs) : r.1 ∈ p.baseSolverSymbols internalK first := by
  refine subset_addRelationPartners _ ?_
  simp only [baseConeSymbols, Finset.mem_union, List.mem_toFinset]
  exact .inl (.inl (.inl (List.mem_map.mpr ⟨r, hr, rfl⟩)))

/-! ## Extending a reduced model -/

/-- Frame 0 is `ρ`; later frames follow the transitions and take free symbols from
the reduced model. -/
def extended (p : KInductionProblem) (τ : Trace) (ρ : Valuation) : Trace
  | 0 => ρ
  | f + 1 => p.successor (extended p τ ρ f) (τ (f + 1))

section Extend
variable {facts : StartupFacts} {internalK first : Nat} {τ : Trace} {ρ : Valuation}

/-- In a reduced model the required states follow their equations. -/
theorem reduced_advance (h : p.ReducedUnrolling facts internalK first τ) {f s : Nat}
    (hf : f < internalK)
    (hs : s ∈ p.requiredStates (p.baseSeed (p.queryStartup first)) internalK (f + 1)) :
    ∀ v, p.nextStateOf (τ f) s = some v → lit (τ (f + 1)) s = v := by
  intro v hv
  have htarget : ∀ t ∈ p.transitionTarget s,
      t ∈ p.transitionTargets (p.baseSeed (p.queryStartup first)) internalK f := fun t ht =>
    mem_expandTransitionTargets.mpr ⟨s, hs, ht⟩
  rcases nextStateOf_eq_some hv with ⟨e, he, rfl⟩ | ⟨a, e, hnone, hprimary, ha, rfl⟩
  · exact h.transitions f hf s (htarget s (transitionTarget_of_transition he)) e he
  · have hta := htarget a (transitionTarget_of_primary hnone hprimary ha)
    have hasolver : a ∈ p.baseSolverSymbols internalK first :=
      coneSymbols_subset_baseSolverSymbols _ _
        (targets_subset_coneSymbols hf (Finset.mem_union_left _ hta))
    have hssolver : s ∈ p.baseSolverSymbols internalK first :=
      coneSymbols_subset_baseSolverSymbols _ _ (requiredStates_subset_coneSymbols (by omega) hs)
    rw [(h.domain (f + 1) hf).complemented _ (mem_of_primaryByComplement hprimary) hasolver
      hssolver, h.transitions f hf a hta e ha]

/-- A state symbol that is read in the cone behind frame 0 is a required state. -/
theorem mem_requiredStates_of_support (hkeeps : p.KeepsStartup facts internalK first) {f x : Nat}
    (hpos : 0 < f) (hf : f < internalK) (hstate : x ∈ p.combinedStateSymbols)
    (hx : x ∈ p.collectSupportForTargets
      (p.transitionTargets (p.baseSeed (p.queryStartup first)) internalK f)) :
    x ∈ p.requiredStates (p.baseSeed (p.queryStartup first)) internalK f := by
  refine support_subset_requiredStates hf (Finset.mem_filter.mpr ⟨hx, ?_⟩)
  refine List.mem_toFinset.mpr ?_
  rcases List.mem_append.mp hstate with hdesign | haux
  · exact hdesign
  · refine hkeeps.designStates x haux (internalK - (f + 1) + 1) (by omega) ?_
    exact readWithin_support
      (requiredBack_readWithin (fun i _ => baseSeed_subset_roots (p.queryStartup first) i)
        (internalK - (f + 1))) hx

/-- The extended run carries the reduced model's values on the required states and
on the inputs the query allocates. -/
theorem extended_agrees (h : p.ReducedUnrolling facts internalK first τ)
    (hkeeps : p.KeepsStartup facts internalK first)
    (hρ : ∀ s ∈ p.baseSolverSymbols internalK first, lit ρ s = lit (τ 0) s) {f : Nat}
    (hf : f ≤ internalK) :
    (∀ s ∈ p.requiredStates (p.baseSeed (p.queryStartup first)) internalK f,
      lit (p.extended τ ρ f) s = lit (τ f) s) ∧
    ∀ s ∈ p.baseSolverSymbols internalK first, s ∉ p.combinedStateSymbols →
      lit (p.extended τ ρ f) s = lit (τ f) s := by
  induction f with
  | zero =>
    refine ⟨fun s hs => hρ s ?_, fun s hs _ => hρ s hs⟩
    exact coneSymbols_subset_baseSolverSymbols _ _ (requiredStates_subset_coneSymbols hf hs)
  | succ f ih =>
    obtain ⟨ihstate, ihinput⟩ := ih (by omega)
    refine ⟨fun s hs => ?_, fun s _ hinput => ?_⟩
    · refine lit_successor_congr (reduced_advance h hf hs) fun t ht x hx => ?_
      have hcollect : x ∈ p.collectSupportForTargets
          (p.transitionTargets (p.baseSeed (p.queryStartup first)) internalK f) :=
        mem_collectSupportForTargets.mpr ⟨t, mem_expandTransitionTargets.mpr ⟨s, hs, ht⟩, hx⟩
      have hsolver : x ∈ p.baseSolverSymbols internalK first :=
        coneSymbols_subset_baseSolverSymbols _ _
          (targets_subset_coneSymbols hf (Finset.mem_union_right _ hcollect))
      by_cases hstate : x ∈ p.combinedStateSymbols
      · rcases Nat.eq_zero_or_pos f with rfl | hpos
        · exact hρ x hsolver
        · exact ihstate x (mem_requiredStates_of_support hkeeps hpos hf hstate hcollect)
      · exact ihinput x hsolver hstate
    · refine lit_successor_of_none ?_
      cases hv : p.nextStateOf (p.extended τ ρ f) s with
      | none => rfl
      | some v => exact absurd (mem_combinedStateSymbols_of_nextStateOf hv) hinput

/-- A formula of the query keeps its value in a frame whose seed holds its states. -/
theorem eval_extended (h : p.ReducedUnrolling facts internalK first τ)
    (hkeeps : p.KeepsStartup facts internalK first)
    (hρ : ∀ s ∈ p.baseSolverSymbols internalK first, lit ρ s = lit (τ 0) s) {f : Nat}
    (hf : f ≤ internalK) {e : BoolExpr}
    (hroots : addFormulaSupport e ⊆ p.baseRoots (p.queryStartup first))
    (hseed : p.addFormulaStateSupport e ⊆ p.baseSeed (p.queryStartup first) f) :
    e.eval (p.extended τ ρ f) = e.eval (τ f) := by
  obtain ⟨hstates, hinputs⟩ := extended_agrees h hkeeps hρ hf
  refine BoolExpr.eval_congr_lit fun x hx h2 => ?_
  have hroot := hroots (Finset.mem_filter.mpr ⟨hx, h2⟩)
  rcases Nat.eq_zero_or_pos f with rfl | hpos
  · exact hρ x (roots_subset_baseSolverSymbols _ _ hroot)
  · by_cases hstate : x ∈ p.combinedStateSymbols
    · have hdesign : x ∈ p.state0Symbols ++ p.state1Symbols := by
        rcases List.mem_append.mp hstate with hdesign | haux
        · exact hdesign
        · exact hkeeps.designStates x haux 0 (by omega) (.root hroot)
      refine hstates x (seed_subset_requiredStates hf (hseed ?_))
      exact Finset.mem_filter.mpr ⟨hx, List.mem_toFinset.mpr hdesign⟩
    · exact hinputs x (roots_subset_baseSolverSymbols _ _ hroot) hstate

/-- A startup formula keeps its value in the frame it is asserted in. -/
theorem eval_extended_startup (h : p.ReducedUnrolling facts internalK first τ)
    (hkeeps : p.KeepsStartup facts internalK first)
    (hρ : ∀ s ∈ p.baseSolverSymbols internalK first, lit ρ s = lit (τ 0) s) {f : Nat}
    (hf : f ≤ internalK) {e : BoolExpr} (he : e ∈ p.startupFormulas (p.queryStartup first) f) :
    e.eval (p.extended τ ρ f) = e.eval (τ f) := by
  refine eval_extended h hkeeps hρ hf (fun s hs => ?_) (fun s hs => ?_)
  · exact Finset.mem_union_right _ (mem_supportOf.mpr ⟨e, startupFormulas_subset he, hs⟩)
  · exact Finset.mem_union_right _ (mem_stateSupportOf.mpr ⟨e, he, hs⟩)

theorem resetBootstrapFrames_eq_zero {mode : InitialConstraintMode}
    (h : p.baseStartup.initialMode = mode) (hmode : mode ≠ .none) :
    p.resetBootstrapFrames = 0 := by
  by_contra hne
  refine hmode ?_
  rw [← h]
  simp [baseStartup, hne]

theorem initialCondition_mem_startupFormulas {e : BoolExpr} (he : p.initialCondition = some e)
    (hmode : p.baseStartup.initialMode.assertsInitialFacts = true)
    (hstruct : p.hasStructuredInitialAssignments = false) :
    e ∈ p.startupFormulas (p.queryStartup first) 0 := by
  have hzero : p.resetBootstrapFrames = 0 := by
    cases hm : p.baseStartup.initialMode with
    | none => simp [hm, InitialConstraintMode.assertsInitialFacts] at hmode
    | observationOnly => simp [hm, InitialConstraintMode.assertsInitialFacts] at hmode
    | partialInit => exact resetBootstrapFrames_eq_zero hm (by decide)
    | completeInit => exact resetBootstrapFrames_eq_zero hm (by decide)
  simp [startupFormulas, hzero, hmode, hstruct, he]

theorem property_mem_startupFormulas
    (hmode : p.baseStartup.initialMode.assertsObservation = true) :
    p.property ∈ p.startupFormulas (p.queryStartup first) 0 := by
  have hzero : p.resetBootstrapFrames = 0 := by
    cases hm : p.baseStartup.initialMode with
    | none => simp [hm, InitialConstraintMode.assertsObservation] at hmode
    | completeInit => simp [hm, InitialConstraintMode.assertsObservation] at hmode
    | partialInit => exact resetBootstrapFrames_eq_zero hm (by decide)
    | observationOnly => exact resetBootstrapFrames_eq_zero hm (by decide)
  simp [startupFormulas, hzero, hmode]

theorem property_mem_frontierFormulas (hobs : p.baseStartup.observationFrontier = true) :
    p.property ∈ p.startupFormulas (p.queryStartup first) p.resetBootstrapFrames := by
  have hne : p.resetBootstrapFrames ≠ 0 := by
    intro hzero
    simp [baseStartup, hzero] at hobs
  simp [startupFormulas, hne, hobs]

/-- The extended run is a full unrolling. -/
theorem unrolling_extended (hpres : p.PreservesDomain)
    (hfrontier : p.resetBootstrapFrames ≤ internalK)
    (h : p.ReducedUnrolling facts internalK first τ)
    (hkeeps : p.KeepsStartup facts internalK first)
    (hρ : ∀ s ∈ p.baseSolverSymbols internalK first, lit ρ s = lit (τ 0) s)
    (hdomain : p.DomainValid ρ)
    (hinitial : p.assertsInitialAssignments facts = true →
      ∀ a ∈ p.initialStateAssignments, lit ρ a.1 = a.2) :
    p.Unrolling facts internalK (p.extended τ ρ) := by
  have hadvance : ∀ f, p.Advance (p.extended τ ρ f) (p.extended τ ρ (f + 1)) :=
    fun f => advance_successor _ _
  have hreset : ∀ f ≤ internalK, ∀ r ∈ p.resetBootstrapInputs,
      lit (p.extended τ ρ f) r.1 = lit (τ f) r.1 := fun f hf r hr =>
    (extended_agrees h hkeeps hρ hf).2 r.1 (resetInput_mem_baseSolverSymbols hr)
      (p.resets_input r.1 (List.mem_map.mpr ⟨r, hr, rfl⟩))
  have hvalid : ∀ f, p.DomainValid (p.extended τ ρ f) := by
    intro f
    induction f with
    | zero => exact hdomain
    | succ f ih => exact hpres _ _ ih (hadvance f)
  refine ⟨fun f _ => hvalid f, fun f _ t e he => (hadvance f).transition he, ⟨?_, ?_⟩,
    fun X => ⟨?_, ?_, ?_, ?_, ?_⟩⟩
  · intro f hf hlt r hr
    rw [hreset f hf r hr]
    exact h.reset.asserted f hf hlt r hr
  · intro hne f hf hge r hr
    rw [hreset f hf r hr]
    exact h.reset.deasserted hne f hf hge r hr
  · exact fun hasserts a ha _ => hinitial hasserts a ha
  · intro hmode hstruct e he
    rw [eval_extended_startup h hkeeps hρ (Nat.zero_le _)
      (initialCondition_mem_startupFormulas he hmode hstruct)]
    exact h.starts.initialCondition hmode hstruct e he
  · intro hmode
    rw [eval_extended_startup h hkeeps hρ (Nat.zero_le _) (property_mem_startupFormulas hmode)]
    exact h.starts.startObservation hmode
  · intro hobs
    rw [eval_extended_startup h hkeeps hρ hfrontier (property_mem_frontierFormulas hobs)]
    exact h.starts.frontierObservation hobs
  · intro hboot a ha _
    refine hkeeps.bootstrap hboot _ (hvalid _) (fun b hb hrequired => ?_) a ha
    have hsolver := coneSymbols_subset_baseSolverSymbols internalK first
      (requiredStates_subset_coneSymbols hfrontier hrequired)
    rw [(extended_agrees h hkeeps hρ hfrontier).1 b.1 hrequired]
    exact h.starts.bootstrapAssignments hboot b hb hsolver

end Extend

/-- The extension exists when some start meets every relation and every asserted
assignment, and each relation that leaves `X` does so at an assigned symbol. -/
theorem startupExtends_of_boundary {facts : StartupFacts} {X : Finset Nat} {ρ₀ : Valuation}
    (hdomain : p.DomainValid ρ₀)
    (hinitial : p.assertsInitialAssignments facts = true →
      ∀ a ∈ p.initialStateAssignments, lit ρ₀ a.1 = a.2)
    (hboundary : ∀ pr ∈ p.complementedStatePairs ++ p.sameFrameStateEqualityPairs ++ p.railPairs,
      ∀ s ∈ X, s = pr.1 ∧ pr.2 ∉ X ∨ s = pr.2 ∧ pr.1 ∉ X →
        p.assertsInitialAssignments facts = true ∧ ∃ v, (s, v) ∈ p.initialStateAssignments) :
    p.StartupExtends facts X := by
  intro σ hσ hassigned
  let ρ : Valuation := fun s => if s ∈ X then σ s else ρ₀ s
  have hin : ∀ s ∈ X, lit ρ s = lit σ s := by
    intro s hs
    rcases Nat.lt_or_ge s 2 with h2 | h2
    · exact lit_of_lt_two _ _ h2
    · rw [lit_of_two_le _ h2, lit_of_two_le _ h2]
      exact if_pos hs
  have hout : ∀ s ∉ X, lit ρ s = lit ρ₀ s := by
    intro s hs
    rcases Nat.lt_or_ge s 2 with h2 | h2
    · exact lit_of_lt_two _ _ h2
    · rw [lit_of_two_le _ h2, lit_of_two_le _ h2]
      exact if_neg hs
  have hvalue : ∀ a ∈ p.initialStateAssignments, p.assertsInitialAssignments facts = true →
      lit ρ a.1 = a.2 ∧ lit ρ₀ a.1 = a.2 := by
    intro a ha hasserts
    refine ⟨?_, hinitial hasserts a ha⟩
    by_cases hX : a.1 ∈ X
    · rw [hin a.1 hX, hassigned hasserts a ha hX]
    · rw [hout a.1 hX, hinitial hasserts a ha]
  -- a pair lies inside `X`, or the new values of both its ends are those of `ρ₀`
  have hpair : ∀ pr ∈ p.complementedStatePairs ++ p.sameFrameStateEqualityPairs ++ p.railPairs,
      (pr.1 ∈ X ∧ pr.2 ∈ X) ∨ (lit ρ pr.1 = lit ρ₀ pr.1 ∧ lit ρ pr.2 = lit ρ₀ pr.2) := by
    intro pr hpr
    by_cases h1 : pr.1 ∈ X <;> by_cases h2 : pr.2 ∈ X
    · exact .inl ⟨h1, h2⟩
    · obtain ⟨hasserts, v, hv⟩ := hboundary pr hpr pr.1 h1 (.inl ⟨rfl, h2⟩)
      obtain ⟨hnew, hold⟩ := hvalue _ hv hasserts
      exact .inr ⟨hnew.trans hold.symm, hout pr.2 h2⟩
    · obtain ⟨hasserts, v, hv⟩ := hboundary pr hpr pr.2 h2 (.inr ⟨rfl, h1⟩)
      obtain ⟨hnew, hold⟩ := hvalue _ hv hasserts
      exact .inr ⟨hout pr.1 h1, hnew.trans hold.symm⟩
    · exact .inr ⟨hout pr.1 h1, hout pr.2 h2⟩
  refine ⟨ρ, hin, ⟨fun pr hpr => ?_, fun pr hpr => ?_, fun r hr => ?_⟩,
    fun hasserts a ha => (hvalue a ha hasserts).1⟩
  · rcases hpair pr (List.mem_append_left _ (List.mem_append_left _ hpr)) with ⟨h1, h2⟩ | ⟨h1, h2⟩
    · rw [hin _ h1, hin _ h2]
      exact hσ.complemented pr hpr h1 h2
    · rw [h1, h2]
      exact hdomain.complemented pr hpr
  · rcases hpair pr (List.mem_append_left _ (List.mem_append_right _ hpr)) with ⟨h1, h2⟩ | ⟨h1, h2⟩
    · rw [hin _ h1, hin _ h2]
      exact hσ.equal pr hpr h1 h2
    · rw [h1, h2]
      exact hdomain.equal pr hpr
  · have hmem : (r.mayBeOne, r.mayBeZero) ∈ p.railPairs := List.mem_map.mpr ⟨r, hr, rfl⟩
    rcases hpair _ (List.mem_append_right _ hmem) with ⟨h1, h2⟩ | ⟨h1, h2⟩
    · rw [hin _ h1, hin _ h2]
      exact hσ.rails _ hmem h1 h2
    · rw [h1, h2]
      exact hdomain.rails r hr

/-- The requested bad frames lie within the unrolling. -/
theorem last_le_of_badFrames {k first last : Nat} {exact : Option Nat}
    (h : p.badFrames k exact = some (first, last)) : last ≤ k + p.resetBootstrapFrames := by
  cases exact with
  | none =>
    simp only [badFrames, Option.ite_none_left_eq_some, Option.some.injEq, Prod.mk.injEq] at h
    rw [baseStartup_bootstrapFrames] at h
    omega
  | some frame =>
    simp only [badFrames, Option.ite_none_left_eq_some, Option.some.injEq, Prod.mk.injEq] at h
    rw [baseStartup_bootstrapFrames] at h
    omega

/-- A full unrolling of `internalK` steps with a bad frame among `first .. last`. -/
def BadRun (p : KInductionProblem) (facts : StartupFacts) (internalK first last : Nat) : Prop :=
  ∃ τ, p.Unrolling facts internalK τ ∧ ∃ f, first ≤ f ∧ f ≤ last ∧ p.bad.eval (τ f) = true

theorem satisfiable_of_badRun {facts : StartupFacts} {internalK first last : Nat}
    (h : p.BadRun facts internalK first last) :
    Satisfiable evalAtom (p.baseQuery facts internalK first last) := by
  obtain ⟨τ, hτ, hbad⟩ := h
  exact ⟨τ, evalQuery_baseQuery.mpr ⟨hτ.on _ _, hbad⟩⟩

/-- A bad frame of a reduced model is bad in some full unrolling. -/
theorem ReducedUnrolling.exists_bad {facts : StartupFacts} {internalK first f : Nat} {τ : Trace}
    (h : p.ReducedUnrolling facts internalK first τ) (hpres : p.PreservesDomain)
    (hkeeps : p.KeepsStartup facts internalK first)
    (hfrontier : p.resetBootstrapFrames ≤ internalK) (hfirst : first ≤ f) (hf : f ≤ internalK)
    (hbad : p.bad.eval (τ f) = true) :
    ∃ υ, p.Unrolling facts internalK υ ∧ p.bad.eval (υ f) = true := by
  obtain ⟨ρ, hρ, hdomain, hinitial⟩ :=
    hkeeps.startup (τ 0) (h.domain 0 (Nat.zero_le _)) h.starts.initialAssignments
  refine ⟨p.extended τ ρ, unrolling_extended hpres hfrontier h hkeeps hρ hdomain hinitial, ?_⟩
  rw [eval_extended h hkeeps hρ hf Finset.subset_union_left fun s hs => ?_]
  · exact hbad
  · have hseeded : (p.queryStartup first).firstBadFrame ≤ f := hfirst
    exact Finset.mem_union_left _ (by rw [if_pos hseeded]; exact hs)

theorem badRun_of_satisfiable {facts : StartupFacts} {internalK first last : Nat}
    (hpres : p.PreservesDomain) (hkeeps : p.KeepsStartup facts internalK first)
    (hfrontier : p.resetBootstrapFrames ≤ internalK) (hlast : last ≤ internalK)
    (h : Satisfiable evalAtom (p.baseQuery facts internalK first last)) :
    p.BadRun facts internalK first last := by
  obtain ⟨τ, hτ⟩ := h
  obtain ⟨hreduced, f, hfirst, hflast, hbad⟩ := evalQuery_baseQuery.mp hτ
  obtain ⟨υ, hυ, hbad'⟩ := ReducedUnrolling.exists_bad hreduced hpres hkeeps hfrontier hfirst
    (hflast.trans hlast) hbad
  exact ⟨υ, hυ, f, hfirst, hflast, hbad'⟩

/-- Under `KeepsStartup` the cone-reduced query has a model exactly when the full
unrolling has a bad run. -/
theorem baseQuery_exact (p : KInductionProblem) (k : Nat) (exact : Option Nat) {first last : Nat}
    (hpres : p.PreservesDomain) (hframes : p.badFrames k exact = some (first, last))
    (hkeeps : p.KeepsStartup p.plainFacts (k + p.resetBootstrapFrames) first) :
    Satisfiable evalAtom (p.baseQuery p.plainFacts (k + p.resetBootstrapFrames) first last) ↔
      p.BadRun p.plainFacts (k + p.resetBootstrapFrames) first last := by
  have hlast := last_le_of_badFrames hframes
  exact ⟨badRun_of_satisfiable hpres hkeeps (Nat.le_add_left _ _) hlast, satisfiable_of_badRun⟩

/-- A bit with its complement follows bit 7, which follows the monitor bit 10 and the input 6;
the bits 8 and 9 toggle on their own. -/
def delayedLatchProblem : KInductionProblem where
  initialStateAssignments := [(2, false), (3, true), (7, false), (8, true), (9, false)]
  state0Symbols := [2, 3, 7, 8, 9]
  auxiliaryStateSymbols := [10]
  allSymbols := [2, 3, 6, 7, 8, 9, 10]
  complementedStatePairs0 := [(2, 3), (8, 9)]
  transitions0 := [(2, .var 7), (7, .and (.var 10) (.var 6)), (8, .not (.var 8)), (10, .var 10)]
  initializedStateCount := 5
  totalStateCount := 5
  property := .not (.var 2)
  bad := .var 2

theorem delayedLatchProblem_preservesDomain : delayedLatchProblem.PreservesDomain := by
  intro σ σ' _ hadv
  refine ⟨fun pr hpr => ?_, fun pr hpr => ?_, fun r hr => ?_⟩
  · have hpairs : pr = (2, 3) ∨ pr = (8, 9) := by
      simpa [complementedStatePairs, delayedLatchProblem] using hpr
    rcases hpairs with rfl | rfl
    · rw [hadv 2 (lit σ 7) rfl, hadv 3 (!lit σ 7) rfl]
    · rw [hadv 8 (!lit σ 8) rfl, hadv 9 (!!lit σ 8) rfl]
  · simp [sameFrameStateEqualityPairs, delayedLatchProblem] at hpr
  · simp [delayedLatchProblem] at hr

/-- The cone at depth 2 leaves out the toggling bits. -/
theorem delayedLatchProblem_cone :
    delayedLatchProblem.baseRoots (delayedLatchProblem.queryStartup 2) = {2} ∧
    (delayedLatchProblem.buildBaseCaseCoi (delayedLatchProblem.queryStartup 2) 2).solverSymbols =
      {2, 3, 6, 7, 10} := by
  decide +kernel

/-- One transition away from the bad formula only bit 7 is read. -/
theorem delayedLatchProblem_readWithin {d s : Nat} (hd : d < 2)
    (h : delayedLatchProblem.ReadWithin {2} d s) : s = 2 ∨ s = 7 ∧ d = 1 := by
  induction h with
  | root h => exact .inl (Finset.mem_singleton.mp h)
  | equal _ hpair => simp [sameFrameStateEqualityPairs, delayedLatchProblem] at hpair
  | transition _ ht hx ih =>
    obtain rfl : _ = 2 := (ih (by omega)).resolve_right (by omega)
    have htarget : delayedLatchProblem.transitionTarget 2 = {2} := by decide
    rw [htarget, Finset.mem_singleton] at ht
    subst ht
    have hsupport : delayedLatchProblem.transitionSupport 2 = {7} := by decide
    rw [hsupport, Finset.mem_singleton] at hx
    exact .inr ⟨hx, by omega⟩

/-- The frontier query of depth 2 is exact: the monitor bit is read in frame 0 only, and the
start of the toggling bits can be added. -/
theorem baseQuery_exact_delayedLatch :
    Satisfiable evalAtom (delayedLatchProblem.baseQuery delayedLatchProblem.plainFacts 2 2 2) ↔
      delayedLatchProblem.BadRun delayedLatchProblem.plainFacts 2 2 2 := by
  obtain ⟨hroots, hsymbols⟩ := delayedLatchProblem_cone
  have hstart : delayedLatchProblem.DomainValid fun s => s == 3 || s == 8 := by
    refine ⟨by decide, fun pr hpr => ?_, fun r hr => ?_⟩
    · simp [sameFrameStateEqualityPairs, delayedLatchProblem] at hpr
    · simp [delayedLatchProblem] at hr
  have hstartup : delayedLatchProblem.StartupExtends delayedLatchProblem.plainFacts
      (delayedLatchProblem.buildBaseCaseCoi (delayedLatchProblem.queryStartup 2)
        2).solverSymbols := by
    rw [hsymbols]
    exact startupExtends_of_boundary hstart (fun _ => by decide) (by decide)
  refine baseQuery_exact delayedLatchProblem 2 (some 2) delayedLatchProblem_preservesDomain
    (by decide) ⟨fun s hs d hd hread => ?_, hstartup, fun h => absurd h (by decide)⟩
  obtain rfl : s = 10 := by simpa [delayedLatchProblem] using hs
  rw [hroots] at hread
  have hread' := delayedLatchProblem_readWithin hd hread
  omega

/-- Symbols 2 to 5 are linked by a complement, an equality and a complement; only
symbol 5 is initialised, and the bad formula reads symbol 2 and the input 6. -/
def chainProblem : KInductionProblem where
  initialStateAssignments := [(5, false)]
  state0Symbols := [2, 3, 4, 5]
  allSymbols := [2, 3, 4, 5, 6]
  complementedStatePairs0 := [(2, 3), (4, 5)]
  sameFrameStateEqualityPairs0 := [(3, 4)]
  transitions0 := [(2, .var 2), (4, .var 4)]
  initialCondition := some (.not (.var 5))
  initializedStateCount := 1
  totalStateCount := 4
  property := .not (.and (.var 6) (.var 2))
  bad := .and (.var 6) (.var 2)

theorem chainProblem_preservesDomain : chainProblem.PreservesDomain := by
  intro σ σ' hσ hadv
  have h2 := hadv 2 (lit σ 2) rfl
  have h3 := hadv 3 (!lit σ 2) rfl
  have h4 := hadv 4 (lit σ 4) rfl
  have h5 := hadv 5 (!lit σ 4) rfl
  refine ⟨fun pr hpr => ?_, fun pr hpr => ?_, fun r hr => ?_⟩
  · have hpairs : pr = (2, 3) ∨ pr = (4, 5) := by
      simpa [complementedStatePairs, chainProblem] using hpr
    rcases hpairs with rfl | rfl
    · rw [h2, h3]
    · rw [h4, h5]
  · obtain rfl : pr = (3, 4) := by simpa [sameFrameStateEqualityPairs, chainProblem] using hpr
    have hcompl : lit σ 3 = !lit σ 2 := hσ.complemented (2, 3) (by decide)
    have hequal : lit σ 3 = lit σ 4 := hσ.equal (3, 4) (by decide)
    rw [h3, h4, ← hcompl, hequal]
  · simp [chainProblem] at hr

/-- Symbol 5 forces symbol 2 to stay cleared in every run. -/
theorem chainProblem_safe {τ : Trace} (hτ : chainProblem.Unrolling chainProblem.plainFacts 1 τ) :
    chainProblem.bad.eval (τ 1) = false := by
  have hinit : lit (τ 0) 5 = false :=
    (hτ.starts {5}).initialAssignments (by decide) (5, false) (by decide) (by decide)
  have h0 := hτ.domain 0 (Nat.zero_le _)
  have h45 : lit (τ 0) 5 = !lit (τ 0) 4 := h0.complemented (4, 5) (by decide)
  have h34 : lit (τ 0) 3 = lit (τ 0) 4 := h0.equal (3, 4) (by decide)
  have h23 : lit (τ 0) 3 = !lit (τ 0) 2 := h0.complemented (2, 3) (by decide)
  have hhold : lit (τ 1) 2 = lit (τ 0) 2 := hτ.transitions 0 (by decide) 2 (.var 2) rfl
  have h4 : lit (τ 0) 4 = true := by
    rw [hinit] at h45
    simpa using h45.symm
  have h2 : lit (τ 0) 2 = false := by
    rw [h34, h4] at h23
    simpa using h23.symm
  show (lit (τ 1) 6 && lit (τ 1) 2) = false
  rw [hhold, h2, Bool.and_false]

/-- The reduced query finds a bad frame 1 although no run has one. -/
theorem baseQuery_inexact :
    ¬ ∀ (p : KInductionProblem) (k first last : Nat), p.PreservesDomain →
      p.badFrames k none = some (first, last) →
      (Satisfiable evalAtom (p.baseQuery p.plainFacts (k + p.resetBootstrapFrames) first last) ↔
        p.BadRun p.plainFacts (k + p.resetBootstrapFrames) first last) := by
  intro hclaim
  have hmodel : Satisfiable evalAtom
      (chainProblem.baseQuery chainProblem.plainFacts 1 1 1) :=
    ⟨fun f s => s == 2 || (f == 1 && s == 6), by decide +kernel⟩
  obtain ⟨τ, hτ, f, hfirst, hlast, hbad⟩ :=
    (hclaim chainProblem 1 1 1 chainProblem_preservesDomain (by decide)).mp hmodel
  obtain rfl : f = 1 := by omega
  rw [chainProblem_safe hτ] at hbad
  cases hbad

end KInductionProblem
end KeplerFormal
