import KeplerFormal.L3Query.CraigQuery

/-!
# Real frames are models of the Craig queries

A trace gives every variable of a query its value: a frame's leaves and the private
leaves of its encoders show the frame, a region copy takes the auxiliary values that
put the frame in the region.

* `Sees`, `traceModel`: a leaf map that shows one frame, and the model of a trace.
* `FrameFacts`: what the queries may assume of a frame after the bootstrap.
* `SourceHolds`, `SourceDenotes`: the states a source constraint allows, for the plain
  and the direct encoding.
* `exists_imageA`, `exists_imageB`, `exists_boundedA`: the sides of the two
  interpolation queries, whatever the plan leaves out.
* `contained_sound`, `excludesBad_sound`: what the two plain queries prove.
-/
namespace KeplerFormal

open Core

/-- The leaf map shows the values of the frame. -/
def Sees (m : CraigModel) (scope : LeafScope) (σ : Valuation) : Prop :=
  ∀ s, m (scope.leaf s) = lit σ s

section Sees
variable {m : CraigModel} {scope : LeafScope} {σ σ' : Valuation} {p : KInductionProblem}

theorem Sees.eval_leafLit (h : Sees m scope σ) (s : Nat) :
    evalLit (evalCraigAtom m) (leafLit scope s) = lit σ s := by
  rw [leafLit, evalLit_mk_true]
  exact h s

theorem Sees.eval_assignmentLit (h : Sees m scope σ) (a : Nat × Bool) :
    evalLit (evalCraigAtom m) (assignmentLit scope a) = (lit σ a.1 == a.2) := by
  rw [← h a.1]
  rfl

theorem Sees.eval_formulaLit (h : Sees m scope σ) (e : BoolExpr) :
    evalLit (evalCraigAtom m) (formulaLit scope e) = e.eval σ := by
  rw [formulaLit, evalLit_mk_true, ← BoolExpr.eval_lit e σ]
  exact congrArg e.eval (funext h)

theorem Sees.pairEqualities (h : Sees m scope σ) {pairs : List (Nat × Nat)} {complemented : Bool}
    (hpairs : ∀ pr ∈ pairs, lit σ pr.2 = (lit σ pr.1 ^^ complemented)) (leaves : List Nat) :
    evalQuery (evalCraigAtom m) (addPairEqualities scope leaves pairs complemented) = true := by
  rw [addPairEqualities, evalQuery_flatMap]
  intro pr hpr
  split
  · rw [eval_litEquivalence, h.eval_leafLit, hpairs pr hpr]
    cases complemented with
    | true => simp [h.eval_leafLit]
    | false => simp [h.eval_leafLit]
  · rfl

theorem Sees.stateSemantics (h : Sees m scope σ) (hσ : p.DomainValid σ) (leaves : List Nat) :
    evalQuery (evalCraigAtom m) (addStateSemantics p scope leaves) = true := by
  have hcomplements : evalQuery (evalCraigAtom m)
      (addPairEqualities scope leaves p.complementedStatePairs true) = true :=
    h.pairEqualities (fun pr hpr => (hσ.complemented pr hpr).trans (Bool.xor_true _).symm) leaves
  have hequalities : evalQuery (evalCraigAtom m)
      (addPairEqualities scope leaves p.sameFrameStateEqualityPairs false) = true :=
    h.pairEqualities (fun pr hpr => (hσ.equal pr hpr).symm.trans (Bool.xor_false _).symm) leaves
  rw [addStateSemantics, evalQuery_append, evalQuery_append, hcomplements, hequalities,
    Bool.true_and, Bool.true_and, evalQuery_flatMap]
  intro r hr
  split
  · rw [evalQuery_cons, evalQuery_nil, Bool.and_true, evalClause_pair, h.eval_leafLit,
      h.eval_leafLit]
    exact hσ.rails r hr
  · rfl

theorem Sees.stateAssignments (h : Sees m scope σ) {assignments : List (Nat × Bool)}
    (ha : ConstantsHold assignments σ) (leaves : List Nat) :
    evalQuery (evalCraigAtom m) (addStateAssignments scope leaves assignments) = true := by
  rw [addStateAssignments, evalQuery_map]
  intro a hmem
  rw [evalClause_singleton, h.eval_assignmentLit, ha a (List.mem_of_mem_filter hmem), beq_self_eq_true]

theorem Sees.auxiliaryInvariants (h : Sees m scope σ) {X : AuxiliaryStateInvariants}
    (hX : X.Hold σ) (leaves : List Nat) :
    evalQuery (evalCraigAtom m) (addAuxiliaryStateInvariants scope leaves X) = true := by
  rw [addAuxiliaryStateInvariants, evalQuery_append, h.stateAssignments hX.constants,
    h.pairEqualities fun pr hpr => (hX.equalities pr hpr).symm.trans (Bool.xor_false _).symm,
    Bool.and_true]

theorem Sees.resetInputs (h : Sees m scope σ) {asserted : Bool}
    (hreset : ∀ r ∈ p.resetBootstrapInputs, lit σ r.1 = if asserted then r.2 else !r.2) :
    evalQuery (evalCraigAtom m) (addResetInputValue p scope asserted) = true := by
  rw [addResetInputValue, evalQuery_map]
  intro r hr
  rw [evalClause_singleton, h.eval_assignmentLit, hreset r hr, beq_self_eq_true]

theorem Sees.transitionEquations {frame : Nat} (h : Sees m scope σ)
    (hnext : Sees m (.frame (frame + 1)) σ') (hadvance : p.Advance σ σ')
    {constants : List (Nat × Bool)} (hconstants : ConstantsHold constants σ)
    (targets : List Nat) :
    evalQuery (evalCraigAtom m) (addTransitionEquations p scope frame constants targets) = true := by
  rw [addTransitionEquations, evalQuery_flatMap]
  intro t _
  cases he : p.transitionAt t with
  | none => rfl
  | some e =>
    simp only []
    rw [eval_litEquivalence, hnext.eval_leafLit, h.eval_formulaLit,
      BoolExpr.eval_assign hconstants, hadvance.transition he, beq_self_eq_true]

end Sees

/-! ## The model of a trace -/

/-- Frame leaves from the trace, private leaves from `υ`. -/
def traceModel (τ : Trace) (υ : LeafKind → Trace) (copies : RegionCopy → Nat → Bool) : CraigModel
  | .state k s => lit (τ k) s
  | .leaf kind k s => lit (υ kind k) s
  | .auxiliary c i => copies c i

section TraceModel
variable {τ : Trace} {υ : LeafKind → Trace} {copies : RegionCopy → Nat → Bool}

theorem sees_frame (k : Nat) : Sees (traceModel τ υ copies) (.frame k) (τ k) := fun _ => rfl

theorem sees_encoder {kind : LeafKind} {k : Nat} {shared : List Nat}
    (h : ∀ s ∈ shared, lit (υ kind k) s = lit (τ k) s) :
    Sees (traceModel τ υ copies) (.encoder kind k shared) (υ kind k) := by
  intro s
  by_cases hs : s ∈ shared
  · rw [LeafScope.leaf, if_pos hs]
    exact (h s hs).symm
  · rw [LeafScope.leaf, if_neg hs]
    rfl

theorem sees_encoder_trace (kind : LeafKind) (k : Nat) (shared : List Nat) :
    Sees (traceModel τ (fun _ => τ) copies) (.encoder kind k shared) (τ k) :=
  sees_encoder fun _ _ => rfl

end TraceModel

/-! ## The image query -/

/-- What holds in every frame after the bootstrap. -/
structure FrameFacts (p : KInductionProblem) (helpers : List InterpolantRegion)
    (X : AuxiliaryStateInvariants) (σ : Valuation) : Prop where
  domain : p.DomainValid σ
  auxiliary : X.Hold σ
  released : p.ResetDeasserted σ
  helpers : helpers = [] ∨ UnionHolds helpers (lit σ)

section Image
variable {p : KInductionProblem} {tracked : List Nat} {helpers : List InterpolantRegion}
  {X : AuxiliaryStateInvariants}

theorem FrameFacts.encodedConstants {σ : Valuation} (h : FrameFacts p helpers X σ) :
    ConstantsHold (transitionConstantAssignmentsForEncoding p X) σ := by
  intro c hc
  rcases List.mem_append.mp hc with hc | hc
  · obtain ⟨r, hr, rfl⟩ := List.mem_map.mp (List.mem_reverse.mp hc)
    exact h.released r hr
  · exact h.auxiliary.constants c hc

theorem eval_projectedTransition {m : CraigModel} {frame : Nat} {σ σ' : Valuation}
    (hscope : Sees m (.encoder .transition frame tracked) σ)
    (hnext : Sees m (.frame (frame + 1)) σ') (h : FrameFacts p helpers X σ)
    (hadvance : p.Advance σ σ') (plan : ProjectedTransitionFrame) :
    evalQuery (evalCraigAtom m) (addProjectedTransition p tracked X frame plan) = true := by
  have hsemantics : evalQuery (evalCraigAtom m) (if plan.localSemantics then
      addStateSemantics p (.encoder .transition frame tracked) plan.leaves else []) = true := by
    split
    · exact hscope.stateSemantics h.domain _
    · rfl
  simp only [addProjectedTransition, evalQuery_append, Bool.and_eq_true]
  exact ⟨⟨⟨hscope.transitionEquations hnext hadvance h.encodedConstants _,
    hscope.resetInputs h.released⟩, hsemantics⟩, hscope.auxiliaryInvariants h.auxiliary _⟩

/-- The auxiliary values of the helper copies of one frame. -/
theorem FrameFacts.helperCopies {σ : Valuation} (h : FrameFacts p helpers X σ) :
    ∃ a : Nat → Nat → Bool, ∀ (m : CraigModel) (copy : Nat → RegionCopy) (frame : Nat),
      m.state frame = lit σ → (∀ i, m.copy (copy i) = a i) →
      evalQuery (evalCraigAtom m) (regionUnionConstraint copy frame helpers) = true := by
  rcases h.helpers with hnil | ⟨a, hdefs, hroot⟩
  · refine ⟨fun _ _ => false, fun m copy frame _ _ => ?_⟩
    rw [regionUnionConstraint, if_pos hnil]
    rfl
  · refine ⟨a, fun m copy frame hstate hcopy => ?_⟩
    by_cases hnil : helpers = []
    · rw [regionUnionConstraint, if_pos hnil]
      rfl
    · rw [evalQuery_regionUnionConstraint m copy frame hnil, hstate]
      simp only [hcopy]
      exact ⟨hdefs, hroot⟩

/-- The auxiliary values of helpers, reachable regions and a candidate. -/
def queryCopies (helpers : Nat → Nat → Nat → Bool) (regions : Nat → Nat → Bool)
    (candidate : Nat → Bool) : RegionCopy → Nat → Bool
  | .helper k i => helpers k i
  | .reachable i => regions i
  | .candidate => candidate

/-- What a source constraint says of the frame-0 state: some auxiliary values satisfy
its clauses. -/
def SourceHolds (source : CraigQuery) (σ : Nat → Bool) : Prop :=
  ∃ a : Nat → Nat → Bool, ∀ m : CraigModel, m.state 0 = σ →
    (∀ i, m.copy (.reachable i) = a i) → evalQuery (evalCraigAtom m) source = true

theorem sourceHolds_regionSource {regions : List InterpolantRegion} {σ : Nat → Bool}
    (h : UnionHolds regions σ) : SourceHolds (regionSource regions) σ := by
  obtain ⟨a, hdefs, hroot⟩ := h
  refine ⟨a, fun m hstate hcopy => ?_⟩
  have hne : regions ≠ [] := by
    rintro rfl
    obtain ⟨i, r, hi, _⟩ := hroot
    simp at hi
  have heval := (evalQuery_regionUnionConstraint m .reachable 0 hne).mpr
    ⟨by simpa only [hstate, hcopy] using hdefs, by simpa only [hstate, hcopy] using hroot⟩
  rwa [regionUnionConstraint, if_neg hne] at heval

/-- The cube of the direct source: every assignment to a tracked state. -/
def InCube (p : KInductionProblem) (tracked : List Nat) (σ : Nat → Bool) : Prop :=
  ∀ a ∈ p.bootstrapStateAssignments, a.1 ∈ tracked → σ a.1 = a.2

theorem evalQuery_directSource (m : CraigModel) (regions : List InterpolantRegion) :
    evalQuery (evalCraigAtom m) (directSource p tracked regions) = true ↔
      (∀ i r, regions.tail[i]? = some r →
        evalQuery (InterpolantRegion.values (m.state 0) (m.copy (.reachable (1 + i))))
          r.encoding.1 = true) ∧
      (InCube p tracked (m.state 0) ∨ ∃ i r, regions.tail[i]? = some r ∧
        evalLit (InterpolantRegion.values (m.state 0) (m.copy (.reachable (1 + i))))
          r.encoding.2 = true) := by
  rw [directSource, evalQuery_append, Bool.and_eq_true, evalQuery_instantiateRegions,
    addConcreteCubeOrRegionRoots, evalQuery_map]
  refine and_congr_right fun _ => ?_
  have hroots : (∃ l ∈ (instantiateRegions .reachable 0 1 regions.tail).2,
      evalLit (evalCraigAtom m) l = true) ↔ ∃ i r, regions.tail[i]? = some r ∧
        evalLit (InterpolantRegion.values (m.state 0) (m.copy (.reachable (1 + i))))
          r.encoding.2 = true := by
    constructor
    · rintro ⟨l, hl, hval⟩
      obtain ⟨i, r, hi, rfl⟩ := mem_instantiateRegions.mp hl
      exact ⟨i, r, hi, by rwa [evalLit_instantiateRegion] at hval⟩
    · rintro ⟨i, r, hi, hval⟩
      exact ⟨_, mem_instantiateRegions.mpr ⟨i, r, hi, rfl⟩, by rwa [evalLit_instantiateRegion]⟩
  rw [← hroots]
  have hclause : ∀ a : Nat × Bool, evalClause (evalCraigAtom m)
      ((instantiateRegions .reachable 0 1 regions.tail).2 ++ [assignmentLit (.frame 0) a]) = true ↔
      (∃ l ∈ (instantiateRegions .reachable 0 1 regions.tail).2,
        evalLit (evalCraigAtom m) l = true) ∨ m.state 0 a.1 = a.2 := by
    intro a
    rw [evalClause_iff]
    simp only [List.mem_append, List.mem_singleton, or_and_right, exists_or, exists_eq_left]
    refine or_congr_right ?_
    simp only [assignmentLit, evalLit, evalCraigAtom, beq_iff_eq]
    exact Iff.rfl
  simp only [List.mem_filter, List.contains_iff_mem, hclause]
  by_cases hroot : ∃ l ∈ (instantiateRegions .reachable 0 1 regions.tail).2,
      evalLit (evalCraigAtom m) l = true
  · exact iff_of_true (fun _ _ => .inl hroot) (.inr hroot)
  · constructor
    · exact fun h => .inl fun a ha htracked => (h a ⟨ha, htracked⟩).resolve_left hroot
    · rintro (h | h)
      · exact fun a ha => .inr (h a ha.1 ha.2)
      · exact absurd h hroot

theorem sourceHolds_directSource {regions : List InterpolantRegion} {σ : Nat → Bool}
    (htotal : ∀ r ∈ regions.tail, r.Total)
    (h : InCube p tracked σ ∨ ∃ r ∈ regions.tail, r.Holds σ) :
    SourceHolds (directSource p tracked regions) σ := by
  obtain ⟨a, hdefs, hroot⟩ : ∃ a : Nat → Nat → Bool,
      (∀ i r, regions.tail[i]? = some r →
        evalQuery (InterpolantRegion.values σ (a i)) r.encoding.1 = true) ∧
      (InCube p tracked σ ∨ ∃ i r, regions.tail[i]? = some r ∧
        evalLit (InterpolantRegion.values σ (a i)) r.encoding.2 = true) := by
    rcases h with hcube | ⟨r, hr, hholds⟩
    · obtain ⟨a, ha⟩ := exists_definitions htotal σ
      exact ⟨a, ha, .inl hcube⟩
    · obtain ⟨a, hdefs, hroot⟩ := unionHolds_of_holds htotal hr hholds
      exact ⟨a, hdefs, .inr hroot⟩
  refine ⟨fun i => a (i - 1), fun m hstate hcopy => (evalQuery_directSource m regions).mpr ?_⟩
  simp only [hstate, hcopy, Nat.add_sub_cancel_left]
  exact ⟨hdefs, hroot⟩

/-- The states a source constraint leaves possible. -/
def SourceDenotes (source : CraigQuery) (σ : Nat → Bool) : Prop :=
  ∃ m : CraigModel, m.state 0 = σ ∧ evalQuery (evalCraigAtom m) source = true

def sourceModel (σ : Nat → Bool) (regions : Nat → Nat → Bool) : CraigModel
  | .state _ s => σ s
  | .auxiliary copy j => queryCopies (fun _ _ _ => false) regions (fun _ => false) copy j
  | .leaf _ _ _ => false

theorem SourceHolds.denotes {source : CraigQuery} {σ : Nat → Bool} (h : SourceHolds source σ) :
    SourceDenotes source σ := by
  obtain ⟨a, ha⟩ := h
  exact ⟨sourceModel σ a, rfl, ha _ rfl fun _ => rfl⟩

theorem sourceDenotes_regionSource {regions : List InterpolantRegion}
    (htotal : ∀ r ∈ regions, r.Total) (hne : regions ≠ []) (σ : Nat → Bool) :
    SourceDenotes (regionSource regions) σ ↔ ∃ r ∈ regions, r.Holds σ := by
  constructor
  · rintro ⟨m, rfl, hm⟩
    have hunion : evalQuery (evalCraigAtom m) (regionUnionConstraint .reachable 0 regions) = true := by
      rwa [regionUnionConstraint, if_neg hne]
    obtain ⟨hdefs, i, r, hi, hroot⟩ := (evalQuery_regionUnionConstraint m .reachable 0 hne).mp hunion
    exact ⟨r, List.mem_of_getElem? hi, _, hdefs i r hi, hroot⟩
  · rintro ⟨r, hr, hholds⟩
    exact (sourceHolds_regionSource (unionHolds_of_holds htotal hr hholds)).denotes

theorem sourceDenotes_directSource {regions : List InterpolantRegion}
    (htotal : ∀ r ∈ regions.tail, r.Total) (σ : Nat → Bool) :
    SourceDenotes (directSource p tracked regions) σ ↔
      InCube p tracked σ ∨ ∃ r ∈ regions.tail, r.Holds σ := by
  constructor
  · rintro ⟨m, rfl, hm⟩
    obtain ⟨hdefs, hcube | ⟨i, r, hi, hroot⟩⟩ := (evalQuery_directSource m regions).mp hm
    · exact .inl hcube
    · exact .inr ⟨r, List.mem_of_getElem? hi, _, hdefs i r hi, hroot⟩
  · exact fun h => (sourceHolds_directSource htotal h).denotes

/-- A step out of the source is a model of the A side. -/
theorem exists_imageA {σ σ' : Valuation} {source : CraigQuery} (h : FrameFacts p helpers X σ)
    (h' : FrameFacts p helpers X σ') (hadvance : p.Advance σ σ')
    (hsource : SourceHolds source (lit σ)) (plan : Nat → ProjectedTransitionFrame) :
    ∃ m : CraigModel, m.state 1 = lit σ' ∧
      evalQuery (evalCraigAtom m) (imageA p tracked helpers X source plan) = true := by
  obtain ⟨a₀, ha₀⟩ := h.helperCopies
  obtain ⟨a₁, ha₁⟩ := h'.helperCopies
  obtain ⟨a, ha⟩ := hsource
  let τ : Trace := fun k => if k = 0 then σ else σ'
  let copies := queryCopies (fun k => if k = 0 then a₀ else a₁) a fun _ => false
  refine ⟨traceModel τ (fun _ => τ) copies, rfl, ?_⟩
  have hframe₀ : Sees (traceModel τ (fun _ => τ) copies) (.frame 0) σ := sees_frame 0
  have hframe₁ : Sees (traceModel τ (fun _ => τ) copies) (.frame 1) σ' := sees_frame 1
  simp only [imageA, evalQuery_append, Bool.and_eq_true]
  refine ⟨⟨⟨⟨⟨⟨?_, ?_⟩, ?_⟩, ?_⟩, ?_⟩, ?_⟩, ?_⟩
  · exact ha₀ _ (.helper 0) 0 rfl fun _ => rfl
  · exact ha₁ _ (.helper 1) 1 rfl fun _ => rfl
  · exact hframe₀.auxiliaryInvariants h.auxiliary _
  · exact ha _ rfl fun _ => rfl
  · exact eval_projectedTransition (sees_encoder_trace .transition 0 tracked) hframe₁ h hadvance _
  · exact hframe₁.stateSemantics h'.domain _
  · exact hframe₁.auxiliaryInvariants h'.auxiliary _

/-- A run of the suffix from a bad frame is a model of the B side. -/
theorem exists_imageB {τ : Trace} {lookahead : Nat} (hlookahead : 1 ≤ lookahead)
    (hfacts : ∀ k, FrameFacts p helpers X (τ k))
    (hsteps : ∀ k, p.Advance (τ (k + 1)) (τ (k + 2))) (hbad : p.bad.eval (τ 1) = true)
    (plan : Nat → ProjectedTransitionFrame) :
    ∃ m : CraigModel, m.state 1 = lit (τ 1) ∧
      evalQuery (evalCraigAtom m) (imageB p tracked helpers X lookahead plan) = true := by
  choose a ha using fun k => (hfacts k).helperCopies
  let copies := queryCopies a (fun _ _ => false) fun _ => false
  refine ⟨traceModel τ (fun _ => τ) copies, rfl, ?_⟩
  have hframe : ∀ k, Sees (traceModel τ (fun _ => τ) copies) (.frame k) (τ k) := sees_frame
  have hencoder : ∀ kind k, Sees (traceModel τ (fun _ => τ) copies)
      (.encoder kind k tracked) (τ k) := fun kind k => sees_encoder_trace kind k tracked
  simp only [imageB, evalQuery_append, Bool.and_eq_true]
  refine ⟨⟨⟨?_, ?_⟩, ?_⟩, ?_⟩
  · rw [evalQuery_flatMap]
    intro k _
    simp only [evalQuery_append, Bool.and_eq_true]
    refine ⟨⟨?_, ?_⟩, ?_⟩
    · exact ha (k + 2) _ (.helper (k + 2)) (k + 2) rfl fun _ => rfl
    · exact (hframe _).auxiliaryInvariants (hfacts _).auxiliary _
    · exact eval_projectedTransition (hencoder .transition (k + 1)) (hframe _) (hfacts _)
        (hsteps _) _
  · exact (hframe _).stateSemantics (hfacts _).domain _
  · exact (hframe _).auxiliaryInvariants (hfacts _).auxiliary _
  · rw [addSuffixBadFormula, evalQuery_append, Bool.and_eq_true]
    refine ⟨?_, ?_⟩
    · rw [evalQuery_flatMap]
      exact fun k _ => (hencoder .bad (k + 1)).resetInputs (hfacts _).released
    · rw [evalQuery_cons, evalQuery_nil, Bool.and_true, evalClause_iff]
      refine ⟨_, List.mem_map.mpr ⟨0, List.mem_range.mpr (by omega), rfl⟩, ?_⟩
      exact ((hencoder .bad 1).eval_formulaLit p.bad).trans hbad

/-! ## The bounded query -/

/-- What holds of the frames the bounded query unrolls; the last one is where the
bootstrap ends. -/
structure BoundedFacts (p : KInductionProblem) (tracked : List Nat)
    (X : AuxiliaryStateInvariants) (τ : Trace) : Prop where
  path : ∀ k < boundedDepth p, p.Advance (τ k) (τ (k + 1))
  asserted : ∀ k < boundedDepth p, p.ResetAsserted (τ k)
  domain : ∀ k ≤ boundedDepth p, p.DomainValid (τ k)
  auxiliary : ∀ k ≤ boundedDepth p, X.Hold (τ k)
  initial : startsAtConcreteBootstrapFrontier p = false →
    ConstantsHold p.initialStateAssignments (τ 0)
  matching : startsAtConcreteBootstrapFrontier p = false → boundedDepth p = 0 →
    p.initialStateAssignments = [] → p.hasExplicitInitialState = false →
    ∃ υ : Valuation, (∀ s ∈ tracked, lit υ s = lit (τ 0) s) ∧ p.property.eval υ = true
  bootstrap : ConstantsHold p.bootstrapStateAssignments (τ (boundedDepth p))

theorem eval_assignments_foldl {σ : Valuation} (assignments : List (Nat × Bool)) (e : BoolExpr)
    (h : ConstantsHold assignments σ) :
    (assignments.foldl (fun e a =>
      BoolExpr.And e (if a.2 then .var a.1 else .Not (.var a.1))) e).eval σ = e.eval σ := by
  induction assignments generalizing e with
  | nil => rfl
  | cons a as ih =>
    have ha : (BoolExpr.var a.1).eval σ = a.2 := h a (by simp)
    rw [List.foldl_cons, ih _ fun b hb => h b (by simp [hb]), BoolExpr.eval_And]
    cases hv : a.2 with
    | true =>
      rw [hv] at ha
      simp [ha]
    | false =>
      rw [hv] at ha
      simp only [Bool.false_eq_true, if_false, BoolExpr.eval_Not, ha]
      simp

theorem BoundedFacts.exists_initial {τ : Trace} (h : BoundedFacts p tracked X τ)
    (hconcrete : startsAtConcreteBootstrapFrontier p = false) (hdepth : boundedDepth p = 0) :
    ∃ υ : Valuation, (∀ s ∈ tracked, lit υ s = lit (τ 0) s) ∧
      ∀ e, initialFrontierFormula p = some e → e.eval υ = true := by
  unfold initialFrontierFormula
  by_cases hnil : p.initialStateAssignments = []
  · cases hexplicit : p.hasExplicitInitialState with
    | true => exact ⟨τ 0, fun _ _ => rfl, by simp [hnil]⟩
    | false =>
      obtain ⟨υ, hagree, hproperty⟩ := h.matching hconcrete hdepth hnil hexplicit
      refine ⟨υ, hagree, fun e he => ?_⟩
      simp only [hnil, List.isEmpty_nil, if_true, Bool.false_eq_true, if_false,
        Option.some.injEq] at he
      rw [← he]
      exact hproperty
  · refine ⟨τ 0, fun _ _ => rfl, fun e he => ?_⟩
    rw [if_neg (by simpa using hnil), Option.some.injEq] at he
    rw [← he, eval_assignments_foldl _ _ (h.initial hconcrete)]
    rfl

/-- A real bootstrap is a model of the A side, whatever transitions are left out. -/
theorem exists_boundedA {τ : Trace} (h : BoundedFacts p tracked X τ)
    (plan : Nat → ProjectedTransitionFrame) :
    ∃ m : CraigModel, m.state (boundedDepth p) = lit (τ (boundedDepth p)) ∧
      evalQuery (evalCraigAtom m) (boundedA p tracked X plan) = true := by
  obtain ⟨υ₀, hagree, hinitial⟩ : ∃ υ : Valuation, (∀ s ∈ tracked, lit υ s = lit (τ 0) s) ∧
      (boundedDepth p = 0 → startsAtConcreteBootstrapFrontier p = false →
        ∀ e, initialFrontierFormula p = some e → e.eval υ = true) := by
    by_cases hc : boundedDepth p = 0 ∧ startsAtConcreteBootstrapFrontier p = false
    · obtain ⟨υ, hagree, hυ⟩ := h.exists_initial hc.2 hc.1
      exact ⟨υ, hagree, fun _ _ => hυ⟩
    · exact ⟨τ 0, fun _ _ => rfl, fun hdepth hconcrete => absurd ⟨hdepth, hconcrete⟩ hc⟩
  let m := traceModel τ (fun _ _ => υ₀) fun _ _ => false
  refine ⟨m, rfl, ?_⟩
  have hframe : ∀ k, Sees m (.frame k) (τ k) := sees_frame
  simp only [boundedA, evalQuery_append, Bool.and_eq_true]
  refine ⟨⟨⟨⟨⟨?_, ?_⟩, ?_⟩, ?_⟩, ?_⟩, ?_⟩
  · split
    · rename_i hc
      unfold addInitialFrontierConstraint
      cases he : initialFrontierFormula p with
      | none => rfl
      | some e =>
        have hsees : Sees m (.encoder .initial 0 tracked) υ₀ :=
          @sees_encoder _ (fun _ _ => υ₀) _ .initial 0 _ hagree
        simp only [evalQuery_cons, evalQuery_nil, Bool.and_true, evalClause_singleton]
        rw [hsees.eval_formulaLit]
        exact hinitial hc.1 hc.2 e he
    · rfl
  · rw [evalQuery_flatMap]
    intro k hk
    have hlt := List.mem_range.mp hk
    simp only [boundedFrame, evalQuery_append, Bool.and_eq_true]
    exact ⟨⟨⟨(hframe k).transitionEquations (hframe (k + 1)) (h.path k hlt) (by intro c hc; cases hc) _,
      (hframe k).resetInputs (h.asserted k hlt)⟩,
      (hframe k).stateSemantics (h.domain k (by omega)) _⟩,
      (hframe k).auxiliaryInvariants (h.auxiliary k (by omega)) _⟩
  · split
    · rfl
    · rename_i hconcrete
      exact (hframe 0).stateAssignments (h.initial (Bool.eq_false_iff.mpr hconcrete)) _
  · exact (hframe _).stateAssignments h.bootstrap _
  · exact (hframe _).stateSemantics (h.domain _ (by omega)) _
  · exact (hframe _).auxiliaryInvariants (h.auxiliary _ (by omega)) _

/-! ## The plain queries -/

variable {ς : Type} {S : CraigSatSolver ς} {fresh : ς}

theorem contained_sound {regions : List InterpolantRegion} {candidate : InterpolantRegion}
    (h : regionContainedInReachableUnion p tracked helpers X S fresh regions candidate = true)
    (htotal : ∀ r ∈ regions, r.Total) {σ : Valuation} (hfacts : FrameFacts p helpers X σ)
    (hcandidate : candidate.Holds (lit σ)) : ∃ r ∈ regions, r.Holds (lit σ) := by
  unfold regionContainedInReachableUnion at h
  split at h
  · rename_i hfalse
    obtain ⟨a, hdefs, hroot⟩ := hcandidate
    simp only [InterpolantRegion.encoding, hfalse, evalQuery_cons, evalClause_singleton,
      evalQuery_nil, Bool.and_true, evalLit_mk_true, evalLit_mk_false] at hdefs hroot
    rw [hroot] at hdefs
    cases hdefs
  · split at h
    · cases h
    · by_contra hnone
      refine not_satisfiable_of_answersUnsat h ?_
      obtain ⟨aₕ, hhelpers⟩ := hfacts.helperCopies
      obtain ⟨a, hdefs, hroot⟩ := hcandidate
      obtain ⟨b, hb⟩ := exists_definitions htotal (lit σ)
      let m := traceModel (fun _ => σ) (fun _ _ => σ) (queryCopies (fun _ => aₕ) b a)
      have hframe : Sees m (.frame 0) σ := sees_frame 0
      refine ⟨m, ?_⟩
      simp only [containmentQuery, evalQuery_append, Bool.and_eq_true]
      refine ⟨⟨⟨⟨⟨⟨?_, ?_⟩, ?_⟩, ?_⟩, ?_⟩, ?_⟩, ?_⟩
      · exact hhelpers m (.helper 0) 0 rfl fun _ => rfl
      · exact hframe.stateSemantics hfacts.domain _
      · exact hframe.auxiliaryInvariants hfacts.auxiliary _
      · rw [evalQuery_instantiateRegion]
        exact hdefs
      · rw [evalQuery_cons, evalQuery_nil, Bool.and_true, evalClause_singleton,
          evalLit_instantiateRegion]
        exact hroot
      · rw [evalQuery_instantiateRegions]
        intro i r hi
        rw [Nat.zero_add]
        exact hb i r hi
      · rw [evalQuery_map]
        intro root hmem
        obtain ⟨i, r, hi, rfl⟩ := mem_instantiateRegions.mp hmem
        rw [evalClause_singleton, evalLit_neg, evalLit_instantiateRegion, Nat.zero_add,
          Bool.not_eq_true']
        -- a true root would put the state in that region
        exact Bool.eq_false_iff.mpr fun hroot' =>
          hnone ⟨r, List.mem_of_getElem? hi, b i, hb i r hi, hroot'⟩

theorem excludesBad_sound {regions : List InterpolantRegion}
    (h : craigInvariantExcludesBad p tracked X S fresh regions = true)
    (htotal : ∀ r ∈ regions, r.Total) {σ : Valuation} (hdomain : p.DomainValid σ) (hX : X.Hold σ)
    (hreleased : p.ResetDeasserted σ) {r : InterpolantRegion} (hr : r ∈ regions)
    (hregion : r.Holds (lit σ)) : p.bad.eval σ = false := by
  unfold craigInvariantExcludesBad at h
  split at h
  · cases h
  · by_contra hbad
    refine not_satisfiable_of_answersUnsat h ?_
    obtain ⟨a, hsource⟩ := sourceHolds_regionSource (unionHolds_of_holds htotal hr hregion)
    let m := traceModel (fun _ => σ) (fun _ _ => σ) (queryCopies (fun _ _ _ => false) a fun _ => false)
    have hframe : Sees m (.frame 0) σ := sees_frame 0
    have hencoder : Sees m (.encoder .bad 0 tracked) σ := sees_encoder fun _ _ => rfl
    refine ⟨m, ?_⟩
    simp only [excludesBadQuery, evalQuery_append, Bool.and_eq_true]
    refine ⟨⟨⟨?_, ?_⟩, ?_⟩, ?_⟩
    · exact hframe.stateSemantics hdomain _
    · exact hframe.auxiliaryInvariants hX _
    · exact hsource m rfl fun _ => rfl
    · rw [addBadFormula, evalQuery_append, evalQuery_cons, evalQuery_nil, Bool.and_true,
        evalClause_singleton, Bool.and_eq_true]
      exact ⟨hencoder.resetInputs hreleased,
        (hencoder.eval_formulaLit p.bad).trans (Bool.not_eq_false _ ▸ hbad)⟩

end Image

end KeplerFormal
