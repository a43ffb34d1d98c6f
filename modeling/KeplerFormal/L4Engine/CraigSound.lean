import KeplerFormal.Core.Fallible
import KeplerFormal.L4Engine.CraigLoop
import KeplerFormal.L4Engine.CraigMiningSound

/-!
# Soundness of the Craig model checker

Between two queries the union `Q` covers where the bootstrap ends, each of its regions
excludes the bad states that can be reached, and the auxiliary facts hold in every
frame after the bootstrap. When the newest interpolant is inside `Q`, the union is
closed under steps.

* `holds_concreteRegion`, `total_concreteRegion`: the region of the bootstrap cube.
* `AuxFacts`, `LoopInv`: the invariant; `LoopInv.restart`, `LoopInv.mine`,
  `LoopInv.expand`: what keeps it.
* `holds_of_step`, `interpolant_safe`: what an interpolant of the image query is.
* `closed_of_contained`: the fixpoint test.
* `StateInv`, `stateInv_step`: the invariant of a whole run.
-/
namespace KeplerFormal

open Core KInductionProblem

/-! ## The region of a cube -/

/-- The state agrees with the assignments of the tracked states. -/
def CubeHolds (assignments : List (Nat × Bool)) (tracked : List Nat) (σ : Nat → Bool) : Prop :=
  ∀ s ∈ tracked, ∀ v, (bootstrapAssignmentsForSymbols assignments tracked).lookup s = some v →
    σ s = v

theorem concreteRegion_cases {assignments : List (Nat × Bool)} {tracked : List Nat}
    {r : InterpolantRegion} (h : buildConcreteAssignmentRegion assignments tracked = some r) :
    ∃ cube : List RegionLiteral, r.encoding =
        (cube.map (fun l => [⟨.auxiliary 0, false⟩, l]) ++ [⟨.auxiliary 0, true⟩ :: cube.map Lit.neg],
          ⟨.auxiliary 0, true⟩) ∧
      ∀ σ a, (∀ l ∈ cube, evalLit (InterpolantRegion.values σ a) l = true) ↔
        CubeHolds assignments tracked σ := by
  unfold buildConcreteAssignmentRegion at h
  dsimp only at h
  split at h
  · cases h
  · cases h
  · rename_i cube _ hcube
    rw [Option.some.injEq] at h
    subst h
    refine ⟨cube, rfl, fun σ a => mapM_some_holds hcube fun s _ l hl => ?_⟩
    obtain ⟨v, hv, rfl⟩ := Option.map_eq_some_iff.mp hl
    simp [evalLit, InterpolantRegion.values, hv]

/-- The definitions say that the root is the cube. -/
theorem eval_cubeDefinitions (val : RegionVariable → Bool) (cube : List RegionLiteral) :
    evalQuery val (cube.map (fun l => [⟨.auxiliary 0, false⟩, l]) ++
        [⟨.auxiliary 0, true⟩ :: cube.map Lit.neg]) = true ↔
      (val (.auxiliary 0) = true ↔ ∀ l ∈ cube, evalLit val l = true) := by
  rw [evalQuery_append, Bool.and_eq_true, evalQuery_map, evalQuery_cons, evalQuery_nil,
    Bool.and_true, evalClause_iff]
  simp only [evalClause_pair, evalLit_mk_false, Bool.or_eq_true, Bool.not_eq_true', List.mem_cons,
    List.mem_map, exists_eq_or_imp, evalLit_mk_true, exists_exists_and_eq_and, evalLit_neg]
  cases hroot : val (.auxiliary 0) with
  | true => simp
  | false => simp

theorem holds_concreteRegion {assignments : List (Nat × Bool)} {tracked : List Nat}
    {r : InterpolantRegion} (h : buildConcreteAssignmentRegion assignments tracked = some r)
    (σ : Nat → Bool) : r.Holds σ ↔ CubeHolds assignments tracked σ := by
  obtain ⟨cube, hencoding, hcube⟩ := concreteRegion_cases h
  rw [InterpolantRegion.Holds, hencoding]
  simp only [eval_cubeDefinitions, evalLit_mk_true, hcube]
  constructor
  · rintro ⟨a, hdefs, hroot⟩
    exact hdefs.mp hroot
  · intro hσ
    exact ⟨fun _ => true, ⟨fun _ => hσ, fun _ => rfl⟩, rfl⟩

theorem total_concreteRegion {assignments : List (Nat × Bool)} {tracked : List Nat}
    {r : InterpolantRegion} (h : buildConcreteAssignmentRegion assignments tracked = some r) :
    r.Total := by
  classical
  obtain ⟨cube, hencoding, hcube⟩ := concreteRegion_cases h
  intro σ
  refine ⟨fun _ => decide (CubeHolds assignments tracked σ), ?_⟩
  rw [hencoding]
  simp only [eval_cubeDefinitions, hcube, InterpolantRegion.values, decide_eq_true_eq]

theorem cubeHolds_of_constantsHold {assignments : List (Nat × Bool)} {σ : Valuation}
    (h : ConstantsHold assignments σ) (tracked : List Nat) :
    CubeHolds assignments tracked (lit σ) :=
  fun _ _ _ hv => constantsHold_bootstrapAssignments h tracked _ (mem_of_lookup hv)

/-- No state has two bootstrap values. -/
def Consistent (assignments : List (Nat × Bool)) : Prop :=
  ∀ a ∈ assignments, ∀ b ∈ assignments, a.1 = b.1 → a.2 = b.2

theorem ConstantsHold.consistent {assignments : List (Nat × Bool)} {σ : Valuation}
    (h : ConstantsHold assignments σ) : Consistent assignments := by
  intro a ha b hb hab
  rw [← h a ha, ← h b hb, hab]

/-- The region and the direct source have the same cube. -/
theorem cubeHolds_iff {p : KInductionProblem} (h : Consistent p.bootstrapStateAssignments)
    (tracked : List Nat) (σ : Nat → Bool) :
    CubeHolds p.bootstrapStateAssignments tracked σ ↔ InCube p tracked σ := by
  have hmem : ∀ {s v}, (bootstrapAssignmentsForSymbols p.bootstrapStateAssignments tracked).lookup s =
      some v → (s, v) ∈ p.bootstrapStateAssignments := by
    intro s v hv
    rcases mem_foldl_assignConstant (mem_of_lookup hv) with hc | ⟨hc, _⟩
    · exact List.mem_of_mem_filter hc
    · cases hc
  constructor
  · intro hcube a ha htracked
    have hsymbol : a.1 ∈ symbols (bootstrapAssignmentsForSymbols p.bootstrapStateAssignments tracked) :=
      symbols_subset_foldl_assignConstant
        (List.mem_map.mpr ⟨a, List.mem_filter.mpr ⟨ha, by simpa using htracked⟩, rfl⟩)
    obtain ⟨v, hv⟩ := exists_lookup_of_mem_symbols hsymbol
    rw [hcube a.1 htracked v hv]
    exact h _ (hmem hv) a ha rfl
  · exact fun hcube s hs v hv => hcube (s, v) (hmem hv) hs

/-! ## Auxiliary facts -/

/-- The facts hold in every frame after the bootstrap, and under reset where the first
region is an interpolant of an unrolled reset. -/
structure AuxFacts (p : KInductionProblem) (X : AuxiliaryStateInvariants) : Prop where
  reachable : ∀ σ, p.postBootstrap.Reachable σ → X.Hold σ
  resetFrames : boundedDepth p ≠ 0 → ∀ τ, p.BootstrapPrefix τ →
    ∀ k < p.resetBootstrapCycles, X.Hold (τ k)

/-- What the theorems of this module assume of a configuration. -/
structure CraigConfig.Certified (c : CraigConfig) : Prop where
  preserves : c.problem.PreservesDomain
  relates : c.problem.RelatesStates
  separate : c.problem.SeparateComplements
  helpers : ∀ σ, c.problem.postBootstrap.Reachable σ →
    c.helperInvariantRegions = [] ∨ UnionHolds c.helperInvariantRegions (lit σ)
  auxiliary : AuxFacts c.problem c.helperAuxiliary

theorem boundedDepth_ne_zero {p : KInductionProblem} (h : boundedDepth p ≠ 0) :
    boundedDepth p = p.resetBootstrapCycles ∧ p.bootstrapStateAssignments = [] ∧
      startsAtConcreteBootstrapFrontier p = false := by
  cases hconcrete : startsAtConcreteBootstrapFrontier p with
  | true => simp [boundedDepth, hconcrete] at h
  | false =>
    have hdepth : boundedDepth p = p.resetBootstrapCycles := by simp [boundedDepth, hconcrete]
    rw [hdepth] at h
    refine ⟨hdepth, ?_, rfl⟩
    simpa [startsAtConcreteBootstrapFrontier, h] using hconcrete

theorem AuxFacts.merge {p : KInductionProblem} {X Y : AuxiliaryStateInvariants}
    (hX : AuxFacts p X) (hY : AuxFacts p Y) : AuxFacts p (mergeAuxiliaryStateInvariants X Y) where
  reachable σ hσ := hold_merge (hX.reachable σ hσ) (hY.reachable σ hσ)
  resetFrames hdepth τ hτ k hk :=
    hold_merge (hX.resetFrames hdepth τ hτ k hk) (hY.resetFrames hdepth τ hτ k hk)

section Mining
variable {p : KInductionProblem} {σ : Type} {S : CraigSatSolver σ} {fresh : σ}

theorem auxFacts_deriveAuxiliary (hpreserves : p.PreservesDomain) (enabled : Bool) :
    AuxFacts p (p.deriveAuxiliaryStateInvariants S fresh enabled) where
  reachable σ hσ := reachable_deriveAuxiliary hpreserves enabled hσ
  resetFrames hdepth τ _ k _ := by
    rw [deriveAuxiliaryStateInvariants, if_pos (.inr (boundedDepth_ne_zero hdepth).2.1)]
    exact hold_empty _

/-- Without bootstrap assignments there is nothing to mine. -/
theorem deriveLocal_of_no_bootstrap (h : p.bootstrapStateAssignments = []) (choice : MiningChoice)
    (existing : AuxiliaryStateInvariants) :
    p.deriveLocalAuxiliaryStateInvariants S fresh choice existing = {} := by
  have hnone : p.localAuxiliaryCandidateConstants choice existing = [] := by
    have hpairs : ∀ pairs : List (Nat × Nat), pairs.foldl closeComplementPair [] = [] := by
      intro pairs
      induction pairs with
      | nil => rfl
      | cons pr pairs ih => exact ih
    simp [localAuxiliaryCandidateConstants, h, closeComplementStateConstants, hpairs]
  unfold deriveLocalAuxiliaryStateInvariants
  dsimp only
  rw [if_pos hnone, ite_self]

theorem auxFacts_deriveLocal (hpreserves : p.PreservesDomain) (hseparate : p.SeparateComplements)
    (choice : MiningChoice) {existing : AuxiliaryStateInvariants} (hexisting : AuxFacts p existing) :
    AuxFacts p (p.deriveLocalAuxiliaryStateInvariants S fresh choice existing) where
  reachable σ hσ :=
    reachable_deriveLocalAuxiliary hpreserves (hseparate.justified choice existing)
      hexisting.reachable hσ
  resetFrames hdepth τ _ k _ := by
    rw [deriveLocal_of_no_bootstrap (boundedDepth_ne_zero hdepth).2.1]
    exact hold_empty _

end Mining

/-! ## The invariant of the loop -/

section Loop
variable {c : CraigConfig} {σ : Type} {S : CraigSatSolver σ} {fresh : σ}

theorem auxFacts_initial (hc : c.Certified) : AuxFacts c.problem (initialAuxiliary S fresh c) := by
  refine (auxFacts_deriveAuxiliary hc.preserves _).merge ⟨fun σ hσ => ?_, fun hdepth τ hτ k hk => ?_⟩
  · exact hold_helperAuxiliary (reachable_domainValid hc.preserves hσ) (hc.auxiliary.reachable σ hσ)
  · exact hold_helperAuxiliary (hτ.domainValid hc.preserves k (by omega))
      (hc.auxiliary.resetFrames hdepth τ hτ k hk)

/-- A region that no reachable bad state is in. -/
def Safe (c : CraigConfig) (r : InterpolantRegion) : Prop :=
  ∀ σ, c.problem.postBootstrap.Reachable σ → r.Holds (lit σ) → c.problem.bad.eval σ = false

structure LoopInv (c : CraigConfig) (loop : CraigLoop) : Prop where
  tracked : ∀ s ∈ loop.tracked, s ∈ c.problem.combinedStateSymbols
  active : AuxFacts c.problem loop.activeAuxiliary
  projection : AuxFacts c.problem loop.projectionAuxiliary
  lookahead : 1 ≤ loop.lookahead
  cube : loop.hasConcreteInitialCube = true → buildConcreteAssignmentRegion
    c.problem.bootstrapStateAssignments loop.tracked = some loop.concreteInitialRegion
  initial_total : loop.concreteInitialRegion.Total
  initial_safe : Safe c loop.concreteInitialRegion
  initial_covers : ∀ σ, c.problem.postBootstrap.init σ → loop.concreteInitialRegion.Holds (lit σ)
  nonempty : loop.reachableRegions ≠ []
  total : ∀ r ∈ loop.reachableRegions, r.Total
  safe : ∀ r ∈ loop.reachableRegions, Safe c r
  covers : ∀ σ, c.problem.postBootstrap.init σ → ∃ r ∈ loop.reachableRegions, r.Holds (lit σ)
  /-- what the source leaves out has its successors in `Q` already -/
  closed : ∀ σ σ', c.problem.postBootstrap.Reachable σ → c.problem.postBootstrap.step σ () σ' →
    (∃ r ∈ loop.reachableRegions, r.Holds (lit σ)) →
    SourceHolds (loop.source c) (lit σ) ∨ ∃ r ∈ loop.reachableRegions, r.Holds (lit σ')

/-- What every query may assume of a reachable frame. -/
theorem frameFacts (hc : c.Certified) {X : AuxiliaryStateInvariants} (hX : AuxFacts c.problem X)
    {σ : Valuation} (hσ : c.problem.postBootstrap.Reachable σ) :
    FrameFacts c.problem c.helperInvariantRegions X σ where
  domain := reachable_domainValid hc.preserves hσ
  auxiliary := hX.reachable σ hσ
  released := reachable_released hσ
  helpers := hc.helpers σ hσ

/-! ### The source -/

/-- Without the fast path every region is in the source. -/
theorem sourceHolds_of_plain {loop : CraigLoop} (hplain : loop.useDirectConcreteCube c = false)
    (htotal : ∀ r ∈ loop.reachableRegions, r.Total) {σ : Nat → Bool} {r : InterpolantRegion}
    (hr : r ∈ loop.reachableRegions) (hholds : r.Holds σ) : SourceHolds (loop.source c) σ := by
  rw [CraigLoop.source, imageSource, hplain, if_neg (by decide)]
  exact sourceHolds_regionSource (unionHolds_of_holds htotal hr hholds)

/-- With it, every region but the first. -/
theorem sourceHolds_of_tail {loop : CraigLoop} (hdirect : loop.useDirectConcreteCube c = true)
    (htotal : ∀ r ∈ loop.reachableRegions, r.Total) {σ : Nat → Bool}
    (h : InCube c.problem loop.tracked σ ∨ ∃ r ∈ loop.reachableRegions.tail, r.Holds σ) :
    SourceHolds (loop.source c) σ := by
  rw [CraigLoop.source, imageSource, hdirect, if_pos rfl]
  exact sourceHolds_directSource (fun r hr => htotal r (List.mem_of_mem_tail hr)) h

/-- A run witnesses that the bootstrap assignments are consistent. -/
theorem consistent_of_reachable {p : KInductionProblem} {σ : Valuation}
    (h : p.postBootstrap.Reachable σ) : Consistent p.bootstrapStateAssignments := by
  induction h with
  | init hinit => exact ConstantsHold.consistent (bootstrap_init hinit)
  | step _ _ ih => exact ih

/-- The first region alone is in the source. -/
theorem sourceHolds_initial {loop : CraigLoop} (hsingle : loop.reachableRegions = [loop.concreteInitialRegion])
    (hcube : loop.hasConcreteInitialCube = true → buildConcreteAssignmentRegion
      c.problem.bootstrapStateAssignments loop.tracked = some loop.concreteInitialRegion)
    (htotal : loop.concreteInitialRegion.Total) {σ : Valuation}
    (hσ : c.problem.postBootstrap.Reachable σ) (hholds : loop.concreteInitialRegion.Holds (lit σ)) :
    SourceHolds (loop.source c) (lit σ) := by
  have htotals : ∀ r ∈ loop.reachableRegions, r.Total := by
    rw [hsingle]
    exact List.forall_mem_singleton.mpr htotal
  cases hdirect : loop.useDirectConcreteCube c with
  | false =>
    exact sourceHolds_of_plain hdirect htotals (hsingle ▸ List.mem_singleton.mpr rfl) hholds
  | true =>
    refine sourceHolds_of_tail hdirect htotals (.inl ?_)
    have hregion := hcube (Bool.and_eq_true_iff.mp hdirect).1
    exact (cubeHolds_iff (consistent_of_reachable hσ) _ _).mp ((holds_concreteRegion hregion _).mp hholds)

theorem LoopInv.restart {loop : CraigLoop} (h : LoopInv c loop) : LoopInv c loop.restart where
  tracked := h.tracked
  active := h.active
  projection := h.projection
  lookahead := Nat.le_succ_of_le h.lookahead
  initial_total := h.initial_total
  initial_safe := h.initial_safe
  initial_covers := h.initial_covers
  cube := h.cube
  nonempty := List.cons_ne_nil _ _
  total := List.forall_mem_singleton.mpr h.initial_total
  safe := List.forall_mem_singleton.mpr h.initial_safe
  covers σ hσ := ⟨_, List.mem_singleton.mpr rfl, h.initial_covers σ hσ⟩
  closed σ _ hσ _ := by
    rintro ⟨r, hr, hholds⟩
    obtain rfl := List.mem_singleton.mp hr
    exact .inl (@sourceHolds_initial c loop.restart rfl h.cube h.initial_total σ hσ hholds)

theorem LoopInv.mine (hc : c.Certified) {loop next : CraigLoop} (h : LoopInv c loop)
    {choice : MiningChoice} (hmine : loop.mine S fresh c choice = some next) : LoopInv c next := by
  unfold CraigLoop.mine CraigLoop.promote at hmine
  dsimp only at hmine
  split at hmine
  · cases hmine
  · rw [Option.some.injEq] at hmine
    subst hmine
    have hmined := @auxFacts_deriveLocal _ _ S fresh hc.preserves hc.separate
      choice _ h.active
    exact { h with active := h.active.merge hmined, projection := h.projection.merge hmined }

/-! ### Compaction -/

/-- What the compaction does to the union. -/
theorem compaction_cases (p : KInductionProblem) (tracked : List Nat)
    (helpers : List InterpolantRegion) (X : AuxiliaryStateInvariants)
    (regions : List InterpolantRegion) (start limit : Nat) :
    compactReachableRegions S fresh p tracked helpers X regions start limit = regions ∨
    ∃ i r, regions[i]? = some r ∧ start ≤ regions.length ∧ i < limit ∧
      regionContainedInReachableUnion p tracked helpers X S fresh (regions.eraseIdx i) r = true ∧
      compactReachableRegions S fresh p tracked helpers X regions start limit = regions.eraseIdx i := by
  unfold compactReachableRegions
  split
  · exact .inl rfl
  · rename_i hstart
    split
    · rename_i i hfind
      have hcontained := List.find?_some hfind
      cases hi : regions[i]? with
      | none => rw [hi] at hcontained; cases hcontained
      | some r =>
        rw [hi] at hcontained
        have hlimit := List.mem_range.mp (List.mem_of_find?_eq_some hfind)
        exact .inr ⟨i, r, hi, Nat.not_lt.mp hstart, by omega, hcontained, rfl⟩
    · exact .inl rfl

theorem compaction_subset (p : KInductionProblem) (tracked : List Nat)
    (helpers : List InterpolantRegion) (X : AuxiliaryStateInvariants)
    (regions : List InterpolantRegion) (start limit : Nat) :
    compactReachableRegions S fresh p tracked helpers X regions start limit ⊆ regions := by
  rcases @compaction_cases _ S fresh p tracked helpers X regions start limit with
    h | ⟨i, _, _, _, _, _, h⟩
  · rw [h]
    exact List.Subset.refl _
  · rw [h]
    exact List.eraseIdx_subset

/-- On the frames the queries are about, compaction keeps the union. -/
theorem compaction_covers {p : KInductionProblem} {tracked : List Nat}
    {helpers : List InterpolantRegion} {X : AuxiliaryStateInvariants}
    {regions : List InterpolantRegion} (htotal : ∀ r ∈ regions, r.Total) {σ : Valuation}
    (hσ : FrameFacts p helpers X σ) (start limit : Nat) {r : InterpolantRegion} (hr : r ∈ regions)
    (hholds : r.Holds (lit σ)) :
    ∃ r ∈ compactReachableRegions S fresh p tracked helpers X regions start limit,
      r.Holds (lit σ) := by
  rcases @compaction_cases _ S fresh p tracked helpers X regions start limit with
    h | ⟨i, removed, hi, _, _, hcontained, h⟩
  · rw [h]
    exact ⟨r, hr, hholds⟩
  · rw [h]
    obtain ⟨j, hj⟩ := List.getElem?_of_mem hr
    by_cases hij : j = i
    · subst hij
      rw [hi, Option.some.injEq] at hj
      subst hj
      exact contained_sound hcontained (fun r' hr' => htotal r' (List.eraseIdx_subset hr')) hσ hholds
    · exact ⟨r, List.mem_eraseIdx_iff_getElem?.mpr ⟨j, hij, hj⟩, hholds⟩

/-- Compaction looks at the oldest regions only: the newest one stays, behind some
other. -/
theorem expand_regions {loop : CraigLoop} (hne : loop.reachableRegions ≠ []) (region : InterpolantRegion) :
    ∃ first rest, (loop.expand S fresh c region).reachableRegions = first :: (rest ++ [region]) ∧
      ∀ r ∈ first :: rest, r ∈ loop.reachableRegions := by
  obtain ⟨q, qs, hq⟩ := List.exists_cons_of_ne_nil hne
  rcases @compaction_cases _ S fresh c.problem loop.tracked c.helperInvariantRegions
      loop.activeAuxiliary (loop.reachableRegions ++ [region]) kCraigRegionCompactionStart
      kCraigRegionCompactionCandidateLimit with h | ⟨i, r, _, hstart, hlimit, _, h⟩
  · exact ⟨q, qs, by rw [CraigLoop.expand, h, hq]; rfl, by rw [hq]; exact fun _ hr => hr⟩
  · rw [kCraigRegionCompactionStart, List.length_append, List.length_singleton] at hstart
    rw [kCraigRegionCompactionCandidateLimit] at hlimit
    have hlen : i < loop.reachableRegions.length := by omega
    have hsome : loop.reachableRegions.eraseIdx i ≠ [] := by
      intro hnil
      have := congrArg List.length hnil
      rw [List.length_eraseIdx_of_lt hlen, List.length_nil] at this
      omega
    obtain ⟨first, rest, hfirst⟩ := List.exists_cons_of_ne_nil hsome
    refine ⟨first, rest, ?_, fun r hr => List.eraseIdx_subset (hfirst ▸ hr)⟩
    rw [CraigLoop.expand, h, List.eraseIdx_append_of_lt_length hlen, hfirst]
    rfl

/-! ### What an interpolant is -/

section Interpolant
variable {loop : CraigLoop} {plan : Nat → ProjectedTransitionFrame} {cnf : CraigInterpolantCnf}

/-- One step out of the source is inside the interpolant. -/
theorem image_holds (hc : c.Certified) (h : LoopInv c loop)
    (hcnf : cnf.Interpolates 1 (loop.queryA c plan) (loop.queryB c plan)) {σ σ' : Valuation}
    (hσ : c.problem.postBootstrap.Reachable σ) (hstep : c.problem.postBootstrap.step σ () σ')
    (hsource : SourceHolds (loop.source c) (lit σ)) :
    (convertInterpolant S fresh cnf).Holds (lit σ') := by
  obtain ⟨m, hstate, hm⟩ := exists_imageA (frameFacts hc h.active hσ)
    (frameFacts hc h.active (.step hσ hstep)) hstep.1 hsource plan
  rw [holds_convertInterpolant, ← hstate]
  exact hcnf.implied m hm

/-- A bad frame goes on, and its run is a model of the suffix. -/
theorem interpolant_safe (hc : c.Certified) (h : LoopInv c loop)
    (hcnf : cnf.Interpolates 1 (loop.queryA c plan) (loop.queryB c plan)) :
    Safe c (convertInterpolant S fresh cnf) := by
  intro σ hσ hholds
  by_contra hbad
  let τ : Trace := fun k => c.problem.steadyRun σ (k - 1)
  have hfacts := fun k => frameFacts hc h.active (reachable_steadyRun hσ (k - 1))
  have hsteps : ∀ k, c.problem.Advance (τ (k + 1)) (τ (k + 2)) :=
    fun k => advance_steadyRun σ k
  obtain ⟨m, hstate, hm⟩ := exists_imageB h.lookahead hfacts hsteps
    (Bool.not_eq_false _ ▸ hbad) plan
  refine hcnf.inconsistent m hm ?_
  rw [hstate]
  exact holds_convertInterpolant cnf _ |>.mp hholds

/-- One step out of `Q` is in `Q` or in the interpolant. -/
theorem LoopInv.holds_of_step (hc : c.Certified) (h : LoopInv c loop)
    (hcnf : cnf.Interpolates 1 (loop.queryA c plan) (loop.queryB c plan)) {σ σ' : Valuation}
    (hσ : c.problem.postBootstrap.Reachable σ) (hstep : c.problem.postBootstrap.step σ () σ')
    (hQ : ∃ r ∈ loop.reachableRegions, r.Holds (lit σ)) :
    ∃ r ∈ loop.reachableRegions ++ [convertInterpolant S fresh cnf], r.Holds (lit σ') := by
  rcases h.closed σ σ' hσ hstep hQ with hsource | ⟨r, hr, hholds⟩
  · exact ⟨_, List.mem_append_right _ (List.mem_singleton.mpr rfl),
      image_holds hc h hcnf hσ hstep hsource⟩
  · exact ⟨r, List.mem_append_left _ hr, hholds⟩

/-- The fixpoint test: when the interpolant is inside `Q`, every frame after the
bootstrap is. -/
theorem closed_of_contained (hc : c.Certified) (h : LoopInv c loop)
    (hcnf : cnf.Interpolates 1 (loop.queryA c plan) (loop.queryB c plan))
    (hcontained : regionContainedInReachableUnion c.problem loop.tracked c.helperInvariantRegions
      loop.activeAuxiliary S fresh loop.reachableRegions (convertInterpolant S fresh cnf) = true)
    {σ : Valuation} (hσ : c.problem.postBootstrap.Reachable σ) :
    ∃ r ∈ loop.reachableRegions, r.Holds (lit σ) := by
  induction hσ with
  | init hinit => exact h.covers _ hinit
  | step hreach hstep ih =>
    obtain ⟨r, hr, hholds⟩ := h.holds_of_step hc hcnf hreach hstep ih
    rcases List.mem_append.mp hr with hr | hr
    · exact ⟨r, hr, hholds⟩
    · obtain rfl := List.mem_singleton.mp hr
      exact contained_sound hcontained h.total (frameFacts hc h.active (.step hreach hstep)) hholds

/-- `Q := Q or I`. -/
theorem LoopInv.expand (hc : c.Certified) (h : LoopInv c loop)
    (hcnf : cnf.Interpolates 1 (loop.queryA c plan) (loop.queryB c plan)) :
    LoopInv c (loop.expand S fresh c (convertInterpolant S fresh cnf)) := by
  let region := convertInterpolant S fresh cnf
  obtain ⟨first, rest, hregions, holder⟩ := @expand_regions _ _ S fresh _ h.nonempty region
  have htotals : ∀ r ∈ loop.reachableRegions ++ [region], r.Total := by
    intro r hr
    rcases List.mem_append.mp hr with hr | hr
    · exact h.total r hr
    · exact List.mem_singleton.mp hr ▸ total_convertInterpolant hcnf.total
  have hsubset : ∀ r ∈ (loop.expand S fresh c region).reachableRegions,
      r ∈ loop.reachableRegions ++ [region] := by
    rw [hregions, ← List.cons_append]
    exact fun r hr => (List.mem_append.mp hr).elim
      (fun hr => List.mem_append_left _ (holder r hr)) (List.mem_append_right _)
  have hcovered : ∀ σ, c.problem.postBootstrap.Reachable σ →
      (∃ r ∈ loop.reachableRegions ++ [region], r.Holds (lit σ)) →
      ∃ r ∈ (loop.expand S fresh c region).reachableRegions, r.Holds (lit σ) := by
    rintro σ hσ ⟨r, hr, hholds⟩
    exact compaction_covers htotals (frameFacts hc h.active hσ) _ _ hr hholds
  refine { h with nonempty := hregions ▸ List.cons_ne_nil _ _, total := fun r hr => htotals r (hsubset r hr),
                  safe := fun r hr => ?_, covers := fun σ hσ => ?_, closed := fun σ σ' hσ hstep hQ => ?_ }
  · rcases List.mem_append.mp (hsubset r hr) with hr | hr
    · exact h.safe r hr
    · exact List.mem_singleton.mp hr ▸ interpolant_safe hc h hcnf
  · obtain ⟨r, hr, hholds⟩ := h.covers σ hσ
    exact hcovered σ (.init hσ) ⟨r, List.mem_append_left _ hr, hholds⟩
  · have htotal : ∀ r ∈ (loop.expand S fresh c region).reachableRegions, r.Total :=
      fun r hr => htotals r (hsubset r hr)
    obtain ⟨r, hr, hholds⟩ := hQ
    cases hdirect : (loop.expand S fresh c region).useDirectConcreteCube c with
    | false => exact .inl (sourceHolds_of_plain hdirect htotal hr hholds)
    | true =>
      -- only the first region may be left out, and it is an older one
      rw [hregions] at hr
      rcases List.mem_cons.mp hr with rfl | hr
      · exact .inr (hcovered σ' (.step hσ hstep)
          (h.holds_of_step hc hcnf hσ hstep ⟨r, holder r List.mem_cons_self, hholds⟩))
      · exact .inl (sourceHolds_of_tail hdirect htotal (.inr ⟨r, hregions ▸ hr, hholds⟩))

end Interpolant

/-! ## The first region -/

/-- A bootstrap is what the bounded query unrolls. -/
theorem exists_boundedFacts (hc : c.Certified) {tracked : List Nat}
    (htracked : ∀ s ∈ tracked, s ∈ c.problem.combinedStateSymbols) {X : AuxiliaryStateInvariants}
    (hX : AuxFacts c.problem X) {τ : Trace} (hτ : c.problem.BootstrapPrefix τ) :
    ∃ τ', BoundedFacts c.problem tracked X τ' ∧
      τ' (boundedDepth c.problem) = τ c.problem.resetBootstrapCycles := by
  have hlast : c.problem.postBootstrap.Reachable (τ c.problem.resetBootstrapCycles) :=
    .init ⟨τ, hτ, rfl⟩
  cases hconcrete : startsAtConcreteBootstrapFrontier c.problem with
  | true =>
    -- only the frame where the bootstrap ends
    have hdepth : boundedDepth c.problem = 0 := by simp [boundedDepth, hconcrete]
    refine ⟨fun _ => τ c.problem.resetBootstrapCycles, ?_, rfl⟩
    exact
      { path := fun k hk => absurd hk (by omega)
        asserted := fun k hk => absurd hk (by omega)
        domain := fun _ _ => hτ.domainValid hc.preserves _ le_rfl
        auxiliary := fun _ _ => hX.reachable _ hlast
        initial := fun h => by rw [hconcrete] at h; cases h
        matching := fun h => by rw [hconcrete] at h; cases h
        bootstrap := hτ.bootstrap }
  | false =>
    have hdepth : boundedDepth c.problem = c.problem.resetBootstrapCycles := by
      simp [boundedDepth, hconcrete]
    refine ⟨τ, ?_, by rw [hdepth]⟩
    exact
      { path := fun k hk => hτ.path k (hdepth ▸ hk)
        asserted := fun k hk => hτ.asserted k (hdepth ▸ hk)
        domain := fun k hk => hτ.domainValid hc.preserves k (hdepth ▸ hk)
        auxiliary := fun k hk => by
          rcases Nat.lt_or_eq_of_le hk with hlt | heq
          · exact hX.resetFrames (by omega) τ hτ k (hdepth ▸ hlt)
          · rw [heq, hdepth]
            exact hX.reachable _ hlast
        initial := fun _ => hτ.initial
        matching := fun _ hzero hinitial hexplicit => by
          obtain ⟨υ, hagree, hproperty⟩ := hτ.matching (hdepth ▸ hzero) hinitial hexplicit
          exact ⟨υ, fun s hs => hagree s (htracked s hs), hproperty⟩
        bootstrap := hdepth ▸ hτ.bootstrap }

/-- The bounded interpolant covers where the bootstrap ends. -/
theorem boundedRegion_covers (hc : c.Certified) {tracked : List Nat}
    (htracked : ∀ s ∈ tracked, s ∈ c.problem.combinedStateSymbols) {X : AuxiliaryStateInvariants}
    (hX : AuxFacts c.problem X) {cnf : CraigInterpolantCnf}
    {plan : Nat → ProjectedTransitionFrame}
    (hcnf : cnf.Interpolates (boundedDepth c.problem) (boundedA c.problem tracked X plan)
      (boundedB c.problem tracked)) {σ : Valuation} (hσ : c.problem.postBootstrap.init σ) :
    (convertInterpolant S fresh cnf).Holds (lit σ) := by
  obtain ⟨τ, hτ, rfl⟩ := hσ
  obtain ⟨τ', hfacts, hlast⟩ := exists_boundedFacts hc htracked hX hτ
  obtain ⟨m, hstate, hm⟩ := exists_boundedA hfacts plan
  rw [holds_convertInterpolant, ← hlast, ← hstate]
  exact hcnf.implied m hm

theorem concreteRegion_covers {tracked : List Nat} {r : InterpolantRegion}
    (h : buildConcreteAssignmentRegion c.problem.bootstrapStateAssignments tracked = some r)
    {σ : Valuation} (hσ : c.problem.postBootstrap.init σ) : r.Holds (lit σ) := by
  obtain ⟨τ, hτ, rfl⟩ := hσ
  exact (holds_concreteRegion h _).mpr (cubeHolds_of_constantsHold hτ.bootstrap tracked)

theorem initial_excludes (hc : c.Certified) {tracked : List Nat} {X : AuxiliaryStateInvariants}
    (hX : AuxFacts c.problem X) {initial : InterpolantRegion} (htotal : initial.Total)
    (hexcludes : craigInvariantExcludesBad c.problem tracked X S fresh [initial] = true) :
    Safe c initial := fun _ hσ hholds =>
  excludesBad_sound hexcludes (List.forall_mem_singleton.mpr htotal)
    (reachable_domainValid hc.preserves hσ) (hX.reachable _ hσ) (reachable_released hσ)
    (List.mem_singleton.mpr rfl) hholds

/-! ## Runs -/

/-- What an `Equivalent` result says. -/
structure CraigCertificate (c : CraigConfig) (r : CraigImcResult) : Prop where
  safe : ∀ σ, c.problem.postBootstrap.Reachable σ → c.problem.bad.eval σ = false
  covers : ∀ σ, c.problem.postBootstrap.Reachable σ → ∃ R ∈ r.invariantRegions, R.Holds (lit σ)
  auxiliary : ∀ σ, c.problem.postBootstrap.Reachable σ → r.auxiliaryStateInvariants.Hold σ

structure RoundInv (c : CraigConfig) (tracked : List Nat) (X : AuxiliaryStateInvariants) :
    Prop where
  tracked : ∀ s ∈ tracked, s ∈ c.problem.combinedStateSymbols
  auxiliary : AuxFacts c.problem X

def StateInv (c : CraigConfig) : CraigState → Prop
  | .round _ tracked X => RoundInv c tracked X
  | .looping _ loop => LoopInv c loop
  | .finished r => r.status = .equivalent → CraigCertificate c r

def OutcomeInv (c : CraigConfig) : LoopOutcome → Prop
  | .again loop => LoopInv c loop
  | .done r loop => RoundInv c loop.tracked loop.projectionAuxiliary ∧
      (r.status = .equivalent → CraigCertificate c r)

theorem mem_combined_of_stateSymbolSet {p : KInductionProblem} {s : Nat}
    (h : s ∈ p.stateSymbolSet) : s ∈ p.combinedStateSymbols := by
  simp only [stateSymbolSet, List.mem_append] at h
  simp only [combinedStateSymbols, List.mem_append]
  exact .inl h

theorem insertTracked_states {p : KInductionProblem} {tracked added : List Nat}
    (h : ∀ s ∈ tracked, s ∈ p.combinedStateSymbols) :
    ∀ s ∈ insertTracked p tracked added, s ∈ p.combinedStateSymbols := by
  intro s hs
  rcases List.mem_append.mp hs with hs | hs
  · exact h s hs
  · have hstate := (List.mem_filter.mp (List.mem_dedup.mp hs)).2
    rw [Bool.and_eq_true, List.contains_iff_mem] at hstate
    exact mem_combined_of_stateSymbolSet hstate.1

/-- A loop that stops without a result keeps what the next round starts from. -/
theorem LoopInv.stop {loop : CraigLoop} (h : LoopInv c loop) (added : List Nat)
    {status : CraigImcStatus} (hstatus : status ≠ .equivalent) (iterations : Nat) :
    OutcomeInv c (.stop { loop with tracked := insertTracked c.problem loop.tracked added }
      status iterations) :=
  ⟨⟨insertTracked_states h.tracked, h.projection⟩, fun heq => absurd heq hstatus⟩

theorem LoopInv.stopHere {loop : CraigLoop} (h : LoopInv c loop) {status : CraigImcStatus}
    (hstatus : status ≠ .equivalent) (iterations : Nat) :
    OutcomeInv c (.stop loop status iterations) :=
  ⟨⟨h.tracked, h.projection⟩, fun heq => absurd heq hstatus⟩

theorem outcomeInv_refineOrRestart {loop : CraigLoop} (h : LoopInv c loop) (choice : LoopChoice) :
    OutcomeInv c (refineOrRestart c loop choice) := by
  unfold refineOrRestart
  dsimp only
  split
  · exact h.stop _ (by decide) _
  · split
    · exact h.stopHere (by decide) _
    · split
      · exact h.stopHere (by decide) _
      · exact h.restart

theorem outcomeInv_satPass (hc : c.Certified) {loop : CraigLoop} (h : LoopInv c loop)
    (choice : LoopChoice) : OutcomeInv c (satPass S fresh c loop choice) := by
  unfold satPass
  dsimp only
  split
  · rename_i mined _ hlocal
    split at hlocal
    · exact h.mine hc hlocal
    · cases hlocal
  · rename_i mined _ hselected
    split at hselected
    · cases hselected
    · obtain ⟨mining, _, hmined⟩ := Option.bind_eq_some_iff.mp hselected
      exact h.mine hc hmined
  · exact outcomeInv_refineOrRestart h choice

theorem outcomeInv_overBudget (hc : c.Certified) {loop : CraigLoop} (h : LoopInv c loop)
    {choice : LoopChoice} {cnf : CraigInterpolantCnf}
    (hcnf : cnf.Interpolates 1 (loop.queryA c choice.plan) (loop.queryB c choice.plan)) :
    OutcomeInv c (overBudget S fresh c loop choice (convertInterpolant S fresh cnf)) := by
  unfold overBudget
  dsimp only
  split
  · exact h.stop _ (by decide) _
  · split
    · exact h.expand hc hcnf
    · split
      · exact h.restart
      · exact h.stopHere (by decide) _

theorem outcomeInv_unsatPass (hc : c.Certified) {loop : CraigLoop} (h : LoopInv c loop)
    {choice : LoopChoice} {cnf : CraigInterpolantCnf}
    (hcnf : cnf.Interpolates 1 (loop.queryA c choice.plan) (loop.queryB c choice.plan)) :
    OutcomeInv c (unsatPass S fresh c loop choice cnf) := by
  unfold unsatPass
  dsimp only
  split
  · rename_i hcontained
    have hclosed : ∀ σ, c.problem.postBootstrap.Reachable σ →
        ∃ r ∈ loop.reachableRegions, r.Holds (lit σ) :=
      fun σ hσ => closed_of_contained hc h hcnf hcontained hσ
    refine ⟨⟨h.tracked, h.projection⟩, fun _ => ⟨fun σ hσ => ?_, hclosed, h.active.reachable⟩⟩
    obtain ⟨r, hr, hholds⟩ := hclosed σ hσ
    exact h.safe r hr σ hσ hholds
  · split
    · exact outcomeInv_overBudget hc h hcnf
    · exact h.expand hc hcnf

theorem outcomeInv_loopPass (hc : c.Certified) {loop : CraigLoop} (h : LoopInv c loop)
    {choice : LoopChoice}
    (hanswers : ∀ cnf, choice.answer = .unsat cnf →
      cnf.Interpolates 1 (loop.queryA c choice.plan) (loop.queryB c choice.plan))
    {outcome : LoopOutcome} (hpass : loopPass S fresh c loop choice = some outcome) :
    OutcomeInv c outcome := by
  unfold loopPass at hpass
  split at hpass
  · obtain rfl := Option.some.inj hpass
    exact h.stopHere (by split <;> decide) _
  · split at hpass
    · obtain rfl := Option.some.inj hpass
      exact h.stopHere (by decide) _
    · split at hpass
      · cases hpass
      · split at hpass
        · rename_i cnf hanswer
          obtain rfl := Option.some.inj hpass
          exact outcomeInv_unsatPass hc h (hanswers cnf hanswer)
        · obtain rfl := Option.some.inj hpass
          exact outcomeInv_satPass hc h choice

theorem stateInv_finishRound {tracked : List Nat} {X : AuxiliaryStateInvariants}
    (hround : RoundInv c tracked X) {r : CraigImcResult}
    (hresult : r.status = .equivalent → CraigCertificate c r) (n size : Nat) :
    StateInv c (finishRound n size tracked X r) := by
  unfold finishRound
  split
  · exact hresult
  · exact hround

theorem stateInv_startLoop (hc : c.Certified) {tracked : List Nat} {X : AuxiliaryStateInvariants}
    (hround : RoundInv c tracked X) {initial : InterpolantRegion} (htotal : initial.Total)
    (hcovers : ∀ σ, c.problem.postBootstrap.init σ → initial.Holds (lit σ)) (n : Nat)
    {concrete : Bool} (hcube : concrete = true → buildConcreteAssignmentRegion
      c.problem.bootstrapStateAssignments tracked = some initial) : StateInv c (startLoop S fresh c n tracked X initial concrete) := by
  unfold startLoop
  split
  · rename_i hexcludes
    have hsafe := initial_excludes hc hround.auxiliary htotal hexcludes
    exact
      { tracked := hround.tracked
        active := hround.auxiliary
        projection := hround.auxiliary
        lookahead := le_rfl
        initial_total := htotal
        initial_safe := hsafe
        initial_covers := hcovers
        cube := hcube
        nonempty := List.cons_ne_nil _ _
        total := List.forall_mem_singleton.mpr htotal
        safe := List.forall_mem_singleton.mpr hsafe
        covers := fun σ hσ => ⟨initial, List.mem_singleton.mpr rfl, hcovers σ hσ⟩
        closed := by
          rintro σ _ hσ _ ⟨r, hr, hholds⟩
          obtain rfl := List.mem_singleton.mp hr
          exact .inl (sourceHolds_initial rfl hcube htotal hσ hholds) }
  · exact stateInv_finishRound hround (fun h => by cases concrete <;> cases h) _ _

theorem stateInv_roundStep (hc : c.Certified) {tracked : List Nat} {X : AuxiliaryStateInvariants}
    (hround : RoundInv c tracked X) {choice : RoundChoice}
    (hanswers : ∀ cnf, choice.answer = .unsat cnf → cnf.Interpolates (boundedDepth c.problem)
      (boundedA c.problem tracked X choice.plan) (boundedB c.problem tracked)) (n : Nat) :
    StateInv c (roundStep S fresh c n tracked X choice) := by
  unfold roundStep
  split
  · exact fun h => by cases h
  · split
    · exact fun h => by cases h
    · split
      · rename_i initial hinitial
        exact stateInv_startLoop hc hround (total_concreteRegion hinitial)
          (fun σ hσ => concreteRegion_covers hinitial hσ) n fun _ => hinitial
      · split
        · rename_i cnf hanswer
          have hcnf := hanswers cnf hanswer
          exact stateInv_startLoop hc hround (total_convertInterpolant hcnf.total)
            (fun σ hσ => boundedRegion_covers hc hround.tracked hround.auxiliary hcnf hσ) n
            fun h => by cases h
        · exact stateInv_finishRound ⟨insertTracked_states hround.tracked, hround.auxiliary⟩
            (fun h => by cases h) _ _

theorem stateInv_step (hc : c.Certified)
    {s s' : CraigState} {choice : CraigChoice} (h : StateInv c s)
    (hanswers : Answers c s choice) (hstep : craigStep S fresh c s choice = some s') :
    StateInv c s' := by
  match s, choice with
  | .round n tracked X, .round choice =>
    obtain rfl := Option.some.inj hstep
    exact stateInv_roundStep hc h hanswers n
  | .looping n loop, .image choice =>
    simp only [craigStep] at hstep
    split at hstep
    · rename_i next hpass
      obtain rfl := Option.some.inj hstep
      exact outcomeInv_loopPass hc h hanswers hpass
    · rename_i result after hpass
      obtain rfl := Option.some.inj hstep
      obtain ⟨hround, hresult⟩ := outcomeInv_loopPass hc h hanswers hpass
      exact stateInv_finishRound hround hresult n _
    · cases hstep
  | .round _ _ _, .image _ => cases hstep
  | .looping _ _, .round _ => cases hstep
  | .finished _, _ => cases hstep

/-! ### The first state -/

theorem closeSameDesign_states {p : KInductionProblem} (hrelates : p.RelatesStates)
    {syms : Finset Nat} (h : ∀ s ∈ syms, s ∈ p.combinedStateSymbols) :
    ∀ s ∈ closeSameDesignStateSemantics p syms, s ∈ p.combinedStateSymbols := by
  have hcomplement : ∀ pr ∈ p.complementedStatePairs,
      (pr.1 ∈ p.combinedStateSymbols ↔ pr.2 ∈ p.combinedStateSymbols) := fun pr hpr =>
    iff_of_true (hrelates.complements pr hpr)
      (p.complements_state _ (List.mem_map.mpr ⟨pr, hpr, rfl⟩))
  have hequal : ∀ pr ∈ p.sameFrameStateEqualityPairs,
      (pr.1 ∈ p.combinedStateSymbols ↔ pr.2 ∈ p.combinedStateSymbols) := fun pr hpr =>
    iff_of_true (hrelates.equalities pr hpr).1 (hrelates.equalities pr hpr).2
  unfold closeSameDesignStateSemantics
  refine addPartners_induction (closePairs_induction (closePairs_induction
    (closePairs_induction (closePairs_induction h ?_) ?_) ?_) ?_) ?_
  · exact fun pr hpr => hcomplement pr (List.mem_append_left _ hpr)
  · exact fun pr hpr => hcomplement pr (List.mem_append_right _ hpr)
  · exact fun pr hpr => hequal pr (List.mem_append_left _ hpr)
  · exact fun pr hpr => hequal pr (List.mem_append_right _ hpr)
  · intro pr hpr
    obtain ⟨r, hr, rfl⟩ := List.mem_map.mp hpr
    exact iff_of_true (hrelates.rails r hr).1 (hrelates.rails r hr).2

theorem seededTracked_states {p : KInductionProblem} (hrelates : p.RelatesStates)
    (seeds : List Nat) : ∀ s ∈ seededTrackedStates p seeds, s ∈ p.combinedStateSymbols := by
  have hstates : ∀ (syms : Finset Nat), ∀ s ∈ syms ∩ p.stateSymbolSet.toFinset,
      s ∈ p.combinedStateSymbols := fun syms s hs =>
    mem_combined_of_stateSymbolSet (List.mem_toFinset.mp (Finset.mem_inter.mp hs).2)
  unfold seededTrackedStates
  dsimp only
  split
  · exact closeSameDesign_states hrelates (hstates _)
  · refine closeSameDesign_states hrelates fun s hs => ?_
    rcases Finset.mem_union.mp hs with hs | hs
    · exact closeSameDesign_states hrelates (hstates _) s hs
    · exact hstates _ s hs

theorem subset_closeSameDesign (p : KInductionProblem) (syms : Finset Nat) :
    syms ⊆ closeSameDesignStateSemantics p syms := by
  unfold closeSameDesignStateSemantics
  exact (subset_closePairs _ _ _).trans ((subset_closePairs _ _ _).trans
    ((subset_closePairs _ _ _).trans ((subset_closePairs _ _ _).trans (subset_addPartners _ _))))

/-- A bad predicate over some state leaves something to track. -/
theorem seededTracked_nonempty {p : KInductionProblem}
    (h : (p.bad.getSupportVars ∩ p.stateSymbolSet.toFinset).Nonempty) (seeds : List Nat) :
    sortedSymbols (seededTrackedStates p seeds) ≠ [] := by
  obtain ⟨s, hs⟩ := h
  have hmem : s ∈ seededTrackedStates p seeds := by
    unfold seededTrackedStates
    dsimp only
    split
    · exact subset_closeSameDesign p _ hs
    · exact subset_closeSameDesign p _ (Finset.mem_union_left _ (subset_closeSameDesign p _ hs))
  exact List.ne_nil_of_mem (mem_sortedSymbols.mpr hmem)

theorem stateInv_initial (hc : c.Certified)
    (hbad : (c.problem.bad.getSupportVars ∩ c.problem.stateSymbolSet.toFinset).Nonempty) :
    StateInv c (initialCraigState S fresh c) := by
  unfold initialCraigState
  dsimp only
  rw [if_neg (seededTracked_nonempty hbad _)]
  exact
    { tracked := fun s hs => seededTracked_states hc.relates _ s (mem_sortedSymbols.mp hs)
      auxiliary := auxFacts_initial hc }

theorem inductive_stateInv (hc : c.Certified)
    (hbad : (c.problem.bad.getSupportVars ∩ c.problem.stateSymbolSet.toFinset).Nonempty) :
    (craigChecker S fresh c).Inductive (StateInv c) where
  init := by
    rintro _ rfl
    exact stateInv_initial hc hbad
  step _ _ _ h hstep := stateInv_step hc h hstep.1 hstep.2

/-- With facts that hold under reset as well, `Equivalent` is a certificate: no frame
after the bootstrap is bad, and each one is in a returned region and meets the returned
facts. -/
theorem craigChecker_sound (hc : c.Certified)
    (hbad : (c.problem.bad.getSupportVars ∩ c.problem.stateSymbolSet.toFinset).Nonempty)
    {result : CraigImcResult} (hrun : (craigChecker S fresh c).Reachable (.finished result))
    (hequivalent : result.status = .equivalent) : CraigCertificate c result :=
  (inductive_stateInv hc hbad).reachable hrun hequivalent

/-! ## Single steps of a run -/

theorem startLoop_of_excludes {n : Nat} {tracked : List Nat} {X : AuxiliaryStateInvariants}
    {initial : InterpolantRegion} {concrete : Bool}
    (h : craigInvariantExcludesBad c.problem tracked X S fresh [initial] = true) :
    startLoop S fresh c n tracked X initial concrete = .looping n
      { tracked := tracked
        concreteInitialRegion := initial
        hasConcreteInitialCube := concrete
        reachableRegions := [initial]
        activeAuxiliary := X
        projectionAuxiliary := X } := by
  rw [startLoop, if_pos h]

/-- A round without a bootstrap cube. -/
theorem roundStep_unsat {n : Nat} {tracked : List Nat} {X : AuxiliaryStateInvariants}
    {choice : RoundChoice} {cnf : CraigInterpolantCnf}
    (hround : n ≤ c.problem.stateSymbolSet.length)
    (hbudget : choice.projectionBudgetExceeded = false)
    (hcube : buildConcreteAssignmentRegion c.problem.bootstrapStateAssignments tracked = none)
    (hanswer : choice.answer = .unsat cnf) :
    roundStep S fresh c n tracked X choice =
      startLoop S fresh c n tracked X (convertInterpolant S fresh cnf) false := by
  rw [roundStep, if_neg (Nat.not_lt.mpr hround), hbudget, if_neg (by decide), hcube, hanswer]

/-- A pass with an interpolant. -/
theorem loopPass_unsat {loop : CraigLoop} {choice : LoopChoice} {cnf : CraigInterpolantCnf}
    (hlookahead : loop.lookahead ≤ c.maxLookahead) (hbudget : choice.buildBudgetExceeded = false)
    (hregions : ∀ r ∈ c.helperInvariantRegions ++ loop.reachableRegions,
      r.instantiable loop.tracked = true) (hanswer : choice.answer = .unsat cnf) :
    loopPass S fresh c loop choice = some (unsatPass S fresh c loop choice cnf) := by
  rw [loopPass, if_neg (Nat.not_lt.mpr hlookahead), hbudget, if_neg (by decide),
    List.all_eq_true.mpr hregions, if_neg (by decide), hanswer]

theorem unsatPass_of_contained {loop : CraigLoop} {choice : LoopChoice} {cnf : CraigInterpolantCnf}
    (h : regionContainedInReachableUnion c.problem loop.tracked c.helperInvariantRegions
      loop.activeAuxiliary S fresh loop.reachableRegions (convertInterpolant S fresh cnf) = true) :
    unsatPass S fresh c loop choice cnf = .done (makeCraigEquivalentResult loop) loop := by
  unfold unsatPass
  dsimp only
  rw [if_pos h]
end Loop

/-! ## A chain behind a reset -/

/-- Register 5 is set by the reset and stays set, register 6 follows it one frame later. -/
def resetChainProblem (s : Nat) : KInductionProblem where
  resetBootstrapCycles := 1
  resetBootstrapInputs := [(7, true)]
  state0Symbols := [5, 6]
  allSymbols := [5, 6, 7]
  transitions0 := [(5, .or (.var 7) (.var 5)), (6, .var 5)]
  property := .var s
  bad := .not (.var s)

def resetChainConfig (s : Nat) (constants : List (Nat × Bool)) : CraigConfig where
  problem := resetChainProblem s
  helperAuxiliary := { constants := constants }
  maxLookahead := 1

/-- The monitored register alone, or register 6 with the fact that register 5 is set. -/
def ResetChainCase (s : Nat) (constants : List (Nat × Bool)) : Prop :=
  (s = 5 ∧ constants = []) ∨ (s = 6 ∧ constants = [(5, true)])

theorem ResetChainCase.two_le {s : Nat} {constants : List (Nat × Bool)}
    (h : ResetChainCase s constants) : 2 ≤ s := by
  rcases h with ⟨rfl, _⟩ | ⟨rfl, _⟩ <;> decide

def literalInterpolant (s : Nat) (v : Bool) : CraigInterpolantCnf := .normal [] ⟨.global s, v⟩

def literalRegion (s : Nat) (v : Bool) : InterpolantRegion :=
  { type := .normal, root := ⟨.state s, v⟩ }

def resetChainPlan (s : Nat) : Nat → ProjectedTransitionFrame :=
  fun _ => { targets := [s], leaves := [5] }

def resetChainLoop (s : Nat) (constants : List (Nat × Bool)) : CraigLoop where
  tracked := [s]
  concreteInitialRegion := literalRegion s true
  hasConcreteInitialCube := false
  reachableRegions := [literalRegion s true]
  activeAuxiliary := { constants := constants }
  projectionAuxiliary := { constants := constants }

theorem holds_literalInterpolant (s : Nat) (v : Bool) (σ : Nat → Bool) :
    (literalInterpolant s v).Holds σ ↔ σ s = v := by
  simp [literalInterpolant, CraigInterpolantCnf.Holds, CraigInterpolantCnf.values, evalQuery, evalLit]

theorem resetChain_excludesBad {s : Nat} (h2 : 2 ≤ s) (X : AuxiliaryStateInvariants) :
    craigInvariantExcludesBad (resetChainProblem s) [s] X craigSolver () [literalRegion s true] = true := by
  rw [craigInvariantExcludesBad, if_neg (by simp)]
  refine answersUnsat_of_not_satisfiable craigSolver_decides ?_
  rintro ⟨m, hm⟩
  have hsource : regionSource [literalRegion s true] = [[⟨.leaf (.state 0 s), true⟩]] := rfl
  have hroot : (encodeBadFormulaRoot (resetChainProblem s) [s] 0).2 =
    ⟨.formula (.encoder .bad 0 [s]) (.not (.var s)), true⟩ := rfl
  simp only [excludesBadQuery, evalQuery_append, Bool.and_eq_true, hsource, addBadFormula, hroot,
    evalQuery_cons, evalQuery_nil, evalClause_singleton, evalLit_mk_true, evalCraigAtom,
    BoolExpr.eval, eval_var_eq_lit, lit_of_two_le _ h2, LeafScope.values, LeafScope.leaf,
    List.mem_singleton, if_true, Bool.not_eq_true'] at hm
  rw [hm.1.2.1] at hm
  exact absurd hm.2.2.1 (by decide)

theorem resetChain_contained (s : Nat) (X : AuxiliaryStateInvariants) :
    regionContainedInReachableUnion (resetChainProblem s) [s] [] X craigSolver () [literalRegion s true]
      (literalRegion s true) = true := by
  rw [regionContainedInReachableUnion, if_neg (by simp [literalRegion]), if_neg (by simp)]
  refine answersUnsat_of_not_satisfiable craigSolver_decides ?_
  rintro ⟨m, hm⟩
  have hroots : (instantiateRegions .reachable 0 0 [literalRegion s true]).2 = [⟨.leaf (.state 0 s), true⟩] := rfl
  have hroot : (instantiateRegion .candidate 0 (literalRegion s true)).2 = ⟨.leaf (.state 0 s), true⟩ := rfl
  simp only [containmentQuery, evalQuery_append, Bool.and_eq_true, hroots, hroot, List.map_cons, List.map_nil, evalQuery_cons, evalQuery_nil, evalClause_singleton, evalLit_neg] at hm
  simp [hm] at hm

theorem initial_resetChain {s : Nat} {constants : List (Nat × Bool)}
    (h : ResetChainCase s constants) :
    initialCraigState craigSolver () (resetChainConfig s constants) =
      .round 0 [s] { constants := constants } := by
  have htracked : sortedSymbols (seededTrackedStates (resetChainProblem s) []) = [s] := by
    rcases h with ⟨rfl, _⟩ | ⟨rfl, _⟩ <;> decide +kernel
  unfold initialCraigState
  dsimp only [resetChainConfig]
  rw [htracked]
  rcases h with ⟨rfl, rfl⟩ | ⟨rfl, rfl⟩ <;> rfl

theorem bounded_resetChain {s : Nat} {constants : List (Nat × Bool)}
    (h : ResetChainCase s constants) :
    (literalInterpolant s true).Interpolates 1
      (boundedA (resetChainProblem s) [s] { constants := constants } (resetChainPlan s))
      (boundedB (resetChainProblem s) [s]) where
  total _ := ⟨fun _ => false, rfl⟩
  implied m hm := by
    rw [holds_literalInterpolant, CraigModel.state]
    rcases h with ⟨rfl, rfl⟩ | ⟨rfl, rfl⟩
    · have hq : boundedA (resetChainProblem 5) [5] {} (resetChainPlan 5) =
          litEquivalence ⟨.leaf (.state 1 5), true⟩
              ⟨.formula (.frame 0) (.or (.var 7) (.var 5)), true⟩ ++
            [[⟨.leaf (.state 0 7), true⟩]] := rfl
      simp [hq, litEquivalence, evalCraigAtom, BoolExpr.eval, LeafScope.values, LeafScope.leaf] at hm
      simpa [hm] using hm
    · have hq : boundedA (resetChainProblem 6) [6] { constants := [(5, true)] } (resetChainPlan 6) =
          litEquivalence ⟨.leaf (.state 1 6), true⟩ ⟨.formula (.frame 0) (.var 5), true⟩ ++
            [[⟨.leaf (.state 0 7), true⟩], [⟨.leaf (.state 0 5), true⟩]] := rfl
      simp [hq, litEquivalence, evalCraigAtom, BoolExpr.eval, LeafScope.values, LeafScope.leaf] at hm
      simpa [hm] using hm
  inconsistent m hm := by
    have h2 := h.two_le
    have hq : boundedB (resetChainProblem s) [s] = [[⟨.leaf (.leaf .bad 1 7), false⟩],
      [⟨.formula (.encoder .bad 1 [s]) (.not (.var s)), true⟩]] := by
      rcases h with ⟨rfl, _⟩ | ⟨rfl, _⟩ <;> rfl
    simp [hq, evalCraigAtom, BoolExpr.eval, eval_var_eq_lit, lit_of_two_le _ h2, LeafScope.values, LeafScope.leaf] at hm
    rw [holds_literalInterpolant, CraigModel.state]
    simp [hm]

theorem image_resetChain {s : Nat} {constants : List (Nat × Bool)}
    (h : ResetChainCase s constants) :
    (literalInterpolant s true).Interpolates 1
      ((resetChainLoop s constants).queryA (resetChainConfig s constants) (resetChainPlan s))
      ((resetChainLoop s constants).queryB (resetChainConfig s constants) (resetChainPlan s)) where
  total _ := ⟨fun _ => false, rfl⟩
  implied m hm := by
    rw [holds_literalInterpolant, CraigModel.state]
    rcases h with ⟨rfl, rfl⟩ | ⟨rfl, rfl⟩
    · have hq : (resetChainLoop 5 []).queryA (resetChainConfig 5 []) (resetChainPlan 5) =
          [[⟨.leaf (.state 0 5), true⟩]] ++
            litEquivalence ⟨.leaf (.state 1 5), true⟩
              ⟨.formula (.encoder .transition 0 [5]) (.or .createFalse (.var 5)), true⟩ ++
            [[⟨.leaf (.leaf .transition 0 7), false⟩]] := rfl
      simp [hq, litEquivalence, evalCraigAtom, BoolExpr.eval, LeafScope.values, LeafScope.leaf] at hm
      simpa [hm] using hm
    · have hq : (resetChainLoop 6 [(5, true)]).queryA (resetChainConfig 6 [(5, true)]) (resetChainPlan 6) =
          [[⟨.leaf (.state 0 6), true⟩]] ++ litEquivalence ⟨.leaf (.state 1 6), true⟩ ⟨.formula (.encoder .transition 0 [6]) .createTrue, true⟩ ++
            [[⟨.leaf (.leaf .transition 0 7), false⟩], [⟨.leaf (.leaf .transition 0 5), true⟩]] := rfl
      simp [hq, litEquivalence, evalCraigAtom] at hm
      exact hm.2.1
  inconsistent m hm := by
    have h2 := h.two_le
    have hq : (resetChainLoop s constants).queryB (resetChainConfig s constants) (resetChainPlan s) = [[⟨.leaf (.leaf .bad 1 7), false⟩],
      [⟨.formula (.encoder .bad 1 [s]) (.not (.var s)), true⟩]] := by
      rcases h with ⟨rfl, rfl⟩ | ⟨rfl, rfl⟩ <;> rfl
    simp [hq, evalCraigAtom, BoolExpr.eval, eval_var_eq_lit, lit_of_two_le _ h2, LeafScope.values, LeafScope.leaf] at hm
    rw [holds_literalInterpolant, CraigModel.state]
    simp [hm]

theorem resetChain_domainValid (s : Nat) (σ : Valuation) : (resetChainProblem s).DomainValid σ :=
  ⟨by simp [complementedStatePairs, resetChainProblem],
    by simp [sameFrameStateEqualityPairs, resetChainProblem], by simp [resetChainProblem]⟩

/-- After the reset register 5 is set. -/
theorem resetChain_set {s : Nat} {σ : Valuation}
    (h : (resetChainProblem s).postBootstrap.Reachable σ) : lit σ 5 = true := by
  induction h with
  | init hinit =>
    obtain ⟨τ, hτ, rfl⟩ := hinit
    have hreset : τ 0 7 = true := hτ.asserted 0 Nat.zero_lt_one (7, true) (by simp [resetChainProblem])
    have hstep : lit (τ 1) 5 = (τ 0 7 || τ 0 5) :=
      (hτ.path 0 Nat.zero_lt_one).transition (e := .or (.var 7) (.var 5)) rfl
    rw [hreset, Bool.true_or] at hstep
    exact hstep
  | @step σ σ' _ _ hstep ih =>
    have hset : σ 5 = true := ih
    have hnext : lit σ' 5 = (σ 7 || σ 5) := hstep.1.transition (e := .or (.var 7) (.var 5)) rfl
    rw [hnext, hset, Bool.or_true]

theorem resetChain_equivalent {s : Nat} {constants : List (Nat × Bool)}
    (h : ResetChainCase s constants) :
    (craigChecker craigSolver () (resetChainConfig s constants)).Reachable
      (.finished (makeCraigEquivalentResult (resetChainLoop s constants))) := by
  have hround : (craigChecker craigSolver () (resetChainConfig s constants)).Reachable
      (.round 0 [s] { constants := constants }) := .init (initial_resetChain h).symm
  have hloop : (craigChecker craigSolver () (resetChainConfig s constants)).Reachable
      (.looping 0 (resetChainLoop s constants)) := by
    refine .step (l := .round { plan := resetChainPlan s, answer := .unsat (literalInterpolant s true) })
      hround ⟨fun cnf hanswer => ?_, ?_⟩
    · obtain rfl := CraigAnswer.unsat.inj hanswer
      exact bounded_resetChain h
    · rw [craigStep, roundStep_unsat (Nat.zero_le _) rfl rfl rfl, startLoop_of_excludes]
      · rfl
      · exact resetChain_excludesBad h.two_le _
  refine .step (l := .image { plan := resetChainPlan s, answer := .unsat (literalInterpolant s true) })
    hloop ⟨fun cnf hanswer => ?_, ?_⟩
  · obtain rfl := CraigAnswer.unsat.inj hanswer
    exact image_resetChain h
  · have hregions : ∀ r ∈ [] ++ [literalRegion s true], r.instantiable [s] = true := by
      simp [literalRegion, InterpolantRegion.instantiable]
    rw [craigStep, loopPass_unsat (le_refl 1) rfl hregions rfl, unsatPass_of_contained]
    · rfl
    · exact resetChain_contained s _

theorem resetChain_auxFacts (s : Nat) : AuxFacts (resetChainProblem s) {} where
  reachable σ _ := hold_empty σ
  resetFrames _ τ _ k _ := hold_empty (τ k)

theorem resetChain_certified (s : Nat) : (resetChainConfig s []).Certified where
  preserves _ σ' _ _ := resetChain_domainValid s σ'
  relates := ⟨by simp [complementedStatePairs, resetChainConfig, resetChainProblem],
    by simp [sameFrameStateEqualityPairs, resetChainConfig, resetChainProblem],
    by simp [resetChainConfig, resetChainProblem]⟩
  separate := by simp [SeparateComplements, complementedStatePairs, resetChainConfig, resetChainProblem]
  helpers _ _ := .inl rfl
  auxiliary := resetChain_auxFacts s

/-- Register 5 is set in every frame after the reset. -/
theorem craigChecker_sound_resetChain :
    CraigCertificate (resetChainConfig 5 []) (makeCraigEquivalentResult (resetChainLoop 5 [])) :=
  craigChecker_sound (resetChain_certified 5) ⟨5, by decide +kernel⟩
    (resetChain_equivalent (.inl ⟨rfl, rfl⟩)) rfl

theorem resetChain_transitions {s q : Nat} {e : BoolExpr}
    (h : (resetChainProblem q).transitionAt s = some e) :
    (s = 5 ∧ e = .or (.var 7) (.var 5)) ∨ (s = 6 ∧ e = .var 5) := by
  have heager : (resetChainProblem q).transitionAt s =
      [(5, BoolExpr.or (.var 7) (.var 5)), (6, .var 5)].lookup s := by
    unfold transitionAt
    cases hlookup : (resetChainProblem q).eagerTransitions.lookup s with
    | none => exact hlookup.symm
    | some e => exact hlookup.symm
  rw [heager] at h
  obtain ⟨l₁, l₂, hsplit, _⟩ := List.lookup_eq_some_iff.mp h
  have hmem : (s, e) ∈ [(5, BoolExpr.or (.var 7) (.var 5)), (6, .var 5)] := by
    rw [hsplit]
    simp
  simpa using hmem

/-- Register 6 may still be cleared when the reset ends. -/
def resetChainTrace : Trace
  | 0 => fun s => s == 7
  | _ => fun s => s == 5

theorem resetChain_clear : (resetChainProblem 6).postBootstrap.Reachable (resetChainTrace 1) := by
  have hreset : ∀ r ∈ (resetChainProblem 6).resetBootstrapInputs, r = (7, true) := by
    simp [resetChainProblem]
  refine .init ⟨resetChainTrace, ?_, rfl⟩
  exact
    { initial := fun a ha => by cases ha
      matching := fun h => absurd h (by decide)
      domain := resetChain_domainValid 6 _
      path := fun k hk => by
        obtain rfl := Nat.lt_one_iff.mp hk
        refine advance_of_transitions (resetChain_domainValid 6 _) fun s e he => ?_
        obtain ⟨rfl, rfl⟩ | ⟨rfl, rfl⟩ := resetChain_transitions he <;> rfl
      asserted := fun k hk r hr => by
        obtain rfl := Nat.lt_one_iff.mp hk
        rw [hreset r hr]
        rfl
      released := fun r hr => by
        rw [hreset r hr]
        rfl
      bootstrap := fun a ha => by cases ha }

/-- The fact that register 5 is set holds after the reset only, and the bounded query
asserts it under reset: a frame with register 6 cleared is reached all the same. -/
theorem craigChecker_unsound :
    (resetChainProblem 6).PreservesDomain ∧ (resetChainProblem 6).RelatesStates ∧
    (resetChainProblem 6).SeparateComplements ∧
    (∀ σ, (resetChainProblem 6).postBootstrap.Reachable σ →
      (resetChainConfig 6 [(5, true)]).helperAuxiliary.Hold σ) ∧
    ∃ result, (craigChecker craigSolver () (resetChainConfig 6 [(5, true)])).Reachable
        (.finished result) ∧ result.status = .equivalent ∧
      ∃ σ, (resetChainProblem 6).postBootstrap.Reachable σ ∧
        (resetChainProblem 6).bad.eval σ = true := by
  refine ⟨(resetChain_certified 6).preserves, (resetChain_certified 6).relates,
    (resetChain_certified 6).separate, fun σ hσ => ⟨?_, fun e he => by cases he⟩, _,
    resetChain_equivalent (.inr ⟨rfl, rfl⟩), rfl, _, resetChain_clear, rfl⟩
  intro a ha
  obtain rfl := List.mem_singleton.mp ha
  exact resetChain_set hσ

end KeplerFormal
