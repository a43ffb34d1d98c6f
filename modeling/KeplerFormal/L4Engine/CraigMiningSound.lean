import KeplerFormal.L4Engine.CraigMining

/-!
# Mined invariants hold after the bootstrap

A positive answer of a preservation check is about one step, the candidates hold where
the bootstrap ends, and pruning leaves a set that is closed under the checks.

* `preservesConstant_sound`, `preservesEquality_sound`: the two checks.
* `reachable_deriveAuxiliary`, `reachable_deriveLocalAuxiliary`: the results hold in
  every frame after the bootstrap. The local pass assumes one more closure over the
  complement pairs than it checks; `Justified` says what that may add.
* `hold_merge`, `hold_helperAuxiliary`: collecting invariants.
-/
namespace KeplerFormal.KInductionProblem

open Core

variable {p : KInductionProblem} {σ : Type} {S : CraigSatSolver σ} {fresh : σ}

/-! ## The preservation checks -/

/-- The model that shows one frame. -/
def frameModel (σ : Valuation) : CraigModel := traceModel (fun _ => σ) (fun _ _ => σ) fun _ _ => false

theorem sees_frameModel (σ : Valuation) : Sees (frameModel σ) (.frame 0) σ := sees_frame 0

theorem eval_preservationAssumptions {X : AuxiliaryStateInvariants} {σ : Valuation}
    (hσ : p.DomainValid σ) (hX : X.Hold σ) (leaves : List Nat) :
    evalQuery (evalCraigAtom (frameModel σ)) (p.preservationAssumptions leaves X) = true := by
  rw [preservationAssumptions, evalQuery_append, (sees_frameModel σ).stateSemantics hσ,
    (sees_frameModel σ).auxiliaryInvariants hX, Bool.and_true]

theorem hold_empty (σ : Valuation) : AuxiliaryStateInvariants.Hold {} σ where
  constants := fun c hc => by cases hc
  equalities := fun e he => by cases he

theorem hold_of_constants {cs : Constants} {σ : Valuation} (h : ConstantsHold cs σ) :
    AuxiliaryStateInvariants.Hold { constants := cs } σ where
  constants := h
  equalities := by simp

theorem eval_of_constantBoolExprValue {e : BoolExpr} {v : Bool}
    (h : constantBoolExprValue e = some v) (σ : Valuation) : e.eval σ = v := by
  unfold constantBoolExprValue at h
  split at h
  · exact Option.some.inj h
  · exact Option.some.inj h
  · cases h

theorem mem_supportList {s x : Nat} : x ∈ p.supportList s ↔ x ∈ p.transitionSupport s := by
  simp [supportList]

theorem eval_of_knownSupport {target : Nat} {e : BoolExpr} (he : p.transitionAt target = some e)
    {cs : Constants} {v : Bool}
    (h : evaluateBoolExprWithKnownSupport e (p.supportList target) cs = some v) {σ : Valuation}
    (hcs : ConstantsHold cs σ) : e.eval σ = v := by
  unfold evaluateBoolExprWithKnownSupport at h
  split at h
  · rename_i hall
    rw [Option.some.injEq] at h
    rw [← h]
    refine BoolExpr.eval_congr fun s hs h2 => ?_
    have hmem := mem_supportList.mpr (transitionSupport_covers he hs h2)
    obtain ⟨w, hw⟩ := exists_lookup_of_mem_symbols
      (List.contains_iff_mem.mp (List.all_eq_true.mp hall s hmem))
    rw [hw, Option.getD_some, ← lit_of_two_le σ h2]
    exact hcs _ (mem_of_lookup hw)
  · cases h

/-- The next value of the target, from any of the three ways to know it. -/
theorem eval_of_preservesConstant {symbol : Nat} {value : Bool} {cs : Constants}
    (h : p.transitionPreservesStateConstant S fresh symbol value cs = true) {σ : Valuation}
    (hσ : p.DomainValid σ) (hcs : ConstantsHold cs σ) :
    ∃ t e, p.transitionConstantTargetFor symbol value = some t ∧ p.transitionAt t.1 = some e ∧
      e.eval σ = t.2 := by
  unfold transitionPreservesStateConstant at h
  cases htarget : p.transitionConstantTargetFor symbol value with
  | none => rw [htarget] at h; cases h
  | some t =>
    obtain ⟨target, targetValue⟩ := t
    simp only [htarget] at h
    cases he : p.transitionAt target with
    | none => rw [he] at h; cases h
    | some e =>
      refine ⟨_, e, rfl, he, ?_⟩
      simp only [he] at h
      cases hconst : constantBoolExprValue e with
      | some v =>
        simp only [hconst, beq_iff_eq] at h
        rw [eval_of_constantBoolExprValue hconst, h]
      | none =>
        simp only [hconst] at h
        cases hknown : evaluateBoolExprWithKnownSupport e (p.supportList target) cs with
        | some v =>
          simp only [hknown, beq_iff_eq] at h
          rw [eval_of_knownSupport he hknown hcs, h]
        | none =>
          simp only [hknown] at h
          split at h
          · cases h
          · by_contra hne
            refine not_satisfiable_of_answersUnsat h ⟨frameModel σ, ?_⟩
            rw [evalQuery_append, eval_preservationAssumptions hσ (hold_of_constants hcs),
              Bool.true_and, evalQuery_cons, evalQuery_nil, Bool.and_true, evalClause_singleton]
            have heval := (sees_frameModel σ).eval_formulaLit e
            rw [formulaLit, evalLit_mk_true] at heval
            rw [evalLit, heval]
            cases hv : e.eval σ <;> cases targetValue <;> simp_all

theorem preservesConstant_sound {symbol : Nat} {value : Bool} {cs : Constants}
    (h : p.transitionPreservesStateConstant S fresh symbol value cs = true) {σ σ' : Valuation}
    (hσ : p.DomainValid σ) (hσ' : p.DomainValid σ') (hcs : ConstantsHold cs σ)
    (hstep : p.Advance σ σ') : lit σ' symbol = value := by
  obtain ⟨t, e, htarget, he, heval⟩ := eval_of_preservesConstant h hσ hcs
  have hnext := (hstep.transition he).trans heval
  unfold transitionConstantTargetFor at htarget
  split at htarget
  · rw [Option.some.injEq] at htarget
    rw [← htarget] at hnext
    exact hnext
  · cases hprimary : p.primaryByComplement symbol with
    | none => rw [hprimary] at htarget; cases htarget
    | some a =>
      simp only [hprimary] at htarget
      split at htarget
      · rw [Option.some.injEq] at htarget
        rw [← htarget] at hnext
        rw [hσ'.complemented _ (mem_of_primaryByComplement hprimary), hnext, Bool.not_not]
      · cases htarget

theorem preservesEquality_sound {lhs rhs : Nat} {X : AuxiliaryStateInvariants}
    (h : p.transitionPreservesStateEquality S fresh lhs rhs X = true) {σ σ' : Valuation}
    (hσ : p.DomainValid σ) (hX : X.Hold σ) (hstep : p.Advance σ σ') : lit σ' lhs = lit σ' rhs := by
  unfold transitionPreservesStateEquality at h
  split at h
  · rename_i heq
    rw [heq]
  · split at h
    · rename_i e f he hf
      split at h
      · cases h
      · rw [hstep.transition he, hstep.transition hf]
        by_contra hne
        refine not_satisfiable_of_answersUnsat h ⟨frameModel σ, ?_⟩
        rw [evalQuery_append, eval_preservationAssumptions hσ hX, Bool.true_and]
        simp only [evalQuery_cons, evalClause_pair, evalLit_neg, evalQuery_nil,
          (sees_frameModel σ).eval_formulaLit]
        cases hv : e.eval σ <;> cases hw : f.eval σ <;> simp_all
    · cases h

/-! ## Where the bootstrap ends -/

theorem constantsHold_bootstrapAssignments {assignments : Constants} {σ : Valuation}
    (h : ConstantsHold assignments σ) (syms : List Nat) :
    ConstantsHold (bootstrapAssignmentsForSymbols assignments syms) σ := by
  intro c hc
  rcases mem_foldl_assignConstant hc with hc | ⟨hc, _⟩
  · exact h c (List.mem_of_mem_filter hc)
  · cases hc

theorem bootstrap_init {σ : Valuation} (h : p.postBootstrap.init σ) :
    ConstantsHold p.bootstrapStateAssignments σ := by
  obtain ⟨τ, hτ, rfl⟩ := h
  exact hτ.bootstrap

/-- An equality candidate relates two states with one bootstrap value. -/
theorem equal_of_mem_candidatesForDesign {states : List Nat} {eligible : Option (List Nat)}
    {bootstrapValues cs : Constants} {e : Nat × Nat}
    (h : e ∈ p.auxiliaryEqualityCandidatesForDesign states eligible bootstrapValues cs)
    {σ : Valuation} (hσ : ConstantsHold bootstrapValues σ) : lit σ e.1 = lit σ e.2 := by
  unfold auxiliaryEqualityCandidatesForDesign at h
  obtain ⟨s, hs, hcase⟩ := List.mem_filterMap.mp h
  split at hcase
  · rename_i anchor hfind
    split at hcase
    · cases hcase
    · -- both symbols carry the value of their bucket
      have hfound := List.find?_some hfind
      simp only [Bool.and_eq_true, beq_iff_eq] at hfound
      rw [List.mem_insertionSort, List.mem_filter] at hs
      simp only [Bool.and_eq_true] at hs
      obtain ⟨v, hv⟩ := Option.isSome_iff_exists.mp hs.2.1.1.2
      have hanchor : bootstrapValues.lookup anchor = some v := hfound.2.trans hv
      have hequal : lit σ anchor = lit σ s :=
        (hσ _ (mem_of_lookup hanchor)).trans (hσ _ (mem_of_lookup hv)).symm
      rw [Option.some.injEq] at hcase
      rw [← hcase, canonicalStateEqualityPair]
      split
      · exact hequal
      · exact hequal.symm
  · cases hcase

theorem equal_of_mem_candidates {eligible : Option (List Nat)} {bootstrapValues cs : Constants}
    {e : Nat × Nat} (h : e ∈ p.auxiliaryEqualityCandidates eligible bootstrapValues cs)
    {σ : Valuation} (hσ : ConstantsHold bootstrapValues σ) : lit σ e.1 = lit σ e.2 := by
  have hmem := List.mem_of_mem_take (List.mem_dedup.mp h)
  rcases List.mem_append.mp hmem with h | h
  · exact equal_of_mem_candidatesForDesign h hσ
  · exact equal_of_mem_candidatesForDesign h hσ

/-! ## The global pass -/

section Reachable
variable (hdomain : p.PreservesDomain)
include hdomain

theorem init_domainValid {σ : Valuation} (h : p.postBootstrap.init σ) : p.DomainValid σ :=
  (inductive_domainValid hdomain).init σ h

/-- Constants that hold where the bootstrap ends and pass the check under themselves
and some known facts. -/
theorem reachable_constants {candidates : Constants} {assumptions : Constants → Constants}
    (hinit : ∀ σ, p.postBootstrap.init σ → ConstantsHold candidates σ)
    (hassumptions : ∀ σ cs, p.postBootstrap.Reachable σ → ConstantsHold cs σ →
      ConstantsHold (assumptions cs) σ) {σ : Valuation} (hσ : p.postBootstrap.Reachable σ) :
    ConstantsHold (prune (fun cs c =>
      p.transitionPreservesStateConstant S fresh c.1 c.2 (assumptions cs))
        (candidates.length + 1) candidates) σ := by
  -- reachability itself is the known invariant of the pruning rule
  have hreach : p.postBootstrap.Inductive p.postBootstrap.Reachable :=
    ⟨fun _ h => .init h, fun _ _ _ h hstep => .step h hstep⟩
  let holds : Nat × Bool → Valuation → Prop := fun c σ => lit σ c.1 = c.2
  have hcheck : ∀ cs c σ (l : Unit) σ', p.transitionPreservesStateConstant S fresh c.1 c.2
      (assumptions cs) = true → p.postBootstrap.Reachable σ → p.postBootstrap.Reachable σ' →
      (∀ d ∈ cs, holds d σ) → p.postBootstrap.step σ l σ' → holds c σ' :=
    fun cs c σ _ σ' hcheck hr hr' hcs hstep => preservesConstant_sound hcheck
      (reachable_domainValid hdomain hr) (reachable_domainValid hdomain hr')
      (hassumptions σ cs hr hcs) hstep.1
  exact reachable_prune (Nat.lt_succ_self _) hreach (fun c hc σ hσ => hinit σ hσ c hc) hcheck hσ

theorem reachable_equalities {candidates existing : List (Nat × Nat)} {constants : Constants}
    (hinit : ∀ σ, p.postBootstrap.init σ → ∀ e ∈ candidates, lit σ e.1 = lit σ e.2)
    (hconstants : ∀ σ, p.postBootstrap.Reachable σ → ConstantsHold constants σ)
    (hexisting : ∀ σ, p.postBootstrap.Reachable σ → ∀ e ∈ existing, lit σ e.1 = lit σ e.2)
    {σ : Valuation} (hσ : p.postBootstrap.Reachable σ) :
    ∀ e ∈ prune (fun es e => p.transitionPreservesStateEquality S fresh e.1 e.2
        { constants := constants, equalities := existing ++ es }) (candidates.length + 1) candidates,
      lit σ e.1 = lit σ e.2 := by
  have hreach : p.postBootstrap.Inductive p.postBootstrap.Reachable :=
    ⟨fun _ h => .init h, fun _ _ _ h hstep => .step h hstep⟩
  let holds : Nat × Nat → Valuation → Prop := fun e σ => lit σ e.1 = lit σ e.2
  have hcheck : ∀ es e σ (l : Unit) σ', p.transitionPreservesStateEquality S fresh e.1 e.2
      { constants := constants, equalities := existing ++ es } = true →
      p.postBootstrap.Reachable σ → p.postBootstrap.Reachable σ' →
      (∀ d ∈ es, holds d σ) → p.postBootstrap.step σ l σ' → holds e σ' := by
    intro es e σ _ σ' hcheck hr _ hes hstep
    refine preservesEquality_sound hcheck (reachable_domainValid hdomain hr)
      ⟨hconstants σ hr, fun q hq => ?_⟩ hstep.1
    rcases List.mem_append.mp hq with hq | hq
    · exact hexisting σ hr q hq
    · exact hes q hq
  exact reachable_prune (Nat.lt_succ_self _) hreach (fun e he σ hσ => hinit σ hσ e he) hcheck hσ

theorem reachable_deriveAuxiliary (enabled : Bool) {σ : Valuation}
    (hσ : p.postBootstrap.Reachable σ) :
    (p.deriveAuxiliaryStateInvariants S fresh enabled).Hold σ := by
  unfold deriveAuxiliaryStateInvariants
  split
  · exact hold_empty σ
  · split
    · exact hold_empty σ
    · dsimp only
      have hbootstrap : ∀ σ, p.postBootstrap.init σ → ConstantsHold p.bootstrapStateConstants σ :=
        fun σ h => constantsHold_bootstrapAssignments (bootstrap_init h) _
      have hconstants := fun σ (hσ : p.postBootstrap.Reachable σ) =>
        @reachable_constants p _ S fresh hdomain
          (p.closeComplementStateConstants p.bootstrapStateConstants) id
          (fun σ h => constantsHold_closeComplement (init_domainValid hdomain h) (hbootstrap σ h))
          (fun _ _ _ h => h) σ hσ
      refine hold_closeAuxiliary (reachable_domainValid hdomain hσ) ⟨hconstants σ hσ, ?_⟩
      exact @reachable_equalities p _ S fresh hdomain _ [] _
        (fun σ h e he => equal_of_mem_candidates he (hbootstrap σ h)) hconstants
        (fun _ _ e he => by cases he) σ hσ

/-! ## The local pass -/

/-- What a local pass assumes of the states.
mirrors src/sec/imc/CraigInterpolatingModelChecker.cpp:2051-2060 -/
def localAssumptions (p : KInductionProblem) (choice : MiningChoice)
    (existing : AuxiliaryStateInvariants) : Constants :=
  p.closeComplementStateConstants ((p.localAuxiliaryCandidateConstants choice existing).foldl
    assignConstant (existing.constants.foldl assignConstant []))

/-- What a local pass assumes beyond its candidates follows from the invariants already known. -/
def Justified (p : KInductionProblem) (choice : MiningChoice)
    (existing : AuxiliaryStateInvariants) : Prop :=
  ∀ σ, p.DomainValid σ → existing.Hold σ → ∀ a ∈ p.localAssumptions choice existing,
    a.1 ∉ symbols (p.localAuxiliaryCandidateConstants choice existing) → lit σ a.1 = a.2

omit hdomain in
/-- The assumptions of a local pass beyond its candidates follow from the invariants
already known: a candidate's complement is a candidate itself. -/
theorem SeparateComplements.justified (hseparate : p.SeparateComplements) (choice : MiningChoice)
    (existing : AuxiliaryStateInvariants) : p.Justified choice existing := by
  intro σ hσ hexisting
  have hclosed := closed_foldl_closeComplementPair
    (if ((p.bootstrapStateAssignments.filter fun a =>
        choice.candidateSymbols.contains a.1 && !(symbols existing.constants).contains a.1).foldl
          emplaceConstant []).length ≤ localAuxiliaryCandidateLimit
        ((p.bootstrapStateAssignments.filter fun a =>
          choice.candidateSymbols.contains a.1 && !(symbols existing.constants).contains a.1).foldl
            emplaceConstant []).length
      then (p.bootstrapStateAssignments.filter fun a =>
        choice.candidateSymbols.contains a.1 && !(symbols existing.constants).contains a.1).foldl
          emplaceConstant []
      else ((p.bootstrapStateAssignments.filter fun a =>
        choice.candidateSymbols.contains a.1 && !(symbols existing.constants).contains a.1).foldl
          emplaceConstant []).filter fun c => choice.keep c.1) hseparate
  change ∀ pr ∈ p.complementedStatePairs,
    pr.1 ∈ symbols (p.localAuxiliaryCandidateConstants choice existing) ↔
      pr.2 ∈ symbols (p.localAuxiliaryCandidateConstants choice existing) at hclosed
  let known : Nat → Prop := (· ∈ symbols (p.localAuxiliaryCandidateConstants choice existing))
  refine @foldl_closeComplementPair_induction _ known _ _ (fun a ha hnew => ?_)
    (fun s hs => symbols_subset_foldl_assignConstant hs)
    (fun pr hpr v hv _ hnew => ?_) fun pr hpr v hv _ hnew => ?_
  · rcases mem_foldl_assignConstant ha with ha | ⟨ha, _⟩
    · exact absurd (List.mem_map.mpr ⟨a, ha, rfl⟩) hnew
    · rcases mem_foldl_assignConstant ha with ha | ⟨ha, _⟩
      · exact hexisting.constants a ha
      · cases ha
  · exact (hσ.complemented pr hpr).trans (congrArg _ (hv fun h => hnew ((hclosed pr hpr).mp h)))
  · have hpair := hσ.complemented pr hpr
    rw [show lit σ pr.2 = v from hv fun h => hnew ((hclosed pr hpr).mpr h)] at hpair
    simp [hpair]

omit hdomain in
theorem Justified.keptAssumptions {choice : MiningChoice} {existing : AuxiliaryStateInvariants}
    (hjustified : p.Justified choice existing) {σ : Valuation} (hσ : p.DomainValid σ)
    (hexisting : existing.Hold σ) {kept : Constants} (hkept : ConstantsHold kept σ) :
    ConstantsHold (KInductionProblem.keptAssumptions
      (p.localAuxiliaryCandidateConstants choice existing)
      (p.localAssumptions choice existing) kept) σ := by
  intro a ha
  obtain ⟨hmem, hcase⟩ := List.mem_filter.mp ha
  rcases Bool.or_eq_true_iff.mp hcase with hnew | hin
  · exact hjustified σ hσ hexisting a hmem (by simpa using hnew)
  · exact hkept a (List.contains_iff_mem.mp hin)

omit hdomain in
theorem constantsHold_localCandidates {choice : MiningChoice} {existing : AuxiliaryStateInvariants}
    {σ : Valuation} (hσ : p.DomainValid σ) (h : ConstantsHold p.bootstrapStateAssignments σ) :
    ConstantsHold (p.localAuxiliaryCandidateConstants choice existing) σ := by
  refine constantsHold_closeComplement hσ fun c hc => ?_
  have hmem : c ∈ (p.bootstrapStateAssignments.filter fun a =>
      choice.candidateSymbols.contains a.1 && !(symbols existing.constants).contains a.1).foldl
        emplaceConstant [] := by
    split at hc
    · exact hc
    · exact List.mem_of_mem_filter hc
  rcases mem_foldl_emplaceConstant hmem with hc | hc
  · cases hc
  · exact h c (List.mem_of_mem_filter hc)

theorem reachable_deriveLocalAuxiliary {choice : MiningChoice}
    {existing : AuxiliaryStateInvariants} (hjustified : p.Justified choice existing)
    (hexisting : ∀ σ, p.postBootstrap.Reachable σ → existing.Hold σ) {σ : Valuation}
    (hσ : p.postBootstrap.Reachable σ) :
    (p.deriveLocalAuxiliaryStateInvariants S fresh choice existing).Hold σ := by
  unfold deriveLocalAuxiliaryStateInvariants
  split
  · exact hold_empty σ
  · dsimp only
    split
    · exact hold_empty σ
    · have hkept := fun σ (hσ : p.postBootstrap.Reachable σ) kept =>
        @Justified.keptAssumptions p choice existing hjustified σ
          (reachable_domainValid hdomain hσ) (hexisting σ hσ) kept
      have hconstants := fun σ (hσ : p.postBootstrap.Reachable σ) =>
        @reachable_constants p _ S fresh hdomain (p.localAuxiliaryCandidateConstants choice existing)
          _ (fun σ h => constantsHold_localCandidates (init_domainValid hdomain h) (bootstrap_init h))
          (fun σ cs hr => hkept σ hr cs) σ hσ
      refine hold_closeAuxiliary (reachable_domainValid hdomain hσ) ⟨hconstants σ hσ, ?_⟩
      refine reachable_equalities hdomain (fun σ h e he => ?_)
        (fun σ hr => hkept σ hr _ (hconstants σ hr)) (fun σ hr => (hexisting σ hr).equalities) hσ
      exact equal_of_mem_candidates (List.mem_of_mem_filter he)
        (constantsHold_bootstrapAssignments (bootstrap_init h) _)

end Reachable

/-! ## Collecting invariants -/

theorem hold_merge {target additions : AuxiliaryStateInvariants} {σ : Valuation}
    (htarget : target.Hold σ) (hadditions : additions.Hold σ) :
    (mergeAuxiliaryStateInvariants target additions).Hold σ where
  constants c hc := (mem_foldl_emplaceConstant hc).elim (htarget.constants c) (hadditions.constants c)
  equalities := by
    have hfold : ∀ (es fs : List (Nat × Nat)), (∀ e ∈ es, lit σ e.1 = lit σ e.2) →
        (∀ e ∈ fs, lit σ e.1 = lit σ e.2) →
        ∀ e ∈ fs.foldl (fun es e =>
          if (es.map canonicalStateEqualityPair).contains (canonicalStateEqualityPair e) then es
          else es ++ [canonicalStateEqualityPair e]) es, lit σ e.1 = lit σ e.2 := by
      intro es fs
      induction fs generalizing es with
      | nil => exact fun hes _ => hes
      | cons f fs ih =>
        intro hes hfs
        rw [List.foldl_cons]
        refine ih _ ?_ fun e he => hfs e (by simp [he])
        split
        · exact hes
        · intro e he
          rcases List.mem_append.mp he with he | he
          · exact hes e he
          · have hf := hfs f (by simp)
            rw [List.mem_singleton.mp he, canonicalStateEqualityPair]
            split
            · exact hf
            · exact hf.symm
    exact hfold _ _ htarget.equalities hadditions.equalities

theorem hold_helperAuxiliary {helper : AuxiliaryStateInvariants} {σ : Valuation}
    (hσ : p.DomainValid σ) (h : helper.Hold σ) :
    (p.helperAuxiliaryStateInvariantsFromOptions helper).Hold σ := by
  have hclosed := hold_closeAuxiliary hσ h
  unfold helperAuxiliaryStateInvariantsFromOptions
  split
  · exact hold_empty σ
  · dsimp only
    split
    · exact hold_empty σ
    · exact ⟨fun c hc => hclosed.constants c (List.mem_dedup.mp hc),
        fun e he => hclosed.equalities e (List.mem_dedup.mp he)⟩

end KeplerFormal.KInductionProblem
