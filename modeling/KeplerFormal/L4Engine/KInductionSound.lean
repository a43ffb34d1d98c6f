import KeplerFormal.Core.Fallible
import KeplerFormal.L4Engine.KInduction

/-!
# What an `Equivalent` answer of k-induction is worth

A range of outputs may assume in its window that all outputs of the problem agree. That
is sound when all ranges close and the base case covers the deepest of them: on a run
that is bad for the first time no output differed before, so the range of an output that
differs now refutes it.

* `shorter_bad`: a window that a step query refutes shortens the run.
* `safe_of_steps`: the argument over all outputs at once.
* `runMonolithic_equivalent`, `runOutputRange_equivalent`, `runOutputBatches_equivalent`:
  what `Equivalent` means for one problem, a range and all batches.
* `ProvesOutputs`: the conditions; `run_equivalent_sound`: under them an `Equivalent`
  answer holds in every reachable state.
* `run_equivalent_unsound`: a problem whose start is only observed.
-/
namespace KeplerFormal

open Core

namespace KInductionProblem
variable {p : KInductionProblem}

/-! ## One step query -/

/-- Another proof attempt on the same system. -/
def SameSystem (p r : KInductionProblem) : Prop := ∃ view, r = p.observing view

theorem SameSystem.refl (p : KInductionProblem) : p.SameSystem p := ⟨p.ownView, rfl⟩

theorem SameSystem.trans {q r : KInductionProblem} (h : p.SameSystem q) (h' : q.SameSystem r) :
    p.SameSystem r := by
  obtain ⟨view, rfl⟩ := h
  obtain ⟨view', rfl⟩ := h'
  exact ⟨view', rfl⟩

theorem sameSystem_configureOutputBatchProblem (firstOutput endOutput : Nat) :
    p.SameSystem (p.configureOutputBatchProblem firstOutput endOutput) := ⟨_, rfl⟩

theorem sameSystem_applyDualRailSplitHypothesis (source : KInductionProblem)
    (hypothesis : PublicConjunctionHypothesis) :
    p.SameSystem (p.applyDualRailSplitHypothesis source hypothesis) := by
  unfold applyDualRailSplitHypothesis
  split
  · exact .refl p
  · exact ⟨_, rfl⟩

theorem spliced_observing (view : OutputView) (τ : Trace) (a d f : Nat) :
    (p.observing view).spliced τ a d f = p.spliced τ a d f := by
  induction f with
  | zero => rfl
  | succ f ih =>
    simp only [spliced, ih]
    rfl

/-- The last `k` steps of a run that end in a bad frame of `r` and before it keep the
hypothesis of `r` contradict a step query without model, unless the run can be shortened. -/
theorem shorter_bad {r : KInductionProblem} {k n : Nat} {τ : Trace} (hr : p.SameSystem r)
    (haux : p.auxiliaryStateSymbols = []) (hpres : p.PreservesDomain) (hk : k ≤ n)
    (hstart : n = k → p.StateStartup) (hunsat : ¬ Satisfiable evalAtom (r.inductionQuery k))
    (hrun : p.PostRun n τ)
    (hproperty : ∀ m < n, n ≤ m + k →
      r.selectedInductionProperty.eval (τ (p.frontierFrame m)) = true)
    (hbad : r.selectedInductionBad.eval (τ (p.frontierFrame n)) = true) :
    ∃ m < n, ∃ υ, p.PostRun m υ ∧
      r.selectedInductionBad.eval (υ (p.frontierFrame m)) = true := by
  obtain ⟨view, rfl⟩ := hr
  obtain ⟨w, rfl⟩ : ∃ w, n = w + k := ⟨n - k, by omega⟩
  have hframe : ∀ f, p.frontierFrame (w + f) = p.frontierFrame w + f := fun f => by
    unfold frontierFrame
    omega
  have hpath : (p.observing view).Path τ (p.frontierFrame w + k) := by
    rw [← hframe]
    exact hrun.unrolling.path
  have hwindow : (p.observing view).Window k fun f => τ (p.frontierFrame w + f) := by
    refine ⟨fun f hf => ?_, fun f hf => hpath _ (by omega), fun hc f hf => ?_, fun f hf => ?_, ?_⟩
    · have hvalid := hrun.unrolling.domain (p.frontierFrame w + f) (by rw [hframe]; omega)
      exact ⟨hvalid.complemented, hvalid.equal, hvalid.rails⟩
    · refine hrun.released hc (p.frontierFrame w + f) (by rw [hframe]; omega) ?_
      unfold frontierFrame
      omega
    · have hprop := hproperty (w + f) (by omega) (by omega)
      rwa [hframe] at hprop
    · rwa [hframe] at hbad
  have hcover : (p.observing view).SimplePathCoversCone k := by
    refine .inr (.inr fun s hs _ => ?_)
    have hmem : s ∈ p.auxiliaryStateSymbols := hs
    rw [haux] at hmem
    cases hmem
  obtain ⟨a, d, hd, hwa, had, hshort⟩ := exists_shorter_bad hunsat hcover hpath hwindow
  obtain ⟨c, rfl⟩ : ∃ c, a = p.frontierFrame (w + c) := ⟨a - p.frontierFrame w, by
    rw [hframe]
    omega⟩
  rw [hframe] at had hwa
  refine ⟨w + k - d, by omega, p.spliced τ (p.frontierFrame (w + c)) d,
    hrun.spliced hpres (by omega) (fun hzero => hstart (by omega)), ?_⟩
  have hend : p.frontierFrame (w + k - d) = p.frontierFrame w + k - d := by
    unfold frontierFrame
    omega
  rw [hend, ← spliced_observing view]
  exact hshort

/-- Without state a run that is bad anywhere is bad at the frontier. -/
theorem bad_at_frontier_of_no_state (hstate : p.combinedStateSymbols = []) (hstart : p.StateStartup)
    (hpres : p.PreservesDomain) {n : Nat} {τ : Trace} (hrun : p.PostRun n τ)
    (hbad : p.bad.eval (τ (p.frontierFrame n)) = true) : p.FrontierBad 0 := by
  have hshort := hrun.spliced (a := 0) (d := n) hpres (by omega) fun _ => hstart
  rw [Nat.sub_self] at hshort
  refine ⟨_, hshort.unrolling, ?_⟩
  rw [← hbad]
  refine BoolExpr.eval_congr_lit fun s _ _ => ?_
  rw [lit_spliced_input (Nat.le_refl _) (by rw [hstate]; exact List.not_mem_nil)]
  unfold frontierFrame
  rw [Nat.zero_add, Nat.add_comm]

/-! ## All outputs -/

/-- A step query that refutes windows ending in a difference of output `i`, where no output
of `p` differed before. -/
structure ClosesOutput (p r : KInductionProblem) (i k : Nat) : Prop where
  system : p.SameSystem r
  unsat : ¬ Satisfiable evalAtom (r.inductionQuery k)
  hypothesis : ∀ v, p.bad.eval v = false → r.selectedInductionProperty.eval v = true
  catches : ∀ v, p.outputDiffers i v → r.selectedInductionBad.eval v = true
  sound : ∀ v, r.selectedInductionBad.eval v = true → p.bad.eval v = true

/-- Every output is closed by some step of depth at most `K`, and the base case covers
`K` steps (or all but the last, where startup is about states only). -/
theorem safe_of_steps (haux : p.auxiliaryStateSymbols = []) (hpres : p.PreservesDomain)
    (hobserves : p.ObservesOutputs) {K : Nat}
    (hclosed : ∀ i < p.observedOutputExprs0.length, ∃ r, ∃ k ≤ K, p.ClosesOutput r i k)
    (hbase : ∀ n < K, ¬ p.FrontierBad n) (hlast : ¬ p.FrontierBad K ∨ p.StateStartup) :
    ∀ n τ, p.PostRun n τ → p.bad.eval (τ (p.frontierFrame n)) = false := by
  intro n
  -- on a run that is bad for the first time no output differed in an earlier frame
  induction n using Nat.strong_induction_on with
  | _ n ih =>
    intro τ hrun
    by_contra hbad
    rw [Bool.not_eq_false] at hbad
    obtain ⟨i, hi, hdiffers⟩ := (hobserves _).mp hbad
    obtain ⟨r, k, hk, hcloses⟩ := hclosed i hi
    have hKn : K ≤ n := by
      by_contra hlt
      exact hbase n (by omega) ⟨τ, hrun.unrolling, hbad⟩
    have hstart : n = k → p.StateStartup := by
      intro hnk
      obtain rfl : n = K := by omega
      exact hlast.resolve_left fun hno => hno ⟨τ, hrun.unrolling, hbad⟩
    obtain ⟨m, hm, υ, hυ, hshort⟩ := shorter_bad hcloses.system haux hpres (hk.trans hKn) hstart
      hcloses.unsat hrun (fun m hm _ => hcloses.hypothesis _ (ih m hm τ (hrun.take hm.le)))
      (hcloses.catches _ hdiffers)
    have hfalse := hcloses.sound _ hshort
    rw [ih m hm υ hυ] at hfalse
    cases hfalse

end KInductionProblem

open KInductionProblem

/-! ## What `Equivalent` means -/

section Runs
variable {σ : Type} {S : FrameSolver σ} {solverType : SolverType} {env : KInductionEnv}
  {maxK : Nat}

theorem validateConcreteBasePrefix_ne_equivalent {k : Nat} {s : σ} {p : KInductionProblem}
    {result : KInductionResult}
    (h : (validateConcreteBasePrefix S solverType k s p).1 = some result) :
    result.status ≠ .equivalent := by
  unfold validateConcreteBasePrefix at h
  split at h
  · split at h
    · cases h
      simp
    · cases h
  · split at h
    · cases h
      simp
    · cases h
      simp
    · cases h
    · cases h
      simp

/-- What the steps from `k` on prove when they end at `b`: the step query of `b` has no
model, its base prefix is validated where the problem asks for it, and no frontier
between `k` and `b` has a counterexample. -/
structure StepsProof (S : FrameSolver σ) (solverType : SolverType) (p : KInductionProblem)
    (k b : Nat) : Prop where
  le : k ≤ b
  unsat : ¬ Satisfiable evalAtom (p.inductionQuery b)
  validated : p.deferBaseCaseChecks = false → p.proofNeedsConcreteFrontierValidation = true →
    ∃ s, (validateConcreteBasePrefix S solverType b s p).1 = none
  frontiers : p.deferBaseCaseChecks = false → ∀ j, k ≤ j → j < b →
    ∃ s s', findImcBaseCounterexampleAtFrontier S solverType j s p = .ok (none, s')

theorem StepsProof.of_next {p : KInductionProblem} {k : Nat} {s s' : σ} {r : KInductionResult}
    {next : σ → Except String (KInductionResult × σ)}
    (hnext : ∀ s, next s = .ok (r, s') → r.status = .equivalent →
      StepsProof S solverType p (k + 1) r.bound)
    (hrun : checkFrontierThen S solverType k s p next = .ok (r, s'))
    (h : r.status = .equivalent) : StepsProof S solverType p k r.bound := by
  unfold checkFrontierThen at hrun
  split at hrun
  · obtain ⟨⟨witness, s₁⟩, hfrontier, hrun⟩ := bind_ok.mp hrun
    cases witness with
    | some badFrame =>
      obtain ⟨rfl, -⟩ := Prod.mk.inj (Except.ok.inj hrun)
      cases h
    | none =>
      have hsteps := hnext s₁ hrun h
      refine ⟨Nat.le_of_succ_le hsteps.le, hsteps.unsat, hsteps.validated, fun howns j hj hlt => ?_⟩
      rcases Nat.eq_or_lt_of_le hj with rfl | hlater
      · exact ⟨s, s₁, hfrontier⟩
      · exact hsteps.frontiers howns j hlater hlt
  · rename_i hcheck
    have hsteps := hnext s hrun h
    refine ⟨Nat.le_of_succ_le hsteps.le, hsteps.unsat, hsteps.validated, fun howns => ?_⟩
    exact absurd (by rw [shouldCheckLocalBaseCase, howns]; rfl) hcheck

theorem runInductionSteps_equivalent {p : KInductionProblem} {r : KInductionResult} {s' : σ}
    (remaining k limited : Nat) (s : σ)
    (hrun : runInductionSteps S solverType env maxK p remaining k limited s = .ok (r, s'))
    (h : r.status = .equivalent) : StepsProof S solverType p k r.bound := by
  induction remaining generalizing k limited s with
  | zero =>
    unfold runInductionSteps at hrun
    split at hrun
    · split at hrun
      · rename_i result s₁ hvalid
        obtain ⟨rfl, -⟩ := Prod.mk.inj (Except.ok.inj hrun)
        exact absurd h (validateConcreteBasePrefix_ne_equivalent (congrArg Prod.fst hvalid))
      · obtain ⟨rfl, -⟩ := Prod.mk.inj (Except.ok.inj hrun)
        cases h
    · obtain ⟨rfl, -⟩ := Prod.mk.inj (Except.ok.inj hrun)
      cases h
  | succ remaining ih =>
    unfold runInductionSteps at hrun
    split at hrun
    · -- the step is proved
      rename_i s₁ hproved
      have hunsat := not_satisfiable_of_proved (congrArg Prod.fst hproved)
      split at hrun
      · split at hrun
        · rename_i result s₂ hvalid
          obtain ⟨rfl, -⟩ := Prod.mk.inj (Except.ok.inj hrun)
          exact absurd h (validateConcreteBasePrefix_ne_equivalent (congrArg Prod.fst hvalid))
        · rename_i s₂ hvalid
          obtain ⟨rfl, -⟩ := Prod.mk.inj (Except.ok.inj hrun)
          exact ⟨Nat.le_refl _, hunsat, fun _ _ => ⟨s₁, congrArg Prod.fst hvalid⟩,
            fun _ j hj hlt => absurd hj (Nat.not_le.mpr hlt)⟩
      · rename_i hneeds
        obtain ⟨rfl, -⟩ := Prod.mk.inj (Except.ok.inj hrun)
        refine ⟨Nat.le_refl _, hunsat, fun howns hvalidate => ?_,
          fun _ j hj hlt => absurd hj (Nat.not_le.mpr hlt)⟩
        exact absurd (by rw [shouldCheckLocalBaseCase, howns, hvalidate]; rfl) hneeds
    · -- the step is undecided
      split at hrun
      · obtain ⟨rfl, -⟩ := Prod.mk.inj (Except.ok.inj hrun)
        cases h
      · split at hrun
        · obtain ⟨rfl, -⟩ := Prod.mk.inj (Except.ok.inj hrun)
          cases h
        · exact .of_next (fun s hnext _ => ih (k + 1) _ s hnext) hrun h
    · exact .of_next (fun s hnext _ => ih (k + 1) _ s hnext) hrun h

/-- What an `Equivalent` answer of one problem rests on. -/
structure MonolithicProof (S : FrameSolver σ) (solverType : SolverType) (p : KInductionProblem)
    (b : Nat) : Prop where
  base : p.deferBaseCaseChecks = false →
    ∃ s, (findBaseCounterexample S solverType 0 s p).1 = none
  steps : (p.combinedStateSymbols = [] ∧ b = 0) ∨
    (p.combinedStateSymbols ≠ [] ∧ StepsProof S solverType p 1 b)

theorem runMonolithic_equivalent {p : KInductionProblem} {s s' : σ} {r : KInductionResult}
    (hrun : runMonolithicKInduction S solverType env maxK s p = .ok (r, s'))
    (h : r.status = .equivalent) : MonolithicProof S solverType p r.bound := by
  have hafter : ∀ s, runAfterBase S solverType env maxK s p = .ok (r, s') →
      (p.combinedStateSymbols = [] ∧ r.bound = 0) ∨
        (p.combinedStateSymbols ≠ [] ∧ StepsProof S solverType p 1 r.bound) := by
    intro s hrun
    unfold runAfterBase at hrun
    split at hrun
    · rename_i hstate
      obtain ⟨rfl, -⟩ := Prod.mk.inj (Except.ok.inj hrun)
      exact .inl ⟨List.isEmpty_iff.mp hstate, rfl⟩
    · rename_i hstate
      exact .inr ⟨fun hnil => hstate (List.isEmpty_iff.mpr hnil),
        runInductionSteps_equivalent maxK 1 0 s hrun h⟩
  unfold runMonolithicKInduction at hrun
  split at hrun
  · split at hrun
    · obtain ⟨rfl, -⟩ := Prod.mk.inj (Except.ok.inj hrun)
      cases h
    · rename_i s₁ hsafe
      exact ⟨fun _ => ⟨s, congrArg Prod.fst hsafe⟩, hafter s₁ hrun⟩
  · rename_i hcheck
    refine ⟨fun howns => ?_, hafter s hrun⟩
    exact absurd (by rw [shouldCheckLocalBaseCase, howns]; rfl) hcheck

/-! ## One problem -/

/-- The formulas of a problem say what its outputs say, its induction formulas say the
same, and its relations are kept. -/
structure WellPosed (p : KInductionProblem) : Prop where
  auxiliary : p.auxiliaryStateSymbols = []
  sides : p.observedOutputExprs0.length = p.observedOutputExprs1.length
  observes : p.ObservesOutputs
  complement : ∀ v, p.property.eval v = !p.bad.eval v
  inductionProperty : ∀ v, p.selectedInductionProperty.eval v = p.property.eval v
  inductionBad : ∀ v, p.selectedInductionBad.eval v = p.bad.eval v
  domain : p.PreservesDomain

theorem WellPosed.excludes {p : KInductionProblem} (h : WellPosed p) (v : Valuation)
    (hbad : p.bad.eval v = true) : p.property.eval v = false := by
  rw [h.complement, hbad]
  rfl

theorem no_frontierBad_of_base {p : KInductionProblem} {k : Nat} {s : σ} (hS : S.DecidesUnlimited)
    (hp : WellPosed p) (h : (findBaseCounterexample S solverType k s p).1 = none) :
    ∀ n ≤ k, ¬ p.FrontierBad n :=
  no_frontierBad_of_status hp.domain hp.excludes (status_of_none hS h)

theorem no_frontierBad_of_validated {p : KInductionProblem} {k : Nat} {s : σ}
    (hS : p.usesDualRailStateEncoding = false → S.DecidesUnlimited) (hp : WellPosed p)
    (h : (validateConcreteBasePrefix S solverType k s p).1 = none) :
    ∀ n ≤ k, ¬ p.FrontierBad n := by
  unfold validateConcreteBasePrefix at h
  split at h
  · rename_i hbinary
    have hnone : (findBaseCounterexample S solverType k s p).1 = none := by
      split at h
      · cases h
      · rename_i s' hsafe
        exact congrArg Prod.fst hsafe
    exact no_frontierBad_of_base (hS (by simpa using hbinary)) hp hnone
  · split at h
    · cases h
    · cases h
    · rename_i s' hquery
      exact no_frontierBad_of_status hp.domain hp.excludes (congrArg (fun r => r.1.2) hquery)
    · cases h

/-- The outputs of a problem, closed by its own step query. -/
theorem WellPosed.closes {p : KInductionProblem} (hp : WellPosed p) {k i : Nat}
    (hi : i < p.observedOutputExprs0.length)
    (hunsat : ¬ Satisfiable evalAtom (p.inductionQuery k)) : p.ClosesOutput p i k where
  system := .refl p
  unsat := hunsat
  hypothesis v hv := by rw [hp.inductionProperty, hp.complement, hv, Bool.not_false]
  catches v hv := by
    rw [hp.inductionBad]
    exact (hp.observes v).mpr ⟨i, hi, hv⟩
  sound v hv := by rwa [hp.inductionBad] at hv

/-- A problem that checks its own base case. -/
theorem monolithic_sound {p : KInductionProblem} {b : Nat} (hp : WellPosed p)
    (howns : p.deferBaseCaseChecks = false) (hproof : MonolithicProof S solverType p b)
    (hS : p.usesDualRailStateEncoding = false ∨ p.combinedStateSymbols = [] ∨
      p.proofNeedsConcreteFrontierValidation = false → S.DecidesUnlimited)
    (hstart : p.combinedStateSymbols = [] ∨ p.proofNeedsConcreteFrontierValidation = false →
      p.StateStartup)
    (hsingle : p.proofNeedsConcreteFrontierValidation = false → p.hasSeveralOutputs = false) :
    ∀ n τ, p.PostRun n τ → p.bad.eval (τ (p.frontierFrame n)) = false := by
  obtain ⟨s, hbase⟩ := hproof.base howns
  rcases hproof.steps with ⟨hstate, _⟩ | ⟨_, hsteps⟩
  · intro n τ hrun
    by_contra hbad
    rw [Bool.not_eq_false] at hbad
    exact no_frontierBad_of_base (hS (.inr (.inl hstate))) hp hbase 0 (Nat.le_refl _)
      (bad_at_frontier_of_no_state hstate (hstart (.inl hstate)) hp.domain hrun hbad)
  · have hcloses : ∀ i < p.observedOutputExprs0.length, ∃ r, ∃ k ≤ b, p.ClosesOutput r i k :=
      fun i hi => ⟨p, b, Nat.le_refl _, hp.closes hi hsteps.unsat⟩
    cases hneeds : p.proofNeedsConcreteFrontierValidation with
    | true =>
      obtain ⟨s', hvalid⟩ := hsteps.validated howns hneeds
      have hsafe := no_frontierBad_of_validated (fun hbinary => hS (.inl hbinary)) hp hvalid
      exact safe_of_steps hp.auxiliary hp.domain hp.observes hcloses (fun n hn => hsafe n hn.le)
        (.inl (hsafe b (Nat.le_refl _)))
    | false =>
      -- nothing is validated: frame 0 and the frontiers before `b` are checked one by one
      have hdecides := hS (.inr (.inr hneeds))
      have hcycles : p.resetBootstrapCycles = 0 := by
        simp only [proofNeedsConcreteFrontierValidation, Bool.or_eq_false_iff] at hneeds
        simpa using hneeds.1.1
      refine safe_of_steps hp.auxiliary hp.domain hp.observes hcloses (fun n hn => ?_)
        (.inr (hstart (.inr hneeds)))
      rcases Nat.eq_zero_or_pos n with rfl | hpos
      · exact no_frontierBad_of_base hdecides hp hbase 0 (Nat.le_refl _)
      · obtain ⟨_, _, hfrontier⟩ := hsteps.frontiers howns n hpos hn
        exact no_frontierBad_of_frontier hdecides hcycles (hsingle hneeds) hp.domain hp.excludes
          hfrontier

/-! ## Ranges -/

/-- Some attempt on `r` answered `Equivalent` with bound `b`. -/
def Attempted (S : FrameSolver σ) (solverType : SolverType) (env : KInductionEnv) (maxK : Nat)
    (r : KInductionProblem) (b : Nat) : Prop :=
  ∃ s answer s', runMonolithicKInduction S solverType env maxK s r = .ok (answer, s') ∧
    answer.status = .equivalent ∧ answer.bound = b

theorem attemptRange_equivalent {s s' : EngineState σ} {batch : KInductionProblem}
    {active : PublicConjunctionHypothesis} {isLeaf : Bool} {r : KInductionResult}
    (hrun : attemptRange S solverType env maxK s batch active isLeaf = .ok (r, s'))
    (h : r.status = .equivalent) : Attempted S solverType env maxK batch r.bound := by
  obtain ⟨⟨answer, solver⟩, hattempt, hrun⟩ := bind_ok.mp hrun
  obtain ⟨rfl, -⟩ := Prod.mk.inj (Except.ok.inj hrun)
  exact ⟨s.solver, answer, solver, hattempt, h, rfl⟩

/-- Where no output of the source differs, the hypothesis holds. -/
def HypothesisOf (source : KInductionProblem) (hypothesis : PublicConjunctionHypothesis) : Prop :=
  ∀ e, hypothesis.property = some e → ∀ v, source.bad.eval v = false → e.eval v = true

/-- Output `i` of the source is in a range that was proved, under a hypothesis that the
source as a whole discharges. -/
def ProvedIn (S : FrameSolver σ) (solverType : SolverType) (env : KInductionEnv) (maxK : Nat)
    (source : KInductionProblem) (i b : Nat) : Prop :=
  ∃ first last hypothesis, first ≤ i ∧ i < last ∧ last ≤ source.observedOutputExprs0.length ∧
    HypothesisOf source hypothesis ∧ ∃ k ≤ b, Attempted S solverType env maxK
      ((source.configureOutputBatchProblem first last).applyDualRailSplitHypothesis source
        hypothesis) k

theorem ProvedIn.mono {source : KInductionProblem} {i b b' : Nat}
    (h : ProvedIn S solverType env maxK source i b) (hb : b ≤ b') :
    ProvedIn S solverType env maxK source i b' := by
  obtain ⟨first, last, hypothesis, hfirst, hlast, hend, hhyp, k, hk, hattempt⟩ := h
  exact ⟨first, last, hypothesis, hfirst, hlast, hend, hhyp, k, hk.trans hb, hattempt⟩

/-- A range is bad only where the source is. -/
theorem bad_of_range {source : KInductionProblem} (hobserves : source.ObservesOutputs)
    (hsides : source.observedOutputExprs0.length = source.observedOutputExprs1.length)
    {first last : Nat} (hend : last ≤ source.observedOutputExprs0.length) (v : Valuation)
    (hbad : (source.configureOutputBatchProblem first last).bad.eval v = true) :
    source.bad.eval v = true := by
  obtain ⟨j, hj, hdiffers⟩ := (observes_batch hsides first last v).mp hbad
  rw [length_configureOutputBatchProblem hend] at hj
  refine (hobserves v).mpr ⟨first + j, by omega, ?_⟩
  unfold outputDiffers at hdiffers ⊢
  rwa [observedOutput_batch (by omega)] at hdiffers

theorem eval_property_range (source : KInductionProblem) (first last : Nat) (v : Valuation) :
    (source.configureOutputBatchProblem first last).property.eval v =
      !(source.configureOutputBatchProblem first last).bad.eval v := by
  show _ = !(BoolExpr.simplify _).eval v
  rw [BoolExpr.eval_simplify, BoolExpr.eval_Not, Bool.not_not]
  rfl

/-- The conjunction of a range is a hypothesis of its source. -/
theorem hypothesisOf_range {source : KInductionProblem} (hobserves : source.ObservesOutputs)
    (hsides : source.observedOutputExprs0.length = source.observedOutputExprs1.length)
    {first last : Nat} (hend : last ≤ source.observedOutputExprs0.length) :
    HypothesisOf source
      (source.configureOutputBatchProblem first last).makePublicConjunctionHypothesis := by
  intro e he v hv
  obtain rfl := Option.some.inj he
  rw [eval_property_range, Bool.not_eq_true', ← Bool.not_eq_true]
  intro hbad
  rw [bad_of_range hobserves hsides hend v hbad] at hv
  cases hv

theorem attemptFallback_equivalent {s s' : EngineState σ} {source plain : KInductionProblem}
    {preferred fallback : PublicConjunctionHypothesis} {count : Nat} {result : KInductionResult}
    (hrun : attemptFallback S solverType env maxK s source plain preferred fallback count =
      .ok (some result, s')) (h : result.status = .equivalent) :
    Attempted S solverType env maxK (plain.applyDualRailSplitHypothesis source fallback)
      result.bound := by
  unfold attemptFallback at hrun
  split at hrun
  · obtain ⟨hnone, -⟩ := Prod.mk.inj (Except.ok.inj hrun)
    cases hnone
  · split at hrun
    · obtain ⟨hcached, -⟩ := Prod.mk.inj (Except.ok.inj hrun)
      obtain rfl := Option.some.inj hcached
      cases h
    · obtain ⟨⟨answer, s₁⟩, hattempt, hrun⟩ := bind_ok.mp hrun
      obtain ⟨hanswer, -⟩ := Prod.mk.inj (Except.ok.inj hrun)
      obtain ⟨-, hanswer⟩ := Option.ite_none_right_eq_some.mp hanswer
      obtain rfl := Option.some.inj hanswer
      exact attemptRange_equivalent hattempt h

theorem combineBatchResults_equivalent {lhs rhs : KInductionResult}
    (h : (combineBatchResults lhs rhs).status = .equivalent) :
    lhs.status = .equivalent ∧ rhs.status = .equivalent ∧
      (combineBatchResults lhs rhs).bound = max lhs.bound rhs.bound := by
  unfold combineBatchResults at h ⊢
  split at h
  · rename_i hdiffers
    rw [hdiffers] at h
    cases h
  · rename_i hlhs
    split at h
    · rename_i hdiffers
      rw [hdiffers] at h
      cases h
    · rename_i hrhs
      simp only at h
      split at h
      · cases h
      · rename_i hconclusive
        refine ⟨h, ?_, by rw [if_neg hlhs, if_neg hrhs]⟩
        cases hstatus : rhs.status with
        | equivalent => rfl
        | different => exact absurd hstatus hrhs
        | inconclusive => exact absurd hstatus hconclusive

/-- The attempts on a whole range prove it, if their answer stands and is `Equivalent`;
a remembered leaf is inconclusive. -/
theorem attemptOutputRange_equivalent {source : KInductionProblem}
    {preferred fallback : PublicConjunctionHypothesis} {s s' : EngineState σ} {first last : Nat}
    {r : KInductionResult} {stands : Bool}
    (hpreferred : HypothesisOf source preferred) (hfallback : HypothesisOf source fallback)
    (hrun : attemptOutputRange S solverType env maxK source preferred fallback s first last =
      .ok ((r, stands), s')) (h : r.status = .equivalent) :
    ∃ hypothesis, HypothesisOf source hypothesis ∧ Attempted S solverType env maxK
      ((source.configureOutputBatchProblem first last).applyDualRailSplitHypothesis source
        hypothesis) r.bound := by
  unfold attemptOutputRange at hrun
  dsimp only at hrun
  split at hrun
  · obtain ⟨hanswer, -⟩ := Prod.mk.inj (Except.ok.inj hrun)
    obtain ⟨rfl, -⟩ := Prod.mk.inj hanswer
    cases h
  · obtain ⟨⟨answer, s₁⟩, hattempt, hrun⟩ := bind_ok.mp hrun
    dsimp only at hrun
    split at hrun
    · obtain ⟨hanswer, -⟩ := Prod.mk.inj (Except.ok.inj hrun)
      obtain ⟨rfl, -⟩ := Prod.mk.inj hanswer
      exact ⟨preferred, hpreferred, attemptRange_equivalent hattempt h⟩
    · rename_i hinconclusive
      obtain ⟨⟨fallbackAnswer, s₂⟩, hsecond, hrun⟩ := bind_ok.mp hrun
      cases fallbackAnswer with
      | some result =>
        obtain ⟨hanswer, -⟩ := Prod.mk.inj (Except.ok.inj hrun)
        obtain ⟨rfl, -⟩ := Prod.mk.inj hanswer
        exact ⟨fallback, hfallback, attemptFallback_equivalent hsecond h⟩
      | none =>
        obtain ⟨hanswer, -⟩ := Prod.mk.inj (Except.ok.inj hrun)
        obtain ⟨rfl, -⟩ := Prod.mk.inj hanswer
        exact absurd (by rw [h]; simp) hinconclusive

/-- An `Equivalent` range has every output in a range that was proved. -/
theorem runOutputRange_equivalent {source : KInductionProblem}
    {fallback : PublicConjunctionHypothesis} (hobserves : source.ObservesOutputs)
    (hsides : source.observedOutputExprs0.length = source.observedOutputExprs1.length)
    (hfallback : HypothesisOf source fallback) (fuel : Nat) (s s' : EngineState σ)
    (preferred : PublicConjunctionHypothesis) (first last : Nat)
    (hpreferred : HypothesisOf source preferred)
    (hend : last ≤ source.observedOutputExprs0.length) {r : KInductionResult}
    (hrun : runOutputRangeKInduction S solverType env maxK source fallback fuel s preferred first
      last = .ok (r, s')) (h : r.status = .equivalent) :
    ∀ i, first ≤ i → i < last → ProvedIn S solverType env maxK source i r.bound := by
  intro i hfirst hlast
  induction fuel generalizing s s' preferred first last r with
  | zero =>
    obtain ⟨⟨⟨answer, stands⟩, s₁⟩, hattempts, hrun⟩ := bind_ok.mp hrun
    obtain ⟨hanswer, -⟩ := Prod.mk.inj (Except.ok.inj hrun)
    cases stands with
    | true =>
      obtain rfl : answer = r := hanswer
      obtain ⟨hypothesis, hhyp, hattempt⟩ :=
        attemptOutputRange_equivalent hpreferred hfallback hattempts h
      exact ⟨first, last, hypothesis, hfirst, hlast, hend, hhyp, _, Nat.le_refl _, hattempt⟩
    | false =>
      obtain rfl : (⟨.inconclusive, answer.bound, none⟩ : KInductionResult) = r := hanswer
      cases h
  | succ fuel ih =>
    obtain ⟨⟨⟨answer, stands⟩, s₁⟩, hattempts, hrun⟩ := bind_ok.mp hrun
    cases stands with
    | true =>
      obtain ⟨rfl, -⟩ := Prod.mk.inj (Except.ok.inj hrun)
      obtain ⟨hypothesis, hhyp, hattempt⟩ :=
        attemptOutputRange_equivalent hpreferred hfallback hattempts h
      exact ⟨first, last, hypothesis, hfirst, hlast, hend, hhyp, _, Nat.le_refl _, hattempt⟩
    | false =>
      obtain ⟨⟨lower, s₂⟩, hlowerRun, hrun⟩ := bind_ok.mp hrun
      have hchild : HypothesisOf source (if preferred.property.isSome then preferred
          else (source.configureOutputBatchProblem first last).makePublicConjunctionHypothesis) := by
        split
        · exact hpreferred
        · exact hypothesisOf_range hobserves hsides hend
      by_cases hdiffers : lower.status = .different
      · dsimp only at hrun
        rw [if_pos hdiffers] at hrun
        obtain ⟨rfl, -⟩ := Prod.mk.inj (Except.ok.inj hrun)
        rw [hdiffers] at h
        cases h
      · dsimp only at hrun
        rw [if_neg hdiffers] at hrun
        obtain ⟨⟨upper, s₃⟩, hupperRun, hrun⟩ := bind_ok.mp hrun
        obtain ⟨rfl, -⟩ := Prod.mk.inj (Except.ok.inj hrun)
        obtain ⟨hl, hu, hbound⟩ := combineBatchResults_equivalent h
        rw [hbound]
        -- the two halves meet in the middle
        rcases Nat.lt_or_ge i (first + (last - first) / 2) with hleft | hright
        · exact (ih _ _ _ _ _ hchild (by omega) hlowerRun hl hfirst hleft).mono
            (Nat.le_max_left _ _)
        · exact (ih _ _ _ _ _ hchild hend hupperRun hu hright hlast).mono (Nat.le_max_right _ _)

theorem runOutputBatches_equivalent {source : KInductionProblem}
    {preferred fallback : PublicConjunctionHypothesis} (hobserves : source.ObservesOutputs)
    (hsides : source.observedOutputExprs0.length = source.observedOutputExprs1.length)
    (hpreferred : HypothesisOf source preferred) (hfallback : HypothesisOf source fallback)
    (batches : List (Nat × Nat))
    (hend : ∀ t ∈ batches, t.2 ≤ source.observedOutputExprs0.length) (s s' : EngineState σ)
    (combined : KInductionResult) {r : KInductionResult}
    (hrun : runOutputBatches S solverType env maxK source preferred fallback s combined batches =
      .ok (r, s')) (h : r.status = .equivalent) :
    combined.bound ≤ r.bound ∧ combined.status = .equivalent ∧
    ∀ t ∈ batches, ∀ i, t.1 ≤ i → i < t.2 →
      ProvedIn S solverType env maxK source i r.bound := by
  induction batches generalizing s combined with
  | nil =>
    obtain ⟨rfl, -⟩ := Prod.mk.inj (Except.ok.inj hrun)
    exact ⟨Nat.le_refl _, h, fun t ht => absurd ht List.not_mem_nil⟩
  | cons t batches ih =>
    obtain ⟨⟨result, s₁⟩, hrange, hrun⟩ := bind_ok.mp hrun
    dsimp only at hrun
    split at hrun
    · rename_i hdiffers
      obtain ⟨rfl, -⟩ := Prod.mk.inj (Except.ok.inj hrun)
      rw [hdiffers] at h
      cases h
    · rename_i hsame
      obtain ⟨hbound, hstatus, hrest⟩ :=
        ih (fun u hu => hend u (List.mem_cons_of_mem _ hu)) _ _ hrun
      dsimp only at hbound hstatus
      split at hstatus
      · cases hstatus
      · rename_i hconclusive
        refine ⟨(Nat.le_max_left _ _).trans hbound, hstatus, List.forall_mem_cons.mpr
          ⟨fun i hfirst hlast => ?_, hrest⟩⟩
        have hequivalent : result.status = .equivalent := by
          cases hanswer : result.status with
          | equivalent => rfl
          | different => exact absurd hanswer hsame
          | inconclusive => exact absurd hanswer hconclusive
        exact (runOutputRange_equivalent hobserves hsides hfallback _ s _ preferred _ _ hpreferred
          (hend t List.mem_cons_self) hrange hequivalent i hfirst hlast).mono
          ((Nat.le_max_right _ _).trans hbound)

/-! ## The routes -/

/-- Both induction formulas of an attempt on a range. -/
theorem selectedInductionBad_attempt (source : KInductionProblem) (first last : Nat)
    (hypothesis : PublicConjunctionHypothesis) :
    ((source.configureOutputBatchProblem first last).applyDualRailSplitHypothesis source
      hypothesis).selectedInductionBad = (source.configureOutputBatchProblem first last).bad := by
  unfold applyDualRailSplitHypothesis
  split <;> rfl

theorem eval_selectedInductionProperty_attempt {source : KInductionProblem}
    (hobserves : source.ObservesOutputs)
    (hsides : source.observedOutputExprs0.length = source.observedOutputExprs1.length)
    {first last : Nat} (hend : last ≤ source.observedOutputExprs0.length)
    {hypothesis : PublicConjunctionHypothesis} (hhyp : HypothesisOf source hypothesis)
    (v : Valuation) (hv : source.bad.eval v = false) :
    ((source.configureOutputBatchProblem first last).applyDualRailSplitHypothesis source
      hypothesis).selectedInductionProperty.eval v = true := by
  unfold applyDualRailSplitHypothesis
  split
  · exact hypothesisOf_range hobserves hsides hend _ rfl v hv
  · rename_i happlied
    simp only [shouldApplyPublicConjunctionHypothesis, Bool.not_eq_true', Bool.not_eq_false,
      Bool.and_eq_true] at happlied
    obtain ⟨e, he⟩ := Option.isSome_iff_exists.mp happlied.1.1.1.2
    generalize source.configureOutputBatchProblem first last = batch
    have hselected : (batch.observing { batch.ownView with
        inductionProperty := hypothesis.property
        inductionBad := some batch.bad }).selectedInductionProperty = e := by
      show hypothesis.property.getD _ = e
      rw [he]
      rfl
    rw [hselected]
    exact hhyp e he v hv

/-- The difference of an output makes its range bad. -/
theorem bad_of_outputDiffers {source : KInductionProblem}
    (hsides : source.observedOutputExprs0.length = source.observedOutputExprs1.length)
    {first last i : Nat} (hfirst : first ≤ i) (hlast : i < last)
    (hend : last ≤ source.observedOutputExprs0.length) (v : Valuation)
    (h : source.outputDiffers i v) :
    (source.configureOutputBatchProblem first last).bad.eval v = true := by
  obtain ⟨j, rfl⟩ := Nat.exists_eq_add_of_le hfirst
  refine (observes_batch hsides first last v).mpr ⟨j, ?_, ?_⟩
  · rw [length_configureOutputBatchProblem hend]
    omega
  · unfold outputDiffers at h ⊢
    rwa [observedOutput_batch hlast]

/-- What a range that was proved closes, if the system has state. -/
theorem closesOutput_of_attempt {source : KInductionProblem} (hobserves : source.ObservesOutputs)
    (hsides : source.observedOutputExprs0.length = source.observedOutputExprs1.length)
    (hstate : source.combinedStateSymbols ≠ []) {first last i k : Nat}
    {hypothesis : PublicConjunctionHypothesis} (hfirst : first ≤ i) (hlast : i < last)
    (hend : last ≤ source.observedOutputExprs0.length) (hhyp : HypothesisOf source hypothesis)
    (hattempt : Attempted S solverType env maxK
      ((source.configureOutputBatchProblem first last).applyDualRailSplitHypothesis source
        hypothesis) k) :
    source.ClosesOutput ((source.configureOutputBatchProblem first
      last).applyDualRailSplitHypothesis source hypothesis) i k := by
  have hsystem : source.SameSystem ((source.configureOutputBatchProblem first
      last).applyDualRailSplitHypothesis source hypothesis) :=
    (sameSystem_configureOutputBatchProblem first last).trans
      (sameSystem_applyDualRailSplitHypothesis source hypothesis)
  obtain ⟨s, answer, s', hrun, hequivalent, rfl⟩ := hattempt
  refine ⟨hsystem, ?_, eval_selectedInductionProperty_attempt hobserves hsides hend hhyp,
    fun v hv => ?_, fun v hv => ?_⟩
  · rcases (runMonolithic_equivalent hrun hequivalent).steps with ⟨hnone, _⟩ | ⟨_, hsteps⟩
    · obtain ⟨view, hview⟩ := hsystem
      rw [hview] at hnone
      exact absurd hnone hstate
    · exact hsteps.unsat
  · rw [selectedInductionBad_attempt]
    exact bad_of_outputDiffers hsides hfirst hlast hend v hv
  · rw [selectedInductionBad_attempt] at hv
    exact bad_of_range hobserves hsides hend v hv

/-! ## Conditions -/

/-- An undecided base query may count as safe: everywhere but in a dual-rail problem
whose base prefix is validated. -/
def trustsUndecidedBase (p : KInductionProblem) : Bool :=
  !(p.usesDualRailStateEncoding && (decide (kMinOutputsForBatchedProof ≤
    p.observedOutputExprs0.length) ||
    (!p.combinedStateSymbols.isEmpty && p.proofNeedsConcreteFrontierValidation)))

/-- The last step of the base case stays unchecked: there is no state, or a single-output
problem asks for no validation. -/
def skipsFrontierValidation (p : KInductionProblem) : Bool :=
  p.combinedStateSymbols.isEmpty || (decide (p.observedOutputExprs0.length <
    kMinOutputsForBatchedProof) && !p.proofNeedsConcreteFrontierValidation)

/-- When an `Equivalent` answer is a proof. -/
structure ProvesOutputs (S : FrameSolver σ) (store : ResidualStore) (p : KInductionProblem) :
    Prop where
  wellPosed : WellPosed p
  owns : p.deferBaseCaseChecks = false
  noStored : (p.storedResidualPublicConjunctionHypothesis store).property = none
  decides : trustsUndecidedBase p = true → S.DecidesUnlimited
  startup : skipsFrontierValidation p = true → p.StateStartup

/-- The initial hypothesis is the conjunction of the problem itself, or none. -/
theorem initialHypothesis_of_noStored {p : KInductionProblem} {store : ResidualStore}
    (h : (p.storedResidualPublicConjunctionHypothesis store).property = none) :
    p.initialPublicConjunctionHypothesis store = {} ∨
      p.initialPublicConjunctionHypothesis store = p.makePublicConjunctionHypothesis := by
  unfold initialPublicConjunctionHypothesis
  simp only [h, Option.isSome_none, Bool.false_eq_true, if_false]
  split
  · exact .inl rfl
  · exact .inr rfl

/-- An `Equivalent` batched run: every output is in a range that was proved, and a shared
base case was validated up to the deepest of them. -/
theorem runOutputBatched_equivalent {p : KInductionProblem} {s s' : EngineState σ}
    {r : KInductionResult} (hp : WellPosed p)
    (hnoStored : (p.storedResidualPublicConjunctionHypothesis s.store).property = none)
    (hrun : runOutputBatchedKInduction S solverType env maxK s p = .ok (r, s'))
    (h : r.status = .equivalent) :
    (∀ i < p.observedOutputExprs0.length,
      ProvedIn S solverType env maxK p.batchSource i r.bound) ∧
    (p.useSharedBaseCase = true →
      ∃ s, (validateConcreteBasePrefix S solverType r.bound s p).1 = none) := by
  -- the hypotheses of the batches are the conjunction of all outputs, or none
  have hnone : HypothesisOf p.batchSource {} := fun e he => by cases he
  have hall : HypothesisOf p.batchSource p.makePublicConjunctionHypothesis := by
    intro e he v hv
    obtain rfl := Option.some.inj he
    have hbad : p.bad.eval v = false := hv
    rw [hp.complement, hbad, Bool.not_false]
  have hpreferred : HypothesisOf p.batchSource
      (if (p.initialPublicConjunctionHypothesis s.store).completePublicSurface then {}
        else p.initialPublicConjunctionHypothesis s.store) := by
    rcases initialHypothesis_of_noStored hnoStored with hinit | hinit <;> rw [hinit]
    · exact hnone
    · exact hall
  have hfallback : HypothesisOf p.batchSource
      (if (p.initialPublicConjunctionHypothesis s.store).completePublicSurface then
        p.initialPublicConjunctionHypothesis s.store else {}) := by
    rcases initialHypothesis_of_noStored hnoStored with hinit | hinit <;> rw [hinit] <;>
      exact hnone
  have htiles := p.tiles_buildSupportBoundedOutputBatches p.defaultOutputBatchingLimitsForProblem
  have hobserves : p.batchSource.ObservesOutputs := hp.observes
  obtain ⟨⟨combined, s₁⟩, hbatches, hrun⟩ := bind_ok.mp hrun
  have hproved : combined.status = .equivalent → ∀ i < p.observedOutputExprs0.length,
      ProvedIn S solverType env maxK p.batchSource i combined.bound := by
    intro hstatus i hi
    obtain ⟨-, -, hall⟩ := runOutputBatches_equivalent hobserves hp.sides hpreferred hfallback _
      (fun t ht => (htiles.bounds ht).2.2) _ _ _ hbatches hstatus
    obtain ⟨t, ht, hfirst, hlast⟩ := htiles.covers (Nat.zero_le i) hi
    exact hall t ht i hfirst hlast
  dsimp only at hrun
  split at hrun
  · split at hrun
    · rename_i hvalid
      obtain ⟨rfl, -⟩ := Prod.mk.inj (Except.ok.inj hrun)
      exact absurd h (validateConcreteBasePrefix_ne_equivalent (congrArg Prod.fst hvalid))
    · rename_i hvalid
      obtain ⟨rfl, -⟩ := Prod.mk.inj (Except.ok.inj hrun)
      exact ⟨hproved h, fun _ => ⟨_, congrArg Prod.fst hvalid⟩⟩
  · rename_i hlocal
    obtain ⟨rfl, -⟩ := Prod.mk.inj (Except.ok.inj hrun)
    refine ⟨hproved h, fun hshared => absurd ?_ hlocal⟩
    rw [hshared, h]
    rfl

/-- The batches of a dual-rail problem share one base case. -/
theorem batched_sound_dualRail {p : KInductionProblem} {s s' : EngineState σ}
    {r : KInductionResult} (hp : ProvesOutputs S s.store p)
    (hrail : p.usesDualRailStateEncoding = true)
    (hrun : runOutputBatchedKInduction S solverType env maxK s p = .ok (r, s'))
    (h : r.status = .equivalent) :
    ∀ n τ, p.PostRun n τ → p.bad.eval (τ (p.frontierFrame n)) = false := by
  obtain ⟨hproved, hvalidated⟩ := runOutputBatched_equivalent hp.wellPosed hp.noStored hrun h
  have hshared : p.useSharedBaseCase = true := by
    rw [useSharedBaseCase, shouldCheckLocalBaseCase, hrail, hp.owns]
    rfl
  obtain ⟨s', hvalid⟩ := hvalidated hshared
  have hbinary : p.usesDualRailStateEncoding = false → S.DecidesUnlimited := by
    rw [hrail]
    exact fun hfalse => by cases hfalse
  have hsafe := no_frontierBad_of_validated hbinary hp.wellPosed hvalid
  by_cases hstate : p.combinedStateSymbols = []
  · intro n τ hrun
    by_contra hbad
    rw [Bool.not_eq_false] at hbad
    have hstart := hp.startup (by rw [skipsFrontierValidation, hstate]; rfl)
    exact hsafe 0 (Nat.zero_le _)
      (bad_at_frontier_of_no_state hstate hstart hp.wellPosed.domain hrun hbad)
  · refine safe_of_steps hp.wellPosed.auxiliary hp.wellPosed.domain hp.wellPosed.observes
      (fun i hi => ?_) (fun n hn => hsafe n hn.le) (.inl (hsafe _ (Nat.le_refl _)))
    obtain ⟨first, last, hypothesis, hfirst, hlast, hend, hhyp, k, hk, hattempt⟩ := hproved i hi
    have hobserves : p.batchSource.ObservesOutputs := hp.wellPosed.observes
    have hcloses := closesOutput_of_attempt hobserves hp.wellPosed.sides hstate hfirst hlast hend
      hhyp hattempt
    exact ⟨_, k, hk, SameSystem.trans ⟨_, rfl⟩ hcloses.system, hcloses.unsat, hcloses.hypothesis,
      hcloses.catches, hcloses.sound⟩

theorem applyDualRailSplitHypothesis_binary {p source : KInductionProblem}
    (h : source.usesDualRailStateEncoding = false) (hypothesis : PublicConjunctionHypothesis) :
    p.applyDualRailSplitHypothesis source hypothesis = p := by
  unfold applyDualRailSplitHypothesis shouldApplyPublicConjunctionHypothesis
  simp [h]

/-- A range of a well-posed problem. -/
theorem wellPosed_range {p : KInductionProblem} (hp : WellPosed p) (first last : Nat) :
    WellPosed (p.configureOutputBatchProblem first last) where
  auxiliary := hp.auxiliary
  sides := by
    show ((p.observedOutputExprs0.drop first).take _).length =
      ((p.observedOutputExprs1.drop first).take _).length
    simp [hp.sides]
  observes := observes_batch hp.sides first last
  complement := eval_property_range p first last
  inductionProperty _ := rfl
  inductionBad _ := rfl
  domain := preservesDomain_observing hp.domain

/-- Each range of a binary problem has its own base case. -/
theorem batched_sound_binary {p : KInductionProblem} {s s' : EngineState σ}
    {r : KInductionResult} (hp : ProvesOutputs S s.store p)
    (hbinary : p.usesDualRailStateEncoding = false)
    (hanswer : runOutputBatchedKInduction S solverType env maxK s p = .ok (r, s'))
    (h : r.status = .equivalent) :
    ∀ n τ, p.PostRun n τ → p.bad.eval (τ (p.frontierFrame n)) = false := by
  obtain ⟨hproved, _⟩ := runOutputBatched_equivalent hp.wellPosed hp.noStored hanswer h
  have hsource : p.batchSource = p.deferring false := by
    rw [batchSource, useSharedBaseCase, hbinary, hp.owns]
    rfl
  rw [hsource] at hproved
  have hdecides : S.DecidesUnlimited := hp.decides (by simp [trustsUndecidedBase, hbinary])
  intro n τ hrun
  by_contra hbad
  rw [Bool.not_eq_false] at hbad
  obtain ⟨i, hi, hdiffers⟩ := (hp.wellPosed.observes _).mp hbad
  obtain ⟨first, last, hypothesis, hfirst, hlast, hend, _, k, _, s₁, answer, s₂, hattempt,
    hequivalent, rfl⟩ := hproved i hi
  rw [applyDualRailSplitHypothesis_binary
    (show (p.deferring false).usesDualRailStateEncoding = false from hbinary)] at hattempt
  -- the range has the runs of the problem, and its base case excludes the difference
  have hsource : WellPosed (p.deferring false) := ⟨hp.wellPosed.auxiliary, hp.wellPosed.sides,
    hp.wellPosed.observes, hp.wellPosed.complement, hp.wellPosed.inductionProperty,
    hp.wellPosed.inductionBad, preservesDomain_observing hp.wellPosed.domain⟩
  have hneeds : ((p.deferring false).configureOutputBatchProblem first
      last).proofNeedsConcreteFrontierValidation ≠ false := by
    simp [proofNeedsConcreteFrontierValidation, configureOutputBatchProblem,
      KInductionProblem.observing]
  have hproperty : ∀ v, p.property.eval v = true →
      ((p.deferring false).configureOutputBatchProblem first last).property.eval v = true := by
    intro v hv
    rw [eval_property_range, Bool.not_eq_true', ← Bool.not_eq_true]
    intro hrange
    have hv' : p.bad.eval v = true :=
      bad_of_range hsource.observes hsource.sides hend v hrange
    rw [hp.wellPosed.complement, hv'] at hv
    cases hv
  have hsafe := monolithic_sound (wellPosed_range hsource first last) rfl
    (runMonolithic_equivalent hattempt hequivalent) (fun _ => hdecides)
    (fun hstart => (hp.startup ?_).observing _) (fun hskips => absurd hskips hneeds) n τ
    (hrun.observing hproperty)
  · have hdiffers' := bad_of_outputDiffers hsource.sides hfirst hlast hend _ hdiffers
    cases hdiffers'.symm.trans hsafe
  · rcases hstart with hstate | hskips
    · have hstate' : p.combinedStateSymbols = [] := hstate
      rw [skipsFrontierValidation, hstate']
      rfl
    · exact absurd hskips hneeds

theorem attemptSingleOutput_equivalent {p q : KInductionProblem} {s s' : EngineState σ}
    {hypothesis active : PublicConjunctionHypothesis} {r : KInductionResult}
    (hrun : attemptSingleOutput S solverType env maxK s p hypothesis active q = .ok (r, s'))
    (h : r.status = .equivalent) : Attempted S solverType env maxK q r.bound := by
  unfold attemptSingleOutput at hrun
  split at hrun
  · obtain ⟨rfl, -⟩ := Prod.mk.inj (Except.ok.inj hrun)
    cases h
  · exact attemptRange_equivalent hrun h

theorem runSingleOutput_equivalent {p : KInductionProblem} {s s' : EngineState σ}
    {r : KInductionResult}
    (hnoStored : (p.storedResidualPublicConjunctionHypothesis s.store).property = none)
    (hrun : runSingleOutputKInduction S solverType env maxK s p = .ok (r, s'))
    (h : r.status = .equivalent) : Attempted S solverType env maxK p r.bound := by
  obtain ⟨⟨localResult, s₁⟩, hlocal, hrun⟩ := bind_ok.mp hrun
  have hown : (localResult, s₁) = (r, s') → Attempted S solverType env maxK p r.bound := by
    intro hsame
    obtain ⟨rfl, rfl⟩ := Prod.mk.inj hsame
    exact attemptSingleOutput_equivalent hlocal h
  dsimp only at hrun
  split at hrun
  · exact hown (Except.ok.inj hrun)
  · split at hrun
    · exact hown (Except.ok.inj hrun)
    · split at hrun
      · exact hown (Except.ok.inj hrun)
      · -- the problem's own conjunction is no wider than the problem
        have hsame : p.applyDualRailSplitHypothesis p
            (p.initialPublicConjunctionHypothesis s.store) = p := by
          rcases initialHypothesis_of_noStored hnoStored with hinit | hinit <;> rw [hinit] <;>
            unfold applyDualRailSplitHypothesis shouldApplyPublicConjunctionHypothesis <;>
            simp [makePublicConjunctionHypothesis]
        rw [hsame] at hrun
        exact attemptSingleOutput_equivalent hrun h

theorem single_sound {p : KInductionProblem} {s s' : EngineState σ} {r : KInductionResult}
    (hp : ProvesOutputs S s.store p)
    (hsingle : p.observedOutputExprs0.length < kMinOutputsForBatchedProof)
    (hanswer : runSingleOutputKInduction S solverType env maxK s p = .ok (r, s'))
    (h : r.status = .equivalent) :
    ∀ n τ, p.PostRun n τ → p.bad.eval (τ (p.frontierFrame n)) = false := by
  obtain ⟨s₁, answer, s₂, hattempt, hequivalent, _⟩ :=
    runSingleOutput_equivalent hp.noStored hanswer h
  have hfew : ¬ kMinOutputsForBatchedProof ≤ p.observedOutputExprs0.length := by omega
  refine monolithic_sound hp.wellPosed hp.owns (runMonolithic_equivalent hattempt hequivalent)
    (fun hS => hp.decides ?_) (fun hstart => hp.startup ?_) fun _ => ?_
  · rcases hS with hbinary | hstate | hskips
    · simp [trustsUndecidedBase, hbinary]
    · simp [trustsUndecidedBase, hstate, hfew]
    · simp [trustsUndecidedBase, hskips, hfew]
  · rcases hstart with hstate | hskips
    · simp [skipsFrontierValidation, hstate]
    · simp [skipsFrontierValidation, hskips, hsingle]
  · unfold hasSeveralOutputs
    have hone : ¬ 1 < p.observedOutputExprs0.length := by
      unfold kMinOutputsForBatchedProof at hsingle
      omega
    simp [hone]

/-! ## The engine -/

/-- Under the conditions an `Equivalent` answer holds in every state that a run reaches,
whichever route gave it. -/
theorem run_equivalent_sound (S : FrameSolver σ) (solverType : SolverType) (env : KInductionEnv)
    (maxK : Nat) (s s' : EngineState σ) (p : KInductionProblem) (hp : ProvesOutputs S s.store p)
    {r : KInductionResult}
    (hanswer : KInductionEngine.run S solverType env maxK s p = .ok (r, s'))
    (h : r.status = .equivalent) :
    ∀ n τ, p.PostRun n τ → ∀ i < p.observedOutputExprs0.length,
      ¬ p.outputDiffers i (τ (p.frontierFrame n)) := by
  have hsafe : ∀ n τ, p.PostRun n τ → p.bad.eval (τ (p.frontierFrame n)) = false := by
    unfold KInductionEngine.run at hanswer
    split at hanswer
    · cases hrail : p.usesDualRailStateEncoding with
      | true => exact batched_sound_dualRail hp hrail hanswer h
      | false => exact batched_sound_binary hp hrail hanswer h
    · rename_i hfew
      exact single_sound hp (Nat.not_le.mp hfew) hanswer h
  intro n τ hrun i hi hdiffers
  have hbad := (hp.wellPosed.observes _).mpr ⟨i, hi, hdiffers⟩
  rw [hsafe n τ hrun] at hbad
  cases hbad

end Runs

/-- One register in dual-rail encoding that starts cleared and holds its value; the two
outputs are its rails. -/
def heldRailProblem : KInductionProblem where
  initialStateAssignments := [(22, false), (23, true)]
  state0Symbols := [22, 23]
  allSymbols := [22, 23]
  dualRailStatePairs := [⟨22, 23⟩]
  observedOutputExprs0 := [.not (.var 22), .var 23]
  observedOutputExprs1 := [.var 1, .var 1]
  transitions0 := [(22, .var 22), (23, .var 23)]
  initialCondition := some (.and (.not (.var 22)) (.var 23))
  initializedStateCount := 2
  totalStateCount := 2
  property := .and (.not (.var 22)) (.var 23)
  bad := .or (.var 22) (.not (.var 23))
  usesDualRailStateEncoding := true

theorem heldRailProblem_proves : ProvesOutputs exhaustiveSolver {} heldRailProblem := by
  refine ⟨⟨rfl, rfl, fun v => ?_, fun v => ?_, fun _ => rfl, fun _ => rfl, fun v v' hv hstep => ?_⟩,
    rfl, rfl, fun _ => exhaustiveSolver_decides.unlimited, fun h => absurd h (by decide)⟩
  · have hbad : heldRailProblem.bad.eval v = (lit v 22 || !lit v 23) := rfl
    have h0 : heldRailProblem.outputDiffers 0 v ↔ lit v 22 = true := by
      show ¬ ((!lit v 22) = true) ↔ _
      simp
    have h1 : heldRailProblem.outputDiffers 1 v ↔ lit v 23 = false := by
      show ¬ (lit v 23 = true) ↔ _
      simp
    rw [hbad]
    constructor
    · intro h
      rcases Bool.or_eq_true_iff.mp h with h | h
      · exact ⟨0, by decide, h0.mpr h⟩
      · exact ⟨1, by decide, h1.mpr (by simpa using h)⟩
    · rintro ⟨i, hi, hdiffers⟩
      have hcases : i = 0 ∨ i = 1 := by
        have : i < 2 := hi
        omega
      rcases hcases with rfl | rfl
      · simp [h0.mp hdiffers]
      · simp [h1.mp hdiffers]
  · show ((!lit v 22) && lit v 23) = !(lit v 22 || !lit v 23)
    simp
  · refine ⟨by simp [complementedStatePairs, heldRailProblem],
      by simp [sameFrameStateEqualityPairs, heldRailProblem], fun r hr => ?_⟩
    obtain rfl : r = ⟨22, 23⟩ := by simpa [heldRailProblem] using hr
    have hvalid := hv.rails ⟨22, 23⟩ (by simp [heldRailProblem])
    rw [hstep.transition (show heldRailProblem.transitionAt 22 = some (.var 22) from rfl),
      hstep.transition (show heldRailProblem.transitionAt 23 = some (.var 23) from rfl)]
    exact hvalid

/-- The engine on the two rails. -/
theorem run_equivalent_sound_heldRail :
    (KInductionEngine.run exhaustiveSolver .kissat {} 1 ⟨(), {}⟩ heldRailProblem).map Prod.fst =
      .ok ⟨.equivalent, 1, none⟩ ∧
    ∀ n τ, heldRailProblem.PostRun n τ → ∀ i < 2,
      ¬ heldRailProblem.outputDiffers i (τ (heldRailProblem.frontierFrame n)) := by
  have hanswer : (KInductionEngine.run exhaustiveSolver .kissat {} 1 ⟨(), {}⟩
      heldRailProblem).map Prod.fst = .ok ⟨.equivalent, 1, none⟩ := by
    decide +kernel
  obtain ⟨⟨r, s'⟩, hrun, hr⟩ := map_ok.mp hanswer
  exact ⟨hanswer, run_equivalent_sound exhaustiveSolver .kissat {} 1 ⟨(), {}⟩ s' heldRailProblem
    heldRailProblem_proves hrun (by rw [show r = _ from hr])⟩

/-- A register that holds its value, without a start value; the output is the register
while input 3 is set. -/
def observedLatchProblem : KInductionProblem where
  state0Symbols := [2]
  allSymbols := [2, 3]
  observedOutputExprs0 := [.and (.var 2) (.var 3)]
  observedOutputExprs1 := [.var 0]
  transitions0 := [(2, .var 2)]
  property := .not (.and (.var 2) (.var 3))
  bad := .and (.var 2) (.var 3)

/-- The register set throughout, the input from frame 1 on. -/
def observedLatchTrace : Trace := fun f s => s == 2 || (s == 3 && f != 0)

theorem observedLatchTrace_postRun (n : Nat) : observedLatchProblem.PostRun n observedLatchTrace := by
  refine ⟨⟨fun f _ => ⟨by simp [complementedStatePairs, observedLatchProblem],
    by simp [sameFrameStateEqualityPairs, observedLatchProblem], by simp [observedLatchProblem]⟩,
    fun f _ s e he => ?_, ⟨fun f _ h => absurd h (Nat.not_lt_zero f), fun h => absurd rfl h⟩,
    fun X => ⟨fun h => absurd h (by decide), fun h => absurd h (by decide), fun _ => by decide,
      fun h => absurd h (by decide), fun h => absurd h (by decide)⟩⟩, fun h => absurd rfl h⟩
  have hlookup : observedLatchProblem.transitionAt s = if s = 2 then some (.var 2) else none := by
    unfold transitionAt eagerTransitions lazyTransitionAt
    by_cases h2 : s = 2
    · subst h2
      rfl
    · simp [observedLatchProblem, List.lookup, h2, beq_eq_false_iff_ne.mpr h2]
  rw [hlookup] at he
  split at he
  · rename_i h2
    subst h2
    obtain rfl := Option.some.inj he
    rfl
  · cases he

/-- Startup only observes that the output is low in frame 0, and at `k = 1` the step
compares states that are equal: the engine answers `Equivalent` without a base check
behind frame 0, and the output rises in frame 1. -/
theorem run_equivalent_unsound :
    exhaustiveSolver.Decides ∧ observedLatchProblem.auxiliaryStateSymbols = [] ∧
    observedLatchProblem.deferBaseCaseChecks = false ∧
    (KInductionEngine.run exhaustiveSolver .kissat {} 1 ⟨(), {}⟩ observedLatchProblem).map
      Prod.fst = .ok ⟨.equivalent, 1, none⟩ ∧
    ∃ τ, observedLatchProblem.PostRun 1 τ ∧
      observedLatchProblem.outputDiffers 0 (τ (observedLatchProblem.frontierFrame 1)) :=
  ⟨exhaustiveSolver_decides, rfl, rfl, by decide +kernel, observedLatchTrace,
    observedLatchTrace_postRun 1, by unfold outputDiffers; decide⟩

end KeplerFormal
