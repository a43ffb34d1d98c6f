import KeplerFormal.Core.Fallible
import KeplerFormal.L3Query.BaseCaseExact
import KeplerFormal.L3Query.BaseRuns

/-!
# Do the frontier searches agree?

Each search is related to one question about the full unrolling: is there a run whose
frame `k` after the reset prefix is bad?

* `query_answers`, `cached_answers`, `perOutput_answers`, `assumption_answers`,
  `recursive_answers`: what each search answers.
* `FrontierAgreement`: what the agreement rests on. The cached copies leave out the
  initial assignments before a dual-rail reset prefix, and a slice asserts its own
  property where startup asserts the observation.
* `LeavesHeld`: what the assumption query rests on beyond that. Its prefix holds what the
  bad formula reads, and an output may read more; `outputBadLits_ok` says that it
  returns exactly where none does.
* `frontierSearches_agree`: under both the five searches return the same answer, and a
  witness comes with a run.
* `frontierSearches_disagree`: a dual-rail reset prefix separates the plain and the
  cached query.
-/
namespace KeplerFormal

open Core

namespace KInductionProblem
variable {p : KInductionProblem}

/-- The question a frontier search answers: before the first frame that may be bad it
has no witness. -/
def FrontierQuestion (p : KInductionProblem) (k : Nat) : Prop :=
  p.baseStartup.firstBadFrame ≤ p.frontierFrame k ∧ p.FrontierBad k

/-- The copies assert the same facts about startup. -/
def SameStartupFacts (p : KInductionProblem) : Prop :=
  p.resetBootstrapFrames ≠ 0 → p.usesDualRailStateEncoding = true →
    p.initialStateAssignments = [] ∧ p.bootstrapStateAssignments = []

/-- The conditions for an agreement at depth `k`. -/
structure FrontierAgreement (p : KInductionProblem) (k : Nat) : Prop where
  facts : p.SameStartupFacts
  domain : p.PreservesDomain
  keeps : ∀ q, p.Slice q → q.KeepsStartup q.plainFacts (q.frontierFrame k) (q.frontierFrame k)
  observation : p.hasSeveralOutputs = true →
    p.baseStartup.initialMode.assertsObservation = false ∧
    p.baseStartup.observationFrontier = false
  observes : p.hasSeveralOutputs = true → p.ObservesOutputs

/-- The problems that the recursion asks about: the problem itself and, where it has too many
outputs for one query, its subsets. -/
inductive Asked (p : KInductionProblem) : KInductionProblem → Prop where
  | self : Asked p p
  | subset {q : KInductionProblem} {t : Nat × Nat} (h : Asked p q)
      (hwide : kMaxImcAssumptionFrontierBatchOutputs < q.observedOutputExprs0.length)
      (ht : t ∈ q.buildStrictImcOutputSubsets) : Asked p (q.outputSubset t.1 t.2)

theorem Asked.trans {q r : KInductionProblem} (h : p.Asked q) (h' : q.Asked r) : p.Asked r := by
  induction h' with
  | self => exact h
  | subset _ hwide ht ih => exact .subset ih hwide ht

/-- A problem with few outputs is asked as a whole. -/
theorem Asked.eq_of_few {q : KInductionProblem} (h : p.Asked q)
    (hfew : p.observedOutputExprs0.length ≤ kMaxImcAssumptionFrontierBatchOutputs) : q = p := by
  induction h with
  | self => rfl
  | subset _ hwide _ ih =>
    subst ih
    exact absurd hwide (Nat.not_lt.mpr hfew)

/-- No output of these problems reads a symbol that the cone of its bad formula leaves out. -/
def LeavesHeld (p : KInductionProblem) (k : Nat) : Prop :=
  ∀ q, p.Asked q → q.hasSeveralOutputs = true → ∀ i < q.observedOutputExprs0.length,
    addFormulaSupport (outputMismatch q i) ⊆
      q.baseSolverSymbols (q.frontierFrame k) (q.frontierFrame k)

theorem LeavesHeld.asked {q : KInductionProblem} {k : Nat} (h : p.LeavesHeld k)
    (hq : p.Asked q) : q.LeavesHeld k := fun r hr => h r (hq.trans hr)

/-- A search result with the right answer. -/
def Answers (k : Nat) (r : Option Nat) (P : Prop) : Prop := (r = some k ∧ P) ∨ (r = none ∧ ¬ P)

theorem Answers.found {k : Nat} {P : Prop} (h : P) : Answers k (some k) P := .inl ⟨rfl, h⟩

theorem Answers.safe {k : Nat} {P : Prop} (h : ¬ P) : Answers k none P := .inr ⟨rfl, h⟩

theorem Answers.congr {k : Nat} {r : Option Nat} {P Q : Prop} (h : Answers k r P) (hiff : P ↔ Q) :
    Answers k r Q := by
  rcases h with ⟨rfl, h⟩ | ⟨rfl, h⟩
  · exact .found (hiff.mp h)
  · exact .safe fun hq => h (hiff.mpr hq)

theorem Answers.eq {k : Nat} {r r' : Option Nat} {P : Prop} (h : Answers k r P)
    (h' : Answers k r' P) : r = r' := by
  rcases h with ⟨rfl, h⟩ | ⟨rfl, h⟩ <;> rcases h' with ⟨rfl, h'⟩ | ⟨rfl, h'⟩
  · rfl
  · exact absurd h h'
  · exact absurd h' h
  · rfl

/-- A search that returns, with the right answer. -/
def Returns (k : Nat) (r : Except String (Option Nat)) (P : Prop) : Prop :=
  ∃ a, r = .ok a ∧ Answers k a P

theorem Answers.returns {k : Nat} {r : Option Nat} {P : Prop} (h : Answers k r P) :
    Returns k (.ok r) P := ⟨r, rfl, h⟩

theorem Returns.congr {k : Nat} {r : Except String (Option Nat)} {P Q : Prop} (h : Returns k r P)
    (hiff : P ↔ Q) : Returns k r Q := by
  obtain ⟨a, ha, h⟩ := h
  exact ⟨a, ha, h.congr hiff⟩

theorem Returns.eq {k : Nat} {r : Except String (Option Nat)} {a : Option Nat} {P : Prop}
    (h : Returns k r P) (h' : Answers k a P) : r = .ok a := by
  obtain ⟨b, rfl, h⟩ := h
  rw [h.eq h']

/-! ## The plain and the cached query -/

theorem findFirstBadFrame_eq {m : Trace} {f : Nat} (h : p.bad.eval (m f) = true) :
    p.findFirstBadFrame m f f = some f := by
  unfold findFirstBadFrame
  cases hfind : ((List.range (f + 1)).filter (f ≤ ·)).find? fun g => p.bad.eval (m g) with
  | none =>
    have hno := List.find?_eq_none.mp hfind f (by simp)
    exact absurd h hno
  | some g =>
    have hmem := List.mem_of_find?_eq_some hfind
    simp only [List.mem_filter, List.mem_range, decide_eq_true_eq] at hmem
    obtain rfl : g = f := by omega
    rfl

theorem buildCounterexampleWitness_eq {m : Trace} {k : Nat}
    (h : p.bad.eval (m (p.frontierFrame k)) = true) :
    p.buildCounterexampleWitness m (p.frontierFrame k) (p.frontierFrame k) = some k := by
  unfold buildCounterexampleWitness
  rw [findFirstBadFrame_eq h]
  simp [frontierFrame]

theorem frontierBad_iff_badRun {k : Nat} :
    p.FrontierBad k ↔
      p.BadRun p.plainFacts (p.frontierFrame k) (p.frontierFrame k) (p.frontierFrame k) := by
  constructor
  · rintro ⟨τ, hτ, hbad⟩
    exact ⟨τ, hτ, _, Nat.le_refl _, Nat.le_refl _, hbad⟩
  · rintro ⟨τ, hτ, f, hfirst, hlast, hbad⟩
    obtain rfl : f = p.frontierFrame k := Nat.le_antisymm hlast hfirst
    exact ⟨τ, hτ, hbad⟩

/-- The plain frontier query is exact. -/
theorem satisfiable_iff_frontierBad {k : Nat} (hpres : p.PreservesDomain)
    (hkeeps : p.KeepsStartup p.plainFacts (p.frontierFrame k) (p.frontierFrame k)) :
    Satisfiable evalAtom
      (p.baseQuery p.plainFacts (p.frontierFrame k) (p.frontierFrame k) (p.frontierFrame k)) ↔
      p.FrontierBad k := by
  rw [frontierBad_iff_badRun]
  exact ⟨badRun_of_satisfiable hpres hkeeps (Nat.le_add_left _ _) (Nat.le_refl _),
    satisfiable_of_badRun⟩

/-- With the same startup facts the cached query has the clauses of the plain one. -/
theorem basePrefixQuery_cachedFacts (h : p.SameStartupFacts) (st : BaseStartup)
    (coi : BaseCaseCoi) (n : Nat) :
    p.basePrefixQuery p.cachedFacts st coi n = p.basePrefixQuery p.plainFacts st coi n := by
  unfold basePrefixQuery cachedFacts plainFacts
  by_cases hzero : p.resetBootstrapFrames = 0
  · simp [hzero]
  · cases hrail : p.usesDualRailStateEncoding with
    | false => simp
    | true =>
      obtain ⟨hinitial, hbootstrap⟩ := h hzero hrail
      simp [hinitial, hbootstrap, addInitialStateAssignments, addBootstrapStateAssignments,
        addStateAssignments]

section Searches
variable {σ : Type} {S : FrameSolver σ} {solverType : SolverType} {k : Nat}

theorem query_answers (hS : S.Decides) (hpres : p.PreservesDomain)
    (hkeeps : p.KeepsStartup p.plainFacts (p.frontierFrame k) (p.frontierFrame k)) (s : σ)
    (profile : BaseCaseSolverProfile) :
    Answers k (findBaseCounterexampleQuery S solverType k s p (some k) profile).1.1
      (p.FrontierQuestion k) := by
  unfold findBaseCounterexampleQuery
  rw [badFrames_frontier]
  by_cases hbefore : p.frontierFrame k < p.baseStartup.firstBadFrame
  · rw [if_pos hbefore]
    exact .safe fun h => absurd h.1 (Nat.not_le.mpr hbefore)
  · rw [if_neg hbefore]
    simp only
    have hle := Nat.not_lt.mp hbefore
    have hiff := satisfiable_iff_frontierBad hpres hkeeps
    split
    · rename_i m s' hsolve
      have hmodel := (S.sat_sound _ _ _ _ m (congrArg Prod.fst hsolve)).1
      obtain ⟨_, f, hfirst, hlast, hbad⟩ := evalQuery_baseQuery.mp hmodel
      obtain rfl : f = p.frontierFrame k := Nat.le_antisymm hlast hfirst
      have hwitness : p.frontierFrame k - p.resetBootstrapFrames = k := by simp [frontierFrame]
      rw [buildCounterexampleWitness_eq hbad, hwitness, ite_self]
      exact .found ⟨hle, hiff.mp ⟨m, hmodel⟩⟩
    · rename_i s' hsolve
      have hunsat := S.not_satisfiable (congrArg Prod.fst hsolve)
      exact .safe fun h => hunsat (hiff.mpr h.2)
    · rename_i s' hsolve
      exact absurd (congrArg Prod.fst hsolve) (hS _ _ _ _)

theorem cached_answers (hS : S.Decides) (hfacts : p.SameStartupFacts) (hpres : p.PreservesDomain)
    (hkeeps : p.KeepsStartup p.plainFacts (p.frontierFrame k) (p.frontierFrame k)) (s : σ)
    (profile : BaseCaseSolverProfile) :
    Answers k (findImcCachedBaseCounterexampleAtFrontierQuery S solverType k s p profile).1
      (p.FrontierQuestion k) := by
  unfold findImcCachedBaseCounterexampleAtFrontierQuery
  rw [badFrames_frontier]
  by_cases hbefore : p.frontierFrame k < p.baseStartup.firstBadFrame
  · rw [if_pos hbefore]
    exact .safe fun h => absurd h.1 (Nat.not_le.mpr hbefore)
  · rw [if_neg hbefore]
    have hquery : p.baseQuery p.cachedFacts (p.frontierFrame k) (p.frontierFrame k)
        (p.frontierFrame k) = p.baseQuery p.plainFacts (p.frontierFrame k) (p.frontierFrame k)
          (p.frontierFrame k) := by
      unfold baseQuery
      simp only [basePrefixQuery_cachedFacts hfacts]
    simp only [hquery]
    have hle := Nat.not_lt.mp hbefore
    have hiff := satisfiable_iff_frontierBad hpres hkeeps
    split
    · rename_i m s' hsolve
      have hmodel := (S.sat_sound _ _ _ _ m (congrArg Prod.fst hsolve)).1
      obtain ⟨_, f, hfirst, hlast, hbad⟩ := evalQuery_baseQuery.mp hmodel
      obtain rfl : f = p.frontierFrame k := Nat.le_antisymm hlast hfirst
      rw [buildCounterexampleWitness_eq hbad]
      exact .found ⟨hle, hiff.mp ⟨m, hmodel⟩⟩
    · rename_i a s' hnotSat hsolve
      cases a with
      | sat m => exact absurd rfl (hnotSat m)
      | unsat =>
        have hunsat := S.not_satisfiable (congrArg Prod.fst hsolve)
        exact .safe fun h => hunsat (hiff.mpr h.2)
      | unknown => exact absurd (congrArg Prod.fst hsolve) (hS _ _ _ _)

/-! ## Slices -/

end Searches

/-- A slice has the runs of its source where startup asserts no observation. -/
theorem unrolling_observing {view : OutputView} {facts : StartupFacts} {n : Nat} {τ : Trace}
    (hstart : p.baseStartup.initialMode.assertsObservation = false)
    (hfrontier : p.baseStartup.observationFrontier = false) :
    (p.observing view).Unrolling facts n τ ↔ p.Unrolling facts n τ := by
  constructor
  · intro h
    refine ⟨fun f hf => domainValid_observing.mp (h.domain f hf), h.transitions,
      ⟨h.reset.asserted, h.reset.deasserted⟩, fun X => ⟨(h.starts X).initialAssignments,
        (h.starts X).initialCondition, fun hobs => ?_, fun hobs => ?_,
        (h.starts X).bootstrapAssignments⟩⟩
    · rw [hstart] at hobs
      cases hobs
    · rw [hfrontier] at hobs
      cases hobs
  · intro h
    refine ⟨fun f hf => domainValid_observing.mpr (h.domain f hf), h.transitions,
      ⟨h.reset.asserted, h.reset.deasserted⟩, fun X => ⟨(h.starts X).initialAssignments,
        (h.starts X).initialCondition, fun hobs => ?_, fun hobs => ?_,
        (h.starts X).bootstrapAssignments⟩⟩
    · have hobs' : p.baseStartup.initialMode.assertsObservation = true := hobs
      rw [hstart] at hobs'
      cases hobs'
    · have hobs' : p.baseStartup.observationFrontier = true := hobs
      rw [hfrontier] at hobs'
      cases hobs'

/-- Without an observation the first bad frame is the reset frontier. -/
theorem firstBadFrame_le_frontierFrame (k : Nat)
    (hstart : p.baseStartup.initialMode.assertsObservation = false)
    (hfrontier : p.baseStartup.observationFrontier = false) :
    p.baseStartup.firstBadFrame ≤ p.frontierFrame k := by
  have hfirst : p.baseStartup.firstBadFrame = if p.resetBootstrapFrames ≠ 0 then
      p.resetBootstrapFrames + (if p.baseStartup.observationFrontier then 1 else 0)
    else if p.baseStartup.initialMode.assertsObservation then 1 else 0 := rfl
  rw [hfirst, hstart, hfrontier]
  unfold frontierFrame
  simp only [Bool.false_eq_true, if_false, Nat.add_zero]
  split <;> omega

/-- A problem that observes its outputs has a bad run at the frontier exactly when one
of its outputs differs there. -/
theorem frontierQuestion_iff_differs {k : Nat} (hobserves : p.ObservesOutputs)
    (hstart : p.baseStartup.initialMode.assertsObservation = false)
    (hfrontier : p.baseStartup.observationFrontier = false) :
    p.FrontierQuestion k ↔ ∃ i < p.observedOutputExprs0.length,
      ∃ τ, p.Unrolling p.plainFacts (p.frontierFrame k) τ ∧
        p.outputDiffers i (τ (p.frontierFrame k)) := by
  have hle := firstBadFrame_le_frontierFrame k hstart hfrontier
  constructor
  · rintro ⟨_, τ, hτ, hbad⟩
    obtain ⟨i, hi, hdiffers⟩ := (hobserves _).mp hbad
    exact ⟨i, hi, τ, hτ, hdiffers⟩
  · rintro ⟨i, hi, τ, hτ, hdiffers⟩
    exact ⟨hle, τ, hτ, (hobserves _).mpr ⟨i, hi, hdiffers⟩⟩

/-- The question about one output is that about its slice. -/
theorem frontierQuestion_single {k : Nat} (i : Nat)
    (hstart : p.baseStartup.initialMode.assertsObservation = false)
    (hfrontier : p.baseStartup.observationFrontier = false) :
    (p.makeSingleObservedOutputProblem i).FrontierQuestion k ↔
      ∃ τ, p.Unrolling p.plainFacts (p.frontierFrame k) τ ∧
        p.outputDiffers i (τ (p.frontierFrame k)) := by
  rw [frontierQuestion_iff_differs (observes_single i) hstart hfrontier]
  constructor
  · rintro ⟨j, hj, τ, hτ, hdiffers⟩
    obtain rfl : j = 0 := Nat.lt_one_iff.mp hj
    exact ⟨τ, (unrolling_observing hstart hfrontier).mp hτ, hdiffers⟩
  · rintro ⟨τ, hτ, hdiffers⟩
    exact ⟨0, Nat.zero_lt_one, τ, (unrolling_observing hstart hfrontier).mpr hτ, hdiffers⟩

theorem frontierQuestion_batch {k firstOutput endOutput : Nat}
    (hsides : p.observedOutputExprs0.length = p.observedOutputExprs1.length)
    (hend : endOutput ≤ p.observedOutputExprs0.length)
    (hstart : p.baseStartup.initialMode.assertsObservation = false)
    (hfrontier : p.baseStartup.observationFrontier = false) :
    (p.configureOutputBatchProblem firstOutput endOutput).FrontierQuestion k ↔
      ∃ i, firstOutput ≤ i ∧ i < endOutput ∧
        ∃ τ, p.Unrolling p.plainFacts (p.frontierFrame k) τ ∧
          p.outputDiffers i (τ (p.frontierFrame k)) := by
  rw [frontierQuestion_iff_differs (observes_batch hsides _ _) hstart hfrontier,
    length_configureOutputBatchProblem hend]
  constructor
  · rintro ⟨j, hj, τ, hτ, hdiffers⟩
    refine ⟨firstOutput + j, by omega, by omega, τ, (unrolling_observing hstart hfrontier).mp hτ,
      ?_⟩
    unfold outputDiffers at hdiffers ⊢
    rw [observedOutput_batch (by omega)] at hdiffers
    exact hdiffers
  · rintro ⟨i, hfirst, hlast, τ, hτ, hdiffers⟩
    obtain ⟨j, rfl⟩ := Nat.exists_eq_add_of_le hfirst
    refine ⟨j, by omega, τ, (unrolling_observing hstart hfrontier).mpr hτ, ?_⟩
    unfold outputDiffers at hdiffers ⊢
    rw [observedOutput_batch (by omega)]
    exact hdiffers

/-- The conditions carry over to the slices. -/
theorem FrontierAgreement.slice {q : KInductionProblem} {k : Nat} (h : p.FrontierAgreement k)
    (hseveral : p.hasSeveralOutputs = true) (hq : p.Slice q) : q.FrontierAgreement k := by
  have hsides : p.observedOutputExprs0.length = p.observedOutputExprs1.length := by
    simp only [hasSeveralOutputs, Bool.and_eq_true, beq_iff_eq] at hseveral
    exact hseveral.2
  have hobserves := hq.observes hsides (h.observes hseveral)
  refine ⟨?_, ?_, fun r hr => h.keeps r (hq.trans hr), fun _ => ?_, fun _ => hobserves⟩
  · rcases hq.exists_view with rfl | ⟨view, rfl⟩ <;> exact h.facts
  · rcases hq.exists_view with rfl | ⟨view, rfl⟩
    · exact h.domain
    · exact preservesDomain_observing h.domain
  · rcases hq.exists_view with rfl | ⟨view, rfl⟩ <;> exact h.observation hseveral

/-! ## The searches by output -/

section Slices
variable {σ : Type} {S : FrameSolver σ} {solverType : SolverType} {k : Nat}

theorem findSingleOutput_answers (hS : S.Decides) (h : p.FrontierAgreement k)
    (hseveral : p.hasSeveralOutputs = true) (profile : BaseCaseSolverProfile)
    (outputs : List Nat) (hrange : ∀ i ∈ outputs, i < p.observedOutputExprs0.length) (s : σ) :
    Answers k
      (findSingleOutputCounterexample S solverType k p (some k) profile s outputs).1
      (∃ i ∈ outputs, (p.makeSingleObservedOutputProblem i).FrontierQuestion k) := by
  induction outputs generalizing s with
  | nil => exact .safe (by simp)
  | cons i outputs ih =>
    have hslice := h.slice hseveral (.single .self (hrange i (by simp)))
    have hanswer := @query_answers _ _ S solverType _ hS hslice.domain
      (hslice.keeps _ .self) s profile
    unfold findSingleOutputCounterexample
    split
    · rename_i frame status s' hquery
      rw [hquery] at hanswer
      rcases hanswer with ⟨hframe, hquestion⟩ | ⟨hnone, _⟩
      · rw [show some frame = some k from hframe]
        exact .found ⟨i, by simp, hquestion⟩
      · cases hnone
    · rename_i status s' hquery
      rw [hquery] at hanswer
      rcases hanswer with ⟨hsome, _⟩ | ⟨_, hno⟩
      · cases hsome
      · refine (ih (fun j hj => hrange j (by simp [hj])) s').congr ?_
        simp [hno]

/-- What the several outputs of a problem are asked. -/
theorem frontierQuestion_iff_single (h : p.FrontierAgreement k)
    (hseveral : p.hasSeveralOutputs = true) :
    p.FrontierQuestion k ↔ ∃ i < p.observedOutputExprs0.length,
      (p.makeSingleObservedOutputProblem i).FrontierQuestion k := by
  obtain ⟨hstart, hfrontier⟩ := h.observation hseveral
  rw [frontierQuestion_iff_differs (h.observes hseveral) hstart hfrontier]
  simp only [frontierQuestion_single _ hstart hfrontier]

theorem mem_outputOrder {profile : BaseCaseSolverProfile} {i : Nat} :
    i ∈ p.outputOrder profile ↔ i < p.observedOutputExprs0.length := by
  unfold outputOrder
  simp only
  split <;> simp

theorem perOutput_answers (hS : S.Decides) (h : p.FrontierAgreement k)
    (hseveral : p.hasSeveralOutputs = true) (profile : BaseCaseSolverProfile) (s : σ) :
    Answers k (findPerOutputBaseCounterexampleAtFrontier S solverType k s p (some k) profile).1
      (p.FrontierQuestion k) := by
  unfold findPerOutputBaseCounterexampleAtFrontier
  simp only [Option.isNone_some, hseveral, Bool.not_true, Bool.or_self, Bool.false_eq_true,
    if_false]
  refine (findSingleOutput_answers hS h hseveral profile _ (fun i hi => mem_outputOrder.mp hi)
    s).congr ?_
  rw [frontierQuestion_iff_single h hseveral]
  simp only [mem_outputOrder]

/-- Some model of the shared prefix lets output `i` differ. -/
def PrefixDiffers (p : KInductionProblem) (k i : Nat) : Prop :=
  ∃ m, evalQuery (evalAtom m) (frontierPrefixQuery k p (p.frontierFrame k)) = true ∧
    p.outputDiffers i (m (p.frontierFrame k))

theorem evalLit_outputMismatch {m : Trace} {frame i : Nat} :
    evalLit (evalAtom m) (encode frame (outputMismatch p i)) = true ↔
      p.outputDiffers i (m frame) := by
  simp [outputMismatch, outputDiffers]

/-- The outputs are encoded exactly where the cone holds what they read. -/
theorem outputBadLits_ok {first : Nat} {lits : List FrameLit} :
    outputBadLits k p first = .ok lits ↔
      (∀ i < p.observedOutputExprs0.length, addFormulaSupport (outputMismatch p i) ⊆
        p.baseSolverSymbols (p.frontierFrame k) first) ∧
      lits = (List.range p.observedOutputExprs0.length).map fun i =>
        encode first (outputMismatch p i) := by
  constructor
  · intro h
    refine ⟨fun i hi => ?_, ?_⟩
    · obtain ⟨l, hl⟩ := ok_of_mapM h (List.mem_range.mpr hi)
      exact (encodeLeaves_ok.mp hl).1
    · rw [← List.map_id lits]
      exact mapM_map_eq h fun i _ l hl => (encodeLeaves_ok.mp hl).2
  · rintro ⟨hleaves, rfl⟩
    obtain ⟨lits, hlits⟩ := @mapM_ok String Nat FrameLit
      (fun i => encodeLeaves (p.baseSolverSymbols (p.frontierFrame k) first) first
        (outputMismatch p i)) (List.range p.observedOutputExprs0.length)
      fun i hi => ⟨_, encodeLeaves_ok.mpr ⟨hleaves i (List.mem_range.mp hi), rfl⟩⟩
    refine Eq.trans hlits (congrArg Except.ok ?_)
    rw [← List.map_id lits]
    exact mapM_map_eq hlits fun i _ l hl => (encodeLeaves_ok.mp hl).2

/-- The prefix with some output differing is the frontier query. -/
theorem prefixDiffers_iff_frontierBad (h : p.FrontierAgreement k) (hobserves : p.ObservesOutputs) :
    (∃ i < p.observedOutputExprs0.length, p.PrefixDiffers k i) ↔ p.FrontierBad k := by
  rw [← satisfiable_iff_frontierBad h.domain (h.keeps p .self)]
  have hprefixRun : frontierPrefixQuery k p (p.frontierFrame k) =
      p.basePrefixQuery p.plainFacts (p.queryStartup (p.frontierFrame k))
        (p.buildBaseCaseCoi (p.queryStartup (p.frontierFrame k)) (p.frontierFrame k))
        (p.frontierFrame k) := basePrefixQuery_cachedFacts h.facts _ _ _
  have hquery : ∀ m, evalQuery (evalAtom m) (p.baseQuery p.plainFacts (p.frontierFrame k)
      (p.frontierFrame k) (p.frontierFrame k)) = true ↔
      evalQuery (evalAtom m) (frontierPrefixQuery k p (p.frontierFrame k)) = true ∧
        p.bad.eval (m (p.frontierFrame k)) = true := by
    intro m
    rw [hprefixRun, baseQuery, evalQuery_append, Bool.and_eq_true, evalQuery_cons, evalQuery_nil,
      Bool.and_true, eval_badClause]
    refine and_congr_right fun _ => ⟨?_, fun hbad => ⟨_, Nat.le_refl _, Nat.le_refl _, hbad⟩⟩
    rintro ⟨f, hfirst, hlast, hbad⟩
    rwa [Nat.le_antisymm hlast hfirst] at hbad
  constructor
  · rintro ⟨i, hi, m, hm, hdiffers⟩
    exact ⟨m, (hquery m).mpr ⟨hm, (hobserves _).mpr ⟨i, hi, hdiffers⟩⟩⟩
  · rintro ⟨m, hm⟩
    obtain ⟨hprefixRun, hbad⟩ := (hquery m).mp hm
    obtain ⟨i, hi, hdiffers⟩ := (hobserves _).mp hbad
    exact ⟨i, hi, m, hprefixRun, hdiffers⟩

theorem solveOutputAssumptions_answers (hS : S.Decides) (hobserves : p.ObservesOutputs)
    (lits : List (FrameLit × Nat))
    (hlits : ∀ l ∈ lits, l.2 < p.observedOutputExprs0.length ∧
      l.1 = encode (p.frontierFrame k) (outputMismatch p l.2)) (s : σ) :
    Returns k ((solveOutputAssumptions S solverType k p (p.frontierFrame k) s lits).map Prod.fst)
      (∃ l ∈ lits, p.PrefixDiffers k l.2) := by
  induction lits generalizing s with
  | nil => exact (Answers.safe (by simp)).returns
  | cons l lits ih =>
    obtain ⟨bad, i⟩ := l
    obtain ⟨hi, hbad⟩ := hlits (bad, i) List.mem_cons_self
    simp only at hi hbad
    subst hbad
    unfold solveOutputAssumptions
    split
    · rename_i m s' hsolve
      obtain ⟨hmodel, hassumed⟩ := S.sat_sound _ _ _ _ m (congrArg Prod.fst hsolve)
      have hdiffers := evalLit_outputMismatch.mp (hassumed _ List.mem_cons_self)
      have hbad := (hobserves _).mpr ⟨i, hi, hdiffers⟩
      rw [buildCounterexampleWitness_eq hbad]
      exact (Answers.found ⟨(_, i), List.mem_cons_self, m, hmodel, hdiffers⟩).returns
    · rename_i s' hsolve
      have hno : ¬ p.PrefixDiffers k i := by
        rintro ⟨m, hm, hdiffers⟩
        obtain ⟨a, ha, hfalse⟩ := S.unsat_sound _ _ _ _ (congrArg Prod.fst hsolve) m hm
        rw [List.mem_singleton] at ha
        subst ha
        rw [evalLit_outputMismatch.mpr hdiffers] at hfalse
        cases hfalse
      refine (ih (fun l hl => hlits l (List.mem_cons_of_mem _ hl)) s').congr ?_
      simp [hno]
    · rename_i s' hsolve
      exact absurd (congrArg Prod.fst hsolve) (hS _ _ _ _)

theorem assumption_answers (hS : S.Decides) (h : p.FrontierAgreement k)
    (hleaves : p.LeavesHeld k) (hseveral : p.hasSeveralOutputs = true) (s : σ) :
    Returns k ((findImcAssumptionBaseCounterexampleAtFrontier S solverType k s p).map Prod.fst)
      (p.FrontierQuestion k) := by
  obtain ⟨hstart, hfrontier⟩ := h.observation hseveral
  have hobserves := h.observes hseveral
  have hle := firstBadFrame_le_frontierFrame k hstart hfrontier
  have hlits := outputBadLits_ok.mpr ⟨hleaves p .self hseveral, rfl⟩
  simp only [hasSeveralOutputs, Bool.and_eq_true, decide_eq_true_eq, beq_iff_eq] at hseveral
  have hnonempty : p.observedOutputExprs0.isEmpty = false := by
    cases hempty : p.observedOutputExprs0 with
    | nil => simp [hempty] at hseveral
    | cons o os => rfl
  unfold findImcAssumptionBaseCounterexampleAtFrontier
  simp only [hnonempty, hseveral.2, bne_self_eq_false, Bool.or_self, Bool.false_eq_true, if_false]
  rw [badFrames_frontier, if_neg (Nat.not_lt.mpr hle)]
  simp only [hlits, ok_bind]
  -- the literal at an index is that of the output there
  have hindex : ∀ l i, (l, i) ∈ ((List.range p.observedOutputExprs0.length).map fun i =>
      encode (p.frontierFrame k) (outputMismatch p i)).zipIdx ↔
        i < p.observedOutputExprs0.length ∧
          l = encode (p.frontierFrame k) (outputMismatch p i) := by
    intro l i
    rw [List.mem_zipIdx_iff_getElem?, List.getElem?_map, Option.map_eq_some_iff]
    simp only [List.getElem?_eq_some_iff, List.getElem_range, List.length_range]
    constructor
    · rintro ⟨j, ⟨hj, rfl⟩, rfl⟩
      exact ⟨hj, rfl⟩
    · rintro ⟨hi, rfl⟩
      exact ⟨i, ⟨hi, rfl⟩, rfl⟩
  refine (solveOutputAssumptions_answers hS hobserves _ (fun l hl => (hindex l.1 l.2).mp hl)
    s).congr ?_
  unfold FrontierQuestion
  rw [← prefixDiffers_iff_frontierBad h hobserves, and_iff_right hle]
  constructor
  · rintro ⟨l, hl, hdiffers⟩
    exact ⟨l.2, ((hindex l.1 l.2).mp hl).1, hdiffers⟩
  · rintro ⟨i, hi, hdiffers⟩
    exact ⟨(_, i), (hindex _ i).mpr ⟨hi, rfl⟩, hdiffers⟩

/-! ## The recursion over subsets -/

theorem tiles_buildStrictImcOutputSubsets (hseveral : 1 < p.observedOutputExprs0.length) :
    Tiles 0 p.buildStrictImcOutputSubsets p.observedOutputExprs0.length := by
  unfold buildStrictImcOutputSubsets
  simp only [Nat.not_le.mpr hseveral, if_false]
  split
  · exact .cons (by omega) (.cons (by omega) (.nil _))
  · exact tiles_buildSupportBoundedOutputBatches _

theorem slice_outputSubset {t : Nat × Nat} (hlt : t.1 < t.2)
    (hend : t.2 ≤ p.observedOutputExprs0.length) : p.Slice (p.outputSubset t.1 t.2) := by
  unfold outputSubset
  split
  · exact .self
  · split
    · exact .single .self (by omega)
    · exact .batch .self hlt hend

/-- The question about a subset is that about its outputs. -/
theorem frontierQuestion_outputSubset (h : p.FrontierAgreement k)
    (hseveral : p.hasSeveralOutputs = true) {t : Nat × Nat}
    (hend : t.2 ≤ p.observedOutputExprs0.length) :
    (p.outputSubset t.1 t.2).FrontierQuestion k ↔
      ∃ i, t.1 ≤ i ∧ i < t.2 ∧ ∃ τ, p.Unrolling p.plainFacts (p.frontierFrame k) τ ∧
        p.outputDiffers i (τ (p.frontierFrame k)) := by
  obtain ⟨hstart, hfrontier⟩ := h.observation hseveral
  have hsides : p.observedOutputExprs0.length = p.observedOutputExprs1.length := by
    simp only [hasSeveralOutputs, Bool.and_eq_true, beq_iff_eq] at hseveral
    exact hseveral.2
  unfold outputSubset
  split
  · rename_i hwhole
    rw [frontierQuestion_iff_differs (h.observes hseveral) hstart hfrontier, hwhole.1, hwhole.2]
    simp
  · split
    · rename_i hone
      rw [frontierQuestion_single _ hstart hfrontier, hone]
      constructor
      · exact fun hτ => ⟨t.1, Nat.le_refl _, Nat.lt_succ_self _, hτ⟩
      · rintro ⟨i, hfirst, hlast, hτ⟩
        rwa [Nat.le_antisymm (Nat.lt_succ_iff.mp hlast) hfirst] at hτ
    · exact frontierQuestion_batch hsides hend hstart hfrontier

theorem searchOutputSubsets_answers
    {search : σ → KInductionProblem → Except String (Option Nat × σ)}
    (subsets : List (Nat × Nat))
    (hsearch : ∀ t ∈ subsets, ∀ s, Returns k ((search s (p.outputSubset t.1 t.2)).map Prod.fst)
      ((p.outputSubset t.1 t.2).FrontierQuestion k)) (s : σ) :
    Returns k ((searchOutputSubsets search p s subsets).map Prod.fst)
      (∃ t ∈ subsets, (p.outputSubset t.1 t.2).FrontierQuestion k) := by
  induction subsets generalizing s with
  | nil => exact (Answers.safe (by simp)).returns
  | cons t subsets ih =>
    obtain ⟨answer, hanswer, hcorrect⟩ := hsearch t List.mem_cons_self s
    unfold searchOutputSubsets
    cases hcall : search s (p.outputSubset t.1 t.2) with
    | error e =>
      rw [hcall] at hanswer
      cases hanswer
    | ok r =>
      rw [hcall] at hanswer
      obtain ⟨witness, s'⟩ := r
      obtain rfl : witness = answer := Except.ok.inj hanswer
      rcases hcorrect with ⟨rfl, hquestion⟩ | ⟨rfl, hno⟩
      · exact (Answers.found ⟨t, List.mem_cons_self, hquestion⟩).returns
      · refine (ih (fun u hu => hsearch u (List.mem_cons_of_mem _ hu)) s').congr ?_
        simp [hno]

/-- Kissat asks no assumptions. -/
theorem recursive_answers (hS : S.Decides) (fuel : Nat) (h : p.FrontierAgreement k)
    (hleaves : solverType ≠ .kissat → p.LeavesHeld k) (s : σ) :
    Returns k ((findImcBaseCounterexampleAtFrontierImpl S solverType k fuel s p).map Prod.fst)
      (p.FrontierQuestion k) := by
  have hcached : ∀ {q : KInductionProblem}, q.FrontierAgreement k → ∀ s,
      Returns k ((pure (findImcCachedBaseCounterexampleAtFrontierQuery S solverType k s q
        .secConeProof) : Except String (Option Nat × σ)).map Prod.fst) (q.FrontierQuestion k) :=
    fun hq s => (cached_answers hS hq.facts hq.domain (hq.keeps _ .self) s .secConeProof).returns
  induction fuel generalizing p s with
  | zero => exact hcached h s
  | succ fuel ih =>
    unfold findImcBaseCounterexampleAtFrontierImpl
    split
    · rename_i hseveral
      split
      · split
        · exact hcached h s
        · rename_i hassumes
          exact assumption_answers hS h (hleaves hassumes) hseveral s
      · -- the subsets cover the outputs, and each search answers for its own
        rename_i hwide
        obtain ⟨hstart, hfrontier⟩ := h.observation hseveral
        have hmany : 1 < p.observedOutputExprs0.length := by
          simp only [hasSeveralOutputs, Bool.and_eq_true, decide_eq_true_eq] at hseveral
          exact hseveral.1
        have htiles := tiles_buildStrictImcOutputSubsets hmany
        refine (searchOutputSubsets_answers _ (fun t ht s' => ?_) s).congr ?_
        · obtain ⟨_, hlt, hend⟩ := htiles.bounds ht
          exact ih (h.slice hseveral (slice_outputSubset hlt hend))
            (fun hassumes => (hleaves hassumes).asked (.subset .self (Nat.not_le.mp hwide) ht)) s'
        · rw [frontierQuestion_iff_differs (h.observes hseveral) hstart hfrontier]
          constructor
          · rintro ⟨t, ht, hquestion⟩
            obtain ⟨_, _, hend⟩ := htiles.bounds ht
            obtain ⟨i, _, hi, hτ⟩ :=
              (frontierQuestion_outputSubset h hseveral hend).mp hquestion
            exact ⟨i, by omega, hτ⟩
          · rintro ⟨i, hi, hτ⟩
            obtain ⟨t, ht, hfirst, hlast⟩ := htiles.covers (Nat.zero_le i) hi
            obtain ⟨_, _, hend⟩ := htiles.bounds ht
            exact ⟨t, ht, (frontierQuestion_outputSubset h hseveral hend).mpr
              ⟨i, hfirst, hlast, hτ⟩⟩
    · exact hcached h s

end Slices

/-! ## Agreement -/

/-- The answers of the searches for frame `k` after the reset prefix: one query, one
query per output, the cached query, the assumption query and the recursion. The last two
may throw. -/
structure FrontierAnswers where
  plain : Option Nat
  localized : Option Nat
  cached : Option Nat
  assumption : Except String (Option Nat)
  recursive : Except String (Option Nat)
  deriving DecidableEq

/-- Each search runs with its own solver state. -/
def frontierAnswers {σ : Type} (S : FrameSolver σ) (s : Nat → σ) (solverType : SolverType) (k : Nat)
    (p : KInductionProblem) : FrontierAnswers where
  plain := (findBaseCounterexampleImpl S solverType k (s 0) p (some k) false .secConeProof).1.1
  localized := (findBaseCounterexampleImpl S solverType k (s 1) p (some k) true .secConeProof).1.1
  cached := (findImcCachedBaseCounterexampleAtFrontierQuery S solverType k (s 2) p
    .secConeProof).1
  assumption :=
    if p.hasSeveralOutputs then
      (findImcAssumptionBaseCounterexampleAtFrontier S solverType k (s 3) p).map Prod.fst
    else
      .ok (findImcCachedBaseCounterexampleAtFrontierQuery S solverType k (s 3) p .secConeProof).1
  recursive := (findImcBaseCounterexampleAtFrontier S solverType k (s 4) p).map Prod.fst

/-- Either every search finds a witness with bad frame `k`, and some run is bad there,
or none finds one, and no run is. -/
theorem frontierSearches_agree {σ : Type} (S : FrameSolver σ) (s : Nat → σ)
    (solverType : SolverType) (p : KInductionProblem) (k : Nat) (hS : S.Decides)
    (h : p.FrontierAgreement k) (hleaves : p.LeavesHeld k) :
    (frontierAnswers S s solverType k p =
        ⟨some k, some k, some k, .ok (some k), .ok (some k)⟩ ∧ p.FrontierQuestion k) ∨
    (frontierAnswers S s solverType k p = ⟨none, none, none, .ok none, .ok none⟩ ∧
      ¬ p.FrontierQuestion k) := by
  have hcached : ∀ s, Answers k
      (findImcCachedBaseCounterexampleAtFrontierQuery S solverType k s p .secConeProof).1
      (p.FrontierQuestion k) := fun s =>
    cached_answers hS h.facts h.domain (h.keeps p .self) s .secConeProof
  have hplain : ∀ s, Answers k
      (findBaseCounterexampleQuery S solverType k s p (some k) .secConeProof).1.1
      (p.FrontierQuestion k) := fun s =>
    query_answers hS h.domain (h.keeps p .self) s .secConeProof
  have hlocalized : Answers k (frontierAnswers S s solverType k p).localized
      (p.FrontierQuestion k) := by
    unfold frontierAnswers findBaseCounterexampleImpl
    cases hseveral : p.hasSeveralOutputs with
    | false => exact hplain _
    | true => exact perOutput_answers hS h hseveral _ _
  have hassumption : Returns k (frontierAnswers S s solverType k p).assumption
      (p.FrontierQuestion k) := by
    unfold frontierAnswers
    cases hseveral : p.hasSeveralOutputs with
    | false => exact (hcached _).returns
    | true => exact assumption_answers hS h hleaves hseveral _
  have hrecursive : Returns k (frontierAnswers S s solverType k p).recursive
      (p.FrontierQuestion k) := recursive_answers hS _ h (fun _ => hleaves) _
  have hplain' : Answers k (frontierAnswers S s solverType k p).plain (p.FrontierQuestion k) :=
    hplain _
  have hcached' : Answers k (frontierAnswers S s solverType k p).cached (p.FrontierQuestion k) :=
    hcached _
  generalize frontierAnswers S s solverType k p = answers at *
  cases answers with
  | mk plain localized cached assumption recursive =>
    cases hlocalized.eq hplain'
    cases hcached'.eq hplain'
    obtain rfl : assumption = .ok plain := hassumption.eq hplain'
    obtain rfl : recursive = .ok plain := hrecursive.eq hplain'
    rcases hplain' with ⟨rfl, hquestion⟩ | ⟨rfl, hno⟩
    · exact .inl ⟨rfl, hquestion⟩
    · exact .inr ⟨rfl, hno⟩

/-- Two registers that hold their start values, and an output on each. -/
def twoLatchProblem : KInductionProblem where
  initialStateAssignments := [(12, false), (13, true)]
  state0Symbols := [12, 13]
  allSymbols := [12, 13]
  observedOutputExprs0 := [.var 12, .var 13]
  observedOutputExprs1 := [.var 0, .var 1]
  transitions0 := [(12, .var 12), (13, .var 13)]
  initialCondition := some (.and (.not (.var 12)) (.var 13))
  initializedStateCount := 2
  totalStateCount := 2
  property := .and (.not (.var 12)) (.var 13)
  bad := .or (.var 12) (.not (.var 13))

theorem twoLatchProblem_agreement (k : Nat) : twoLatchProblem.FrontierAgreement k := by
  have hdomain : ∀ σ, twoLatchProblem.DomainValid σ := fun σ =>
    ⟨by simp [complementedStatePairs, twoLatchProblem],
      by simp [sameFrameStateEqualityPairs, twoLatchProblem], by simp [twoLatchProblem]⟩
  refine ⟨fun hne => absurd rfl hne, fun _ σ' _ _ => hdomain σ', fun q hq => ?_,
    fun _ => ⟨rfl, rfl⟩, fun _ σ => ?_⟩
  · -- no relation leaves the cone of a slice, and the start assignments fit together
    have hextends : ∀ facts X, twoLatchProblem.StartupExtends facts X := by
      intro facts X
      refine startupExtends_of_boundary (hdomain fun s => s == 13) (fun _ a ha => ?_)
        fun pr hpr => ?_
      · have hvalues : a = (12, false) ∨ a = (13, true) := by simpa [twoLatchProblem] using ha
        rcases hvalues with rfl | rfl <;> rfl
      · simp [complementedStatePairs, sameFrameStateEqualityPairs, railPairs, twoLatchProblem]
          at hpr
    rcases hq.exists_view with rfl | ⟨view, rfl⟩
    · exact ⟨by simp [twoLatchProblem], hextends _ _,
        fun _ _ _ _ a ha => absurd ha List.not_mem_nil⟩
    · refine ⟨by simp [twoLatchProblem, observing], fun σ hσ hassigned => ?_,
        fun _ _ _ _ a ha => absurd ha List.not_mem_nil⟩
      obtain ⟨ρ, hρ, hvalid, hinitial⟩ :=
        hextends _ _ σ ⟨hσ.complemented, hσ.equal, hσ.rails⟩ hassigned
      exact ⟨ρ, hρ, domainValid_observing.mpr hvalid, hinitial⟩
  · have hbad : twoLatchProblem.bad.eval σ = (lit σ 12 || !lit σ 13) := rfl
    have h0 : twoLatchProblem.outputDiffers 0 σ ↔ lit σ 12 = true := by
      show ¬ (lit σ 12 = false) ↔ _
      simp
    have h1 : twoLatchProblem.outputDiffers 1 σ ↔ lit σ 13 = false := by
      show ¬ (lit σ 13 = true) ↔ _
      simp
    rw [hbad]
    constructor
    · intro h
      rcases Bool.or_eq_true_iff.mp h with h | h
      · exact ⟨0, by decide, h0.mpr h⟩
      · exact ⟨1, by decide, h1.mpr (by simpa using h)⟩
    · rintro ⟨i, hi, hdiffers⟩
      have hcases : i = 0 ∨ i = 1 := by
        have : i < 2 := hi
        omega
      rcases hcases with rfl | rfl
      · simp [h0.mp hdiffers]
      · simp [h1.mp hdiffers]

/-- The bad formula reads both registers. -/
theorem twoLatchProblem_leavesHeld : twoLatchProblem.LeavesHeld 1 := by
  intro q hq _ i hi
  obtain rfl := hq.eq_of_few (by decide)
  have hcases : i = 0 ∨ i = 1 := by
    have : i < 2 := hi
    omega
  rcases hcases with rfl | rfl
  · decide +kernel
  · decide +kernel

/-- The five searches on the two latches at depth 1. -/
theorem frontierSearches_agree_twoLatch :
    (frontierAnswers exhaustiveSolver (fun _ => ()) .cadical 1 twoLatchProblem =
        ⟨some 1, some 1, some 1, .ok (some 1), .ok (some 1)⟩ ∧
      twoLatchProblem.FrontierQuestion 1) ∨
    (frontierAnswers exhaustiveSolver (fun _ => ()) .cadical 1 twoLatchProblem =
        ⟨none, none, none, .ok none, .ok none⟩ ∧ ¬ twoLatchProblem.FrontierQuestion 1) :=
  frontierSearches_agree exhaustiveSolver (fun _ => ()) .cadical twoLatchProblem 1
    exhaustiveSolver_decides (twoLatchProblem_agreement 1) twoLatchProblem_leavesHeld

/-- One register in dual-rail encoding that starts cleared and holds its value, behind
one reset cycle. -/
def railPrefixProblem : KInductionProblem where
  resetBootstrapCycles := 1
  resetBootstrapInputs := [(14, true)]
  initialStateAssignments := [(12, false), (13, true)]
  state0Symbols := [12, 13]
  allSymbols := [12, 13, 14]
  dualRailStatePairs := [⟨12, 13⟩]
  observedOutputExprs0 := [.not (.var 12)]
  observedOutputExprs1 := [.var 1]
  transitions0 := [(12, .var 12), (13, .var 13)]
  initialCondition := some (.and (.not (.var 12)) (.var 13))
  initializedStateCount := 2
  totalStateCount := 2
  property := .not (.var 12)
  bad := .var 12
  usesDualRailStateEncoding := true

/-- The cached query forgets the initial assignments before the reset prefix and finds a
bad frame 0 that the plain query refutes. -/
theorem frontierSearches_disagree :
    exhaustiveSolver.Decides ∧
    frontierAnswers exhaustiveSolver (fun _ => ()) .cadical 0 railPrefixProblem =
      ⟨none, none, some 0, .ok (some 0), .ok (some 0)⟩ :=
  ⟨exhaustiveSolver_decides, by decide +kernel⟩

/-- Two outputs that differ whatever input 15 is: the bad formula folds to the constant true and
reads nothing. -/
def foldedBadProblem : KInductionProblem :=
  { KInductionProblem.stateless (.var 0) (.var 1) with
    allSymbols := [15]
    observedOutputExprs0 := [.var 15, .var 15]
    observedOutputExprs1 := [.var 0, .var 1] }

/-- The assumption query throws where the plain one finds the bad frame. -/
example : frontierAnswers exhaustiveSolver (fun _ => ()) .cadical 0 foldedBadProblem =
    ⟨some 0, some 0, some 0, .error "Missing leaf literal for symbol 15",
      .error "Missing leaf literal for symbol 15"⟩ := by
  decide +kernel

end KInductionProblem
end KeplerFormal
