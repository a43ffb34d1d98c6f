import KeplerFormal.L3Query.BaseCounterexample

/-!
# Runs behind the startup

The runs that the base case unrolls can be cut, prolonged and shortened: a run goes on
under any inputs that leave reset released, and a run whose frames `a` and `a + d`
carry the same states can skip what lies between.

* `FrontierBad`: some run is bad at frame `k` after the reset prefix.
* `Unrolling.prolong`, `Unrolling.spliced`: longer and shorter runs.
* `PostRun`: runs with reset released, counted from the end of the prefix.
* `StateStartup`: startup facts about states only; then a run may also skip its first
  frames.
* `no_frontierBad_of_unsat`, `no_frontierBad_of_status`, `no_frontierBad_of_frontier`: what
  an unsatisfiable base query and the answers of the searches exclude.
-/
namespace KeplerFormal

open Core

namespace KInductionProblem
variable {p : KInductionProblem}

/-- Some run is bad at frame `k` after the reset prefix. -/
def FrontierBad (p : KInductionProblem) (k : Nat) : Prop :=
  ∃ τ, p.Unrolling p.plainFacts (p.frontierFrame k) τ ∧
    p.bad.eval (τ (p.frontierFrame k)) = true

/-- Startup asserts no observation, and what it asserts is about states. -/
structure StateStartup (p : KInductionProblem) : Prop where
  mode : p.baseStartup.initialMode.assertsObservation = false
  frontier : p.baseStartup.observationFrontier = false
  assignments : p.assertsInitialAssignments p.plainFacts = true →
    ∀ a ∈ p.initialStateAssignments, a.1 ∈ p.combinedStateSymbols
  bootstrap : p.plainFacts.frontierBootstrap = true →
    ∀ a ∈ p.bootstrapStateAssignments, a.1 ∈ p.combinedStateSymbols
  condition : p.baseStartup.initialMode.assertsInitialFacts = true →
    ∀ e, p.initialCondition = some e → ∀ s ∈ e.getSupportVars, 2 ≤ s → s ∈ p.combinedStateSymbols
  relates : p.RelatesStates

/-! ## Longer runs -/

/-- The trace goes on after frame `n` with the inputs of that frame. -/
def prolonged (p : KInductionProblem) (τ : Trace) (n : Nat) : Trace
  | 0 => τ 0
  | f + 1 => if f + 1 ≤ n then τ (f + 1) else p.successor (prolonged p τ n f) (τ n)

theorem prolonged_of_le {τ : Trace} {n f : Nat} (h : f ≤ n) : p.prolonged τ n f = τ f := by
  cases f with
  | zero => rfl
  | succ f => rw [prolonged, if_pos h]

theorem prolonged_after {τ : Trace} {n f : Nat} (h : n ≤ f) :
    p.prolonged τ n (f + 1) = p.successor (p.prolonged τ n f) (τ n) := by
  rw [prolonged, if_neg (by omega)]

/-- After frame `n` every symbol without an equation keeps its value of frame `n`. -/
theorem lit_prolonged_input {τ : Trace} {n f s : Nat} (h : n ≤ f) (hs : s ∉ p.combinedStateSymbols) :
    lit (p.prolonged τ n f) s = lit (τ n) s := by
  rcases Nat.eq_or_lt_of_le h with rfl | hlt
  · rw [prolonged_of_le (Nat.le_refl _)]
  · obtain ⟨g, rfl⟩ : ∃ g, f = g + 1 := ⟨f - 1, by omega⟩
    rw [prolonged_after (Nat.lt_succ_iff.mp hlt)]
    refine lit_successor_of_none ?_
    cases hv : p.nextStateOf (p.prolonged τ n g) s with
    | none => rfl
    | some v => exact absurd (mem_combinedStateSymbols_of_nextStateOf hv) hs

theorem path_prolonged {τ : Trace} {n : Nat} (hpath : p.Path τ n) (m : Nat) :
    p.Path (p.prolonged τ n) m := by
  intro f _
  rcases Nat.lt_or_ge f n with hlt | hge
  · rw [prolonged_of_le hlt.le, prolonged_of_le hlt]
    exact hpath f hlt
  · rw [prolonged_after hge]
    exact advance_successor _ _

theorem Unrolling.prolong {n m : Nat} {τ : Trace} (h : p.Unrolling p.plainFacts n τ)
    (hpres : p.PreservesDomain) (hn : p.resetBootstrapFrames ≤ n) :
    p.Unrolling p.plainFacts m (p.prolonged τ n) := by
  have hpath := path_prolonged h.path
  have hzero : p.prolonged τ n 0 = τ 0 := rfl
  have hfrontier : p.prolonged τ n p.resetBootstrapFrames = τ p.resetBootstrapFrames :=
    prolonged_of_le hn
  refine ⟨fun f _ => ?_, fun f hf s e he => (hpath m f hf).transition he,
    ⟨fun f _ hlt => ?_, fun hne f _ hge => ?_⟩, fun X => ⟨?_, ?_, ?_, ?_, ?_⟩⟩
  · induction f with
    | zero => exact h.domain 0 (Nat.zero_le _)
    | succ f ih => exact hpres _ _ (ih (by omega)) (hpath (f + 1) f (Nat.lt_succ_self f))
  · rw [prolonged_of_le (by omega)]
    exact h.reset.asserted f (by omega) hlt
  · rcases Nat.lt_or_ge f n with hlt | hafter
    · rw [prolonged_of_le hlt.le]
      exact h.reset.deasserted hne f hlt.le hge
    · intro r hr
      rw [lit_prolonged_input hafter (p.resets_input r.1 (List.mem_map.mpr ⟨r, hr, rfl⟩))]
      exact h.reset.deasserted hne n (Nat.le_refl _) hn r hr
  · exact (h.starts X).initialAssignments
  · exact (h.starts X).initialCondition
  · exact (h.starts X).startObservation
  · rw [hfrontier]
    exact (h.starts X).frontierObservation
  · rw [hfrontier]
    exact (h.starts X).bootstrapAssignments

/-! ## Shorter runs -/

/-- The run that skips the `d` frames after frame `a` is a run again, if `a` is behind the
startup or startup is about states only. -/
theorem Unrolling.spliced {n a d : Nat} {τ : Trace} (h : p.Unrolling p.plainFacts n τ)
    (hpres : p.PreservesDomain) (ha : p.resetBootstrapFrames ≤ a) (hd : a + d ≤ n)
    (hstart : a = p.resetBootstrapFrames → p.StateStartup) :
    p.Unrolling p.plainFacts (n - d) (p.spliced τ a d) := by
  have hpath := path_spliced (d := d) h.path (show a ≤ n by omega)
  -- a startup frame keeps its states, and before `a` also its inputs
  have hkeeps : ∀ f ≤ p.resetBootstrapFrames, (f < a ∨ p.StateStartup ∧ f = a) := by
    intro f hf
    rcases Nat.lt_or_ge f a with hlt | hge
    · exact .inl hlt
    · exact .inr ⟨hstart (by omega), by omega⟩
  have hstate : ∀ f ≤ p.resetBootstrapFrames, ∀ s ∈ p.combinedStateSymbols,
      lit (p.spliced τ a d f) s = lit (τ f) s := by
    intro f hf s hs
    rcases hkeeps f hf with hlt | ⟨_, rfl⟩
    · rw [spliced_of_lt hlt]
    · rw [spliced_at, lit_withInputs_of_mem hs]
  have hzero := Nat.zero_le p.resetBootstrapFrames
  refine ⟨fun f _ => ?_, fun f hf s e he => (hpath (n - d) f hf).transition he,
    ⟨fun f hf hlt => ?_, fun hne f hf hge => ?_⟩, fun X => ⟨fun hasserts x hx hX => ?_,
      fun hmode hstruct e he => ?_, fun hobs => ?_, fun hobs => ?_, fun hboot x hx hX => ?_⟩⟩
  · induction f with
    | zero =>
      rcases hkeeps 0 hzero with hlt | ⟨hs, hza⟩
      · rw [spliced_of_lt hlt]
        exact h.domain 0 (by omega)
      · subst hza
        rw [spliced_at]
        exact (h.domain 0 (by omega)).withInputs hs.relates _
    | succ f ih => exact hpres _ _ (ih (by omega)) (hpath (f + 1) f (Nat.lt_succ_self f))
  · rw [spliced_of_lt (by omega)]
    exact h.reset.asserted f (by omega) hlt
  · rcases Nat.lt_or_ge f a with hlt | hafter
    · rw [spliced_of_lt hlt]
      exact h.reset.deasserted hne f (by omega) hge
    · intro r hr
      rw [lit_spliced_input hafter (p.resets_input r.1 (List.mem_map.mpr ⟨r, hr, rfl⟩))]
      exact h.reset.deasserted hne (f + d) (by omega) (by omega) r hr
  · have hvalue := (h.starts X).initialAssignments hasserts x hx hX
    rcases hkeeps 0 hzero with hlt | ⟨hs, _⟩
    · rw [spliced_of_lt hlt]
      exact hvalue
    · rw [hstate 0 hzero _ (hs.assignments hasserts x hx)]
      exact hvalue
  · have hvalue := (h.starts X).initialCondition hmode hstruct e he
    rcases hkeeps 0 hzero with hlt | ⟨hs, _⟩
    · rw [spliced_of_lt hlt]
      exact hvalue
    · rw [← hvalue]
      exact BoolExpr.eval_congr_lit fun s hs' h2 => hstate 0 hzero s (hs.condition hmode e he s hs' h2)
  · rcases hkeeps 0 hzero with hlt | ⟨hs, _⟩
    · rw [spliced_of_lt hlt]
      exact (h.starts X).startObservation hobs
    · rw [hs.mode] at hobs
      cases hobs
  · rcases hkeeps _ (Nat.le_refl _) with hlt | ⟨hs, _⟩
    · rw [spliced_of_lt hlt]
      exact (h.starts X).frontierObservation hobs
    · rw [hs.frontier] at hobs
      cases hobs
  · have hvalue := (h.starts X).bootstrapAssignments hboot x hx hX
    rcases hkeeps _ (Nat.le_refl _) with hlt | ⟨hs, _⟩
    · rw [spliced_of_lt hlt]
      exact hvalue
    · rw [hstate _ (Nat.le_refl _) _ (hs.bootstrap hboot x hx)]
      exact hvalue

/-- A run of `n` steps behind the startup, with the reset controls released. -/
structure PostRun (p : KInductionProblem) (n : Nat) (τ : Trace) : Prop where
  unrolling : p.Unrolling p.plainFacts (p.frontierFrame n) τ
  released : p.resetBootstrapCycles ≠ 0 → ∀ f ≤ p.frontierFrame n, p.resetBootstrapFrames ≤ f →
    p.ResetDeasserted (τ f)

theorem PostRun.take {n m : Nat} {τ : Trace} (h : p.PostRun n τ) (hm : m ≤ n) : p.PostRun m τ := by
  have hle : p.frontierFrame m ≤ p.frontierFrame n := Nat.add_le_add_right hm _
  refine ⟨⟨fun f hf => h.unrolling.domain f (hf.trans hle),
    fun f hf => h.unrolling.transitions f (hf.trans_le hle),
    ⟨fun f hf => h.unrolling.reset.asserted f (hf.trans hle),
      fun hne f hf => h.unrolling.reset.deasserted hne f (hf.trans hle)⟩, h.unrolling.starts⟩,
    fun hc f hf => h.released hc f (hf.trans hle)⟩

/-- Skipping `d` of the steps from step `a` on. -/
theorem PostRun.spliced {n a d : Nat} {τ : Trace} (h : p.PostRun n τ) (hpres : p.PreservesDomain)
    (hd : a + d ≤ n) (hstart : a = 0 → p.StateStartup) :
    p.PostRun (n - d) (p.spliced τ (p.frontierFrame a) d) := by
  have hshort : p.frontierFrame (n - d) = p.frontierFrame n - d := by
    unfold frontierFrame
    omega
  have hend : p.frontierFrame a + d ≤ p.frontierFrame n := by
    unfold frontierFrame
    omega
  refine ⟨?_, fun hc f hf hge => ?_⟩
  · rw [hshort]
    refine h.unrolling.spliced hpres (Nat.le_add_left _ _) hend fun ha => hstart ?_
    unfold frontierFrame at ha
    omega
  · rcases Nat.lt_or_ge f (p.frontierFrame a) with hlt | hafter
    · rw [spliced_of_lt hlt]
      exact h.released hc f (by omega) hge
    · intro r hr
      rw [lit_spliced_input hafter (p.resets_input r.1 (List.mem_map.mpr ⟨r, hr, rfl⟩))]
      exact h.released hc (f + d) (by omega) (by omega) r hr

/-! ## Runs of the slices -/

theorem domainValid_observing {view : OutputView} {υ : Valuation} :
    (p.observing view).DomainValid υ ↔ p.DomainValid υ :=
  ⟨fun h => ⟨h.complemented, h.equal, h.rails⟩, fun h => ⟨h.complemented, h.equal, h.rails⟩⟩

theorem preservesDomain_observing {view : OutputView} (h : p.PreservesDomain) :
    (p.observing view).PreservesDomain := fun υ υ' hυ hstep =>
  domainValid_observing.mpr (h υ υ' (domainValid_observing.mp hυ) hstep)

/-- A slice observes less at startup, so it has the runs of its source. -/
theorem PostRun.observing {n : Nat} {τ : Trace} (h : p.PostRun n τ) {view : OutputView}
    (hproperty : ∀ v, p.property.eval v = true → view.property.eval v = true) :
    (p.observing view).PostRun n τ where
  unrolling := ⟨fun f hf => domainValid_observing.mpr (h.unrolling.domain f hf),
    h.unrolling.transitions, ⟨h.unrolling.reset.asserted, h.unrolling.reset.deasserted⟩,
    fun X => ⟨(h.unrolling.starts X).initialAssignments, (h.unrolling.starts X).initialCondition,
      fun hobs => hproperty _ ((h.unrolling.starts X).startObservation hobs),
      fun hobs => hproperty _ ((h.unrolling.starts X).frontierObservation hobs),
      (h.unrolling.starts X).bootstrapAssignments⟩⟩
  released := h.released

theorem StateStartup.observing (h : p.StateStartup) (view : OutputView) :
    (p.observing view).StateStartup :=
  ⟨h.mode, h.frontier, h.assignments, h.bootstrap, h.condition,
    ⟨h.relates.complements, h.relates.equalities, h.relates.rails⟩⟩

/-! ## Bad frames -/

/-- Where startup observes the property, its frame is not bad. -/
theorem firstBadFrame_le_of_frontierBad
    (hbad : ∀ σ, p.bad.eval σ = true → p.property.eval σ = false) {k : Nat}
    (h : p.FrontierBad k) : p.baseStartup.firstBadFrame ≤ p.frontierFrame k := by
  obtain ⟨τ, hun, hτ⟩ := h
  have hnot : ∀ f, f = p.frontierFrame k → p.property.eval (τ f) = false := by
    rintro f rfl
    exact hbad _ hτ
  have hfirst : p.baseStartup.firstBadFrame = if p.resetBootstrapFrames ≠ 0 then
      p.resetBootstrapFrames + (if p.baseStartup.observationFrontier then 1 else 0)
    else if p.baseStartup.initialMode.assertsObservation then 1 else 0 := rfl
  by_contra hlt
  have hzero : k = 0 := by
    unfold frontierFrame at hlt
    rw [hfirst] at hlt
    split at hlt <;> split at hlt <;> omega
  subst hzero
  unfold frontierFrame at hlt hnot
  rw [hfirst] at hlt
  split at hlt
  · split at hlt
    · rename_i hobs
      have hproperty := (hun.starts ∅).frontierObservation hobs
      rw [hnot _ (Nat.zero_add _).symm] at hproperty
      cases hproperty
    · omega
  · split at hlt
    · rename_i hframes hobs
      have hproperty := (hun.starts ∅).startObservation hobs
      rw [hnot 0 (by omega)] at hproperty
      cases hproperty
    · omega

/-- An unsatisfiable query excludes a bad frame of its range, also at the end of a run
shorter than the query. -/
theorem no_frontierBad_of_unsat {k n first last : Nat} (hpres : p.PreservesDomain)
    (hunsat : ¬ Satisfiable evalAtom (p.baseQuery p.plainFacts (p.frontierFrame k) first last))
    (hfirst : first ≤ p.frontierFrame n) (hlast : p.frontierFrame n ≤ last) :
    ¬ p.FrontierBad n := by
  rintro ⟨τ, hun, hbad⟩
  have hlong := hun.prolong (m := p.frontierFrame k) hpres (Nat.le_add_left _ _)
  have hsafe := no_bad_of_unsat hunsat hlong hfirst hlast
  rw [prolonged_of_le (Nat.le_refl _), hbad] at hsafe
  cases hsafe

theorem badFrames_frontier (k : Nat) :
    p.badFrames k (some k) = if p.frontierFrame k < p.baseStartup.firstBadFrame then none
      else some (p.frontierFrame k, p.frontierFrame k) := by
  unfold badFrames frontierFrame
  simp only [baseStartup_bootstrapFrames, Nat.lt_irrefl, or_false]
  split <;> rfl

section Checks
variable {σ : Type} {S : FrameSolver σ} {solverType : SolverType} {k : Nat} {s : σ}

/-- A cumulative query with status `Unsat` excludes bad runs of up to `k` steps. -/
theorem no_frontierBad_of_status {profile : BaseCaseSolverProfile} (hpres : p.PreservesDomain)
    (hbad : ∀ σ, p.bad.eval σ = true → p.property.eval σ = false)
    (h : (findBaseCounterexampleQuery S solverType k s p none profile).1.2 = .unsat) :
    ∀ n ≤ k, ¬ p.FrontierBad n := by
  intro n hn hfrontier
  have hfirst := firstBadFrame_le_of_frontierBad hbad hfrontier
  have hle : p.frontierFrame n ≤ p.frontierFrame k := Nat.add_le_add_right hn _
  have hframes : p.badFrames k none = some (p.baseStartup.firstBadFrame, p.frontierFrame k) := by
    unfold badFrames
    simp only [baseStartup_bootstrapFrames]
    exact if_neg (Nat.not_lt.mpr (hfirst.trans hle))
  exact no_frontierBad_of_unsat hpres (unsatisfiable_of_status h hframes) hfirst hle hfrontier

/-- Without a reset prefix a frontier search over one output excludes a bad frame `k`. -/
theorem no_frontierBad_of_frontier (hS : S.DecidesUnlimited) (hcycles : p.resetBootstrapCycles = 0)
    (hsingle : p.hasSeveralOutputs = false) (hpres : p.PreservesDomain)
    (hbad : ∀ σ, p.bad.eval σ = true → p.property.eval σ = false)
    {s' : σ} (h : findImcBaseCounterexampleAtFrontier S solverType k s p = .ok (none, s')) :
    ¬ p.FrontierBad k := by
  intro hfrontier
  have hfirst := firstBadFrame_le_of_frontierBad hbad hfrontier
  have hprefixRun : p.resetBootstrapFrames = 0 := by
    unfold resetBootstrapFrames
    rw [hcycles, ite_self]
  have hfacts : p.cachedFacts = p.plainFacts := by simp [cachedFacts, plainFacts, hprefixRun]
  have hframes : p.badFrames k (some k) = some (p.frontierFrame k, p.frontierFrame k) := by
    rw [badFrames_frontier, if_neg (Nat.not_lt.mpr hfirst)]
  have hcached : (findImcCachedBaseCounterexampleAtFrontierQuery S solverType k s p
      .secConeProof).1 = none := by
    unfold findImcBaseCounterexampleAtFrontier at h
    cases hlength : p.observedOutputExprs0.length with
    | zero =>
      rw [hlength] at h
      exact congrArg Prod.fst (Except.ok.inj h)
    | succ n =>
      rw [hlength, findImcBaseCounterexampleAtFrontierImpl, hsingle] at h
      exact congrArg Prod.fst (Except.ok.inj h)
  unfold findImcCachedBaseCounterexampleAtFrontierQuery at hcached
  rw [hframes] at hcached
  simp only at hcached
  split at hcached
  · rename_i m s' hsolve
    obtain ⟨_, f, hlow, hhigh, hτ⟩ := evalQuery_baseQuery.mp
      (S.sat_sound _ _ _ _ m (congrArg Prod.fst hsolve)).1
    have hfound : (p.findFirstBadFrame m (p.frontierFrame k) (p.frontierFrame k)).isSome = true := by
      unfold findFirstBadFrame
      rw [List.find?_isSome]
      exact ⟨f, by simp [hlow, Nat.lt_succ_iff.mpr hhigh], hτ⟩
    obtain ⟨g, hg⟩ := Option.isSome_iff_exists.mp hfound
    simp [buildCounterexampleWitness, hg] at hcached
  · rename_i a s' hnotSat hsolve
    cases a with
    | sat m => exact absurd rfl (hnotSat m)
    | unsat =>
      have hunsat := S.not_satisfiable (congrArg Prod.fst hsolve)
      rw [hfacts] at hunsat
      exact no_frontierBad_of_unsat hpres hunsat (Nat.le_refl _) (Nat.le_refl _) hfrontier
    | unknown => exact absurd (congrArg Prod.fst hsolve) (hS _ _ _)

end Checks

end KInductionProblem
end KeplerFormal
