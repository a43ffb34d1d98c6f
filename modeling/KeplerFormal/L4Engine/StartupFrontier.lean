import KeplerFormal.L4Engine.ExactInit

/-!
# PDR's start formula and the base case

Both engines search behind the same reset prefix, one from a formula, the other from
an unrolling. Do they start from the same states?

* `SameStartup`: where the two decide alike what the prefix asserts. A binary base case
  drops the initial assignments and skips the prefix of a fully initialised problem; PDR
  does neither.
* `resetPrefix_iff_unrolling`: under it the builder's prefix is the unrolling.
* `PdrReaches`: a bad state some steps after the start formula; `pdrReaches_iff` relates
  it to the unrolling.
* `exactInit_agrees`: the states, the fresh symbols, and the answers of the two searches.
* `exactInit_disagrees`: a binary problem with one initialised register.
-/
namespace KeplerFormal

open Core

namespace KInductionProblem
variable {p : KInductionProblem}

/-- Where the base case and PDR treat startup alike. -/
structure SameStartup (p : KInductionProblem) : Prop where
  reset : p.hasResetBootstrap = true
  cycles : p.resetBootstrapCycles ≠ 0
  binary : p.usesDualRailStateEncoding = false → p.hasCompleteInitialState = false ∧
    p.initialStateAssignments = [] ∧ p.bootstrapStateAssignments = []
  names : p.NamesStates

/-- The values of the model's symbols that the start formula admits for some values of
the history symbols. -/
def ExactInitState (p : KInductionProblem) (init : BoolExpr) (σ : Valuation) : Prop :=
  ∃ σ', (∀ s ∈ p.reservedSymbols, σ' s = σ s) ∧ init.eval σ' = true

/-- The values of the model's symbols at the reset frontier of some unrolling. -/
def FrontierState (p : KInductionProblem) (σ : Valuation) : Prop :=
  ∃ τ, p.Unrolling p.plainFacts p.resetBootstrapCycles τ ∧
    ∀ s ∈ p.reservedSymbols, τ p.resetBootstrapCycles s = σ s

/-- A run of PDR's transition relation, with the reset controls released and the relations
of every frame. -/
structure PdrRun (p : KInductionProblem) (init : BoolExpr) (k : Nat) (τ : Trace) : Prop where
  start : p.ExactInitState init (τ 0)
  domain : ∀ f ≤ k, p.DomainValid (τ f)
  reset : ∀ f ≤ k, p.ResetDeasserted (τ f)
  transitions : ∀ f < k, ∀ s e, p.transitionAt s = some e → lit (τ (f + 1)) s = e.eval (τ f)

def PdrReaches (p : KInductionProblem) (init : BoolExpr) (k : Nat) : Prop :=
  ∃ τ, p.PdrRun init k τ ∧ p.bad.eval (τ k) = true

/-! ## The prefix -/

theorem SameStartup.frames (h : p.SameStartup) : p.resetBootstrapFrames = p.resetBootstrapCycles := by
  unfold resetBootstrapFrames
  rw [if_pos]
  rw [h.reset, Bool.and_true, Bool.or_eq_true]
  cases hrail : p.usesDualRailStateEncoding with
  | true => exact .inr rfl
  | false => exact .inl (by rw [(h.binary hrail).1]; rfl)

theorem SameStartup.initialMode (h : p.SameStartup) : p.baseStartup.initialMode = .none := by
  have hframes : p.resetBootstrapFrames ≠ 0 := h.frames ▸ h.cycles
  simp only [baseStartup, hframes, if_false]

theorem SameStartup.observationFrontier (h : p.SameStartup) :
    p.baseStartup.observationFrontier = p.usesResetBootstrapObservationFrontier := by
  have hframes : p.resetBootstrapFrames ≠ 0 := h.frames ▸ h.cycles
  simp only [baseStartup, bne_iff_ne.mpr hframes, Bool.true_and]

theorem SameStartup.assertsInitialAssignments (h : p.SameStartup) :
    p.assertsInitialAssignments p.plainFacts = p.usesDualRailStateEncoding := by
  have hframes : p.resetBootstrapFrames ≠ 0 := h.frames ▸ h.cycles
  simp [KInductionProblem.assertsInitialAssignments, h.initialMode,
    InitialConstraintMode.assertsInitialFacts, plainFacts, hframes]

/-- What a run of the prefix starts with, as the base case asserts it. -/
theorem SameStartup.startsOn_iff (h : p.SameStartup) {τ : Trace} :
    (∀ X, p.StartsOn p.plainFacts X τ) ↔
      (∀ a ∈ p.initialStateAssignments, lit (τ 0) a.1 = a.2) ∧
      (p.usesResetBootstrapObservationFrontier = true →
        p.property.eval (τ p.resetBootstrapCycles) = true) := by
  constructor
  · intro hstarts
    refine ⟨fun a ha => ?_, fun hobs => ?_⟩
    · cases hrail : p.usesDualRailStateEncoding with
      | true =>
        exact (hstarts {a.1}).initialAssignments (h.assertsInitialAssignments.trans hrail) a ha
          (Finset.mem_singleton_self _)
      | false =>
        rw [(h.binary hrail).2.1] at ha
        cases ha
    · have hfrontier := (hstarts ∅).frontierObservation (h.observationFrontier.trans hobs)
      rwa [h.frames] at hfrontier
  · rintro ⟨hassign, hobs⟩ X
    refine ⟨fun _ a ha _ => hassign a ha, fun hmode => ?_, fun hmode => ?_, fun hfrontier => ?_,
      fun hboot a ha => ?_⟩
    · rw [h.initialMode] at hmode
      cases hmode
    · rw [h.initialMode] at hmode
      cases hmode
    · rw [h.frames]
      exact hobs (h.observationFrontier.symm.trans hfrontier)
    · have hbinary : p.usesDualRailStateEncoding = false := by
        simp only [plainFacts, Bool.and_eq_true, Bool.not_eq_true'] at hboot
        exact hboot.2
      rw [(h.binary hbinary).2.2] at ha
      cases ha

theorem resetPrefix_iff_unrolling (h : p.SameStartup) {τ : Trace} :
    p.ResetPrefix τ ↔ p.Unrolling p.plainFacts p.resetBootstrapCycles τ := by
  have hframes := h.frames
  constructor
  · intro hprefixRun
    refine ⟨hprefixRun.domain, hprefixRun.transitions, ⟨fun f _ hlt => ?_, fun _ f hf hge => ?_⟩,
      h.startsOn_iff.mpr ⟨hprefixRun.assignments, hprefixRun.observation⟩⟩
    · exact hprefixRun.asserted f (hframes ▸ hlt)
    · rw [hframes] at hge
      rw [Nat.le_antisymm hf hge]
      exact hprefixRun.deasserted
  · intro hun
    obtain ⟨hassign, hobs⟩ := h.startsOn_iff.mp hun.starts
    exact ⟨hassign, hun.domain, hun.transitions,
      fun f hf => hun.reset.asserted f hf.le (hframes ▸ hf),
      hun.reset.deasserted (hframes ▸ h.cycles) _ (Nat.le_refl _) hframes.le, hobs⟩

/-- The start formula admits exactly the frontier frames of reset prefixes. -/
theorem exactInitState_iff {init : BoolExpr} {b : InitBuilder} (hb : p.WellNamed b)
    (heval : ∀ σ τ, init.eval σ = true ↔ p.ResetPrefix (p.view b σ τ)) (σ : Valuation) :
    p.ExactInitState init σ ↔
      ∃ τ, p.ResetPrefix τ ∧ ∀ s ∈ p.reservedSymbols, τ p.resetBootstrapCycles s = σ s := by
  constructor
  · rintro ⟨σ', hagree, hinit⟩
    refine ⟨p.view b σ' (fun _ => σ), (heval _ _).mp hinit, fun s hs => ?_⟩
    rw [view_frontier hb _ _ hs, hagree s hs]
  · rintro ⟨τ, hprefixRun, hagree⟩
    obtain ⟨σ', hview, hvalues⟩ := exists_view hb τ
    refine ⟨σ', fun s hs => (hvalues s hs).trans (hagree s hs), ?_⟩
    rw [heval σ' τ, hview]
    exact hprefixRun

/-! ## Runs behind the prefix -/

theorem lit_eq_of_reserved {σ υ : Valuation} (h : ∀ s ∈ p.reservedSymbols, σ s = υ s) {s : Nat}
    (hs : s ∈ p.reservedSymbols) : lit σ s = lit υ s := by
  rcases Nat.lt_or_ge s 2 with h2 | h2
  · exact lit_of_lt_two _ _ h2
  · rw [lit_of_two_le _ h2, lit_of_two_le _ h2, h s hs]

/-- The frames of `υ` before frame `n`, then the trace `τ`. -/
def continued (υ : Trace) (n : Nat) (τ : Trace) : Trace := fun f => if f < n then υ f else τ (f - n)

theorem continued_of_lt {υ τ : Trace} {n f : Nat} (h : f < n) : continued υ n τ f = υ f := if_pos h

theorem continued_add (υ τ : Trace) (n f : Nat) : continued υ n τ (n + f) = τ f := by
  unfold continued
  rw [if_neg (by omega), Nat.add_sub_cancel_left]

/-- A PDR run continues a reset prefix to an unrolling. -/
theorem unrolling_continued (h : p.SameStartup) {υ τ : Trace} {k : Nat} {init : BoolExpr}
    (hprefixRun : p.ResetPrefix υ)
    (hagree : ∀ s ∈ p.reservedSymbols, υ p.resetBootstrapCycles s = τ 0 s)
    (hrun : p.PdrRun init k τ) :
    p.Unrolling p.plainFacts (p.frontierFrame k) (continued υ p.resetBootstrapCycles τ) := by
  have hframes := h.frames
  have hcycles := Nat.pos_of_ne_zero h.cycles
  have hlast : p.frontierFrame k = p.resetBootstrapCycles + k := by
    rw [frontierFrame, hframes, Nat.add_comm]
  have hfrontier := continued_add υ τ p.resetBootstrapCycles 0
  rw [Nat.add_zero] at hfrontier
  refine ⟨fun f hf => ?_, fun f hf s e he => ?_, ⟨fun f _ hlt => ?_, fun _ f hf hge => ?_⟩,
    h.startsOn_iff.mpr ⟨?_, fun hobs => ?_⟩⟩
  · rcases Nat.lt_or_ge f p.resetBootstrapCycles with hlt | hge
    · rw [continued_of_lt hlt]
      exact hprefixRun.domain f hlt.le
    · obtain ⟨g, rfl⟩ := Nat.exists_eq_add_of_le hge
      rw [continued_add]
      exact hrun.domain g (by omega)
  · rcases Nat.lt_trichotomy (f + 1) p.resetBootstrapCycles with hlt | heq | hgt
    · rw [continued_of_lt hlt, continued_of_lt (by omega)]
      exact hprefixRun.transitions f (by omega) s e he
    · -- the last step of the prefix ends in a frame that agrees with the run's first
      have hstate : s ∈ p.reservedSymbols := mem_reservedSymbols_of_state
        (mem_combinedStateSymbols_of_contains (contains_iff.mpr ⟨e, he⟩))
      have hstep := hprefixRun.transitions f (by omega) s e he
      rw [continued_of_lt (show f < p.resetBootstrapCycles by omega), heq, hfrontier, ← hstep, heq]
      exact (lit_eq_of_reserved hagree hstate).symm
    · obtain ⟨g, rfl⟩ := Nat.exists_eq_add_of_le (Nat.lt_succ_iff.mp hgt)
      rw [continued_add, Nat.add_assoc, continued_add]
      exact hrun.transitions g (by omega) s e he
  · rw [hframes] at hlt
    rw [continued_of_lt hlt]
    exact hprefixRun.asserted f hlt
  · rw [hframes] at hge
    obtain ⟨g, rfl⟩ := Nat.exists_eq_add_of_le hge
    rw [continued_add]
    exact hrun.reset g (by omega)
  · rw [continued_of_lt hcycles]
    exact hprefixRun.assignments
  · rw [hfrontier, ← hprefixRun.observation hobs]
    exact BoolExpr.eval_congr fun s hs _ => (hagree s (by simp [reservedSymbols, hs])).symm

/-- An unrolling past the prefix, seen from the frontier, is a PDR run. -/
theorem pdrRun_of_unrolling (h : p.SameStartup) {τ : Trace} {k : Nat} {init : BoolExpr}
    (hinit : ∀ σ, p.ExactInitState init σ ↔
      ∃ τ, p.ResetPrefix τ ∧ ∀ s ∈ p.reservedSymbols, τ p.resetBootstrapCycles s = σ s)
    (hun : p.Unrolling p.plainFacts (p.frontierFrame k) τ) :
    p.PdrRun init k fun f => τ (p.resetBootstrapCycles + f) := by
  have hframes := h.frames
  have hlast : p.frontierFrame k = p.resetBootstrapCycles + k := by
    rw [frontierFrame, hframes, Nat.add_comm]
  have hprefixRun : p.Unrolling p.plainFacts p.resetBootstrapCycles τ :=
    ⟨fun f hf => hun.domain f (by omega), fun f hf => hun.transitions f (by omega),
      ⟨fun f hf => hun.reset.asserted f (by omega), fun hne f hf =>
        hun.reset.deasserted hne f (by omega)⟩, hun.starts⟩
  refine ⟨(hinit _).mpr ⟨τ, (resetPrefix_iff_unrolling h).mpr hprefixRun, fun s _ => rfl⟩,
    fun f hf => hun.domain _ (by omega), fun f hf => ?_,
    fun f hf => hun.transitions (p.resetBootstrapCycles + f) (by omega)⟩
  exact hun.reset.deasserted (hframes ▸ h.cycles) _ (by omega) (by omega)

theorem pdrReaches_iff (h : p.SameStartup) {init : BoolExpr}
    (hinit : ∀ σ, p.ExactInitState init σ ↔
      ∃ τ, p.ResetPrefix τ ∧ ∀ s ∈ p.reservedSymbols, τ p.resetBootstrapCycles s = σ s) (k : Nat) :
    p.PdrReaches init k ↔ p.FrontierBad k := by
  have hlast : p.frontierFrame k = p.resetBootstrapCycles + k := by
    rw [frontierFrame, h.frames, Nat.add_comm]
  constructor
  · rintro ⟨τ, hrun, hbad⟩
    obtain ⟨υ, hprefixRun, hagree⟩ := (hinit _).mp hrun.start
    refine ⟨_, unrolling_continued h hprefixRun hagree hrun, ?_⟩
    rw [hlast, continued_add]
    exact hbad
  · rintro ⟨τ, hun, hbad⟩
    exact ⟨_, pdrRun_of_unrolling h hinit hun, hlast ▸ hbad⟩

/-! ## Agreement -/

/-- The start formula is built; its history symbols are no symbols of the model; it
admits exactly the states at the frontier of the unrolling; a bad state is reachable from
it in `k` steps exactly when the unrolling reaches one, and exactly when the base query
for frame `k` finds one. -/
theorem exactInit_agrees (p : KInductionProblem) (h : p.SameStartup) :
    ∃ init b, p.buildExactPdrInit = .ok (init, b) ∧ p.buildExactPdrInitFormula = .ok init ∧
      (∀ frame s t, frame < p.resetBootstrapCycles → b.nameOf (frame, s) = some t →
        t ∉ p.reservedSymbols) ∧
      (∀ σ, p.ExactInitState init σ ↔ p.FrontierState σ) ∧
      (∀ k, p.PdrReaches init k ↔ p.FrontierBad k) ∧
      ∀ {σ : Type} (S : FrameSolver σ) (s : σ) (solverType : SolverType)
        (profile : BaseCaseSolverProfile) (k : Nat), S.Decides → p.PreservesDomain →
        p.KeepsStartup p.plainFacts (p.frontierFrame k) (p.frontierFrame k) →
        (∀ σ, p.bad.eval σ = true → p.property.eval σ = false) →
        ((findBaseCounterexampleQuery S solverType k s p (some k) profile).1.1 = some k ↔
          p.PdrReaches init k) := by
  obtain ⟨init, b, hbuild, hb, heval⟩ := eval_buildExactPdrInit h.names h.cycles
  have hinit := exactInitState_iff hb heval
  have hreaches := pdrReaches_iff h hinit
  refine ⟨init, b, hbuild, ?_, fun frame s t hframe => hb.fresh.fresh (frame, s) t hframe,
    fun σ => ?_, hreaches, fun S s solverType profile k hS hpres hkeeps hbad => ?_⟩
  · rw [buildExactPdrInitFormula, if_pos h.cycles, hbuild]
    rfl
  · rw [hinit]
    unfold FrontierState
    simp only [resetPrefix_iff_unrolling h]
  · rw [hreaches k]
    rcases @query_answers _ _ S solverType _ hS hpres hkeeps s profile with
      ⟨hfound, hquestion⟩ | ⟨hsafe, hno⟩
    · exact iff_of_true hfound hquestion.2
    · refine iff_of_false (by rw [hsafe]; simp) fun hfrontier => hno ⟨?_, hfrontier⟩
      exact firstBadFrame_le_of_frontierBad hbad hfrontier

theorem railPrefixProblem_sameStartup : railPrefixProblem.SameStartup where
  reset := rfl
  cycles := by decide
  binary h := by cases h
  names := ⟨by constructor <;> decide, by decide, by decide⟩

/-- The two startups of a dual-rail register behind one reset cycle. -/
theorem exactInit_agrees_railPrefix :
    ∃ init b, railPrefixProblem.buildExactPdrInit = .ok (init, b) ∧
      railPrefixProblem.buildExactPdrInitFormula = .ok init ∧
      (∀ frame s t, frame < 1 → b.nameOf (frame, s) = some t →
        t ∉ railPrefixProblem.reservedSymbols) ∧
      (∀ σ, railPrefixProblem.ExactInitState init σ ↔ railPrefixProblem.FrontierState σ) ∧
      ∀ k, railPrefixProblem.PdrReaches init k ↔ railPrefixProblem.FrontierBad k := by
  obtain ⟨init, b, hbuild, hformula, hfresh, hstates, hreaches, _⟩ :=
    exactInit_agrees railPrefixProblem railPrefixProblem_sameStartup
  exact ⟨init, b, hbuild, hformula, hfresh, hstates, hreaches⟩

/-- Two registers that hold their values behind one reset cycle; only the first has a
start value. The output is the first register while input 35 is set. -/
def heldResetProblem : KInductionProblem where
  resetBootstrapCycles := 1
  resetBootstrapInputs := [(34, true)]
  initialStateAssignments := [(32, false)]
  state0Symbols := [32, 33]
  allSymbols := [32, 33, 34, 35]
  observedOutputExprs0 := [.and (.var 32) (.var 35)]
  observedOutputExprs1 := [.var 0]
  transitions0 := [(32, .var 32), (33, .var 33)]
  initialCondition := some (.not (.var 32))
  initializedStateCount := 1
  totalStateCount := 2
  property := .not (.and (.var 32) (.var 35))
  bad := .and (.var 32) (.var 35)

/-- Register 32 set throughout, reset in frame 0, and input 35 in frame 2. -/
def heldResetTrace : Trace := fun f s =>
  s == 32 || (s == 34 && f == 0) || (s == 35 && f == 2)

theorem heldResetProblem_transitions {s : Nat} {e : BoolExpr}
    (he : heldResetProblem.transitionAt s = some e) : (s = 32 ∨ s = 33) ∧ e = .var s := by
  have hlookup : heldResetProblem.transitionAt s =
      if s = 32 then some (.var 32) else if s = 33 then some (.var 33) else none := by
    unfold transitionAt eagerTransitions lazyTransitionAt
    by_cases h2 : s = 32
    · subst h2
      rfl
    · by_cases h3 : s = 33
      · subst h3
        rfl
      · simp [heldResetProblem, List.lookup, h2, h3, beq_eq_false_iff_ne.mpr h2,
          beq_eq_false_iff_ne.mpr h3]
  rw [hlookup] at he
  split at he
  · rename_i h2
    subst h2
    exact ⟨.inl rfl, (Option.some.inj he).symm⟩
  · split at he
    · rename_i h3
      subst h3
      exact ⟨.inr rfl, (Option.some.inj he).symm⟩
    · cases he

theorem heldResetTrace_unrolling (n : Nat) :
    heldResetProblem.Unrolling heldResetProblem.plainFacts n heldResetTrace := by
  have hreset : ∀ r ∈ heldResetProblem.resetBootstrapInputs, r = (34, true) := by
    simp [heldResetProblem]
  refine ⟨fun f _ => ?_, fun f _ s e he => ?_, ⟨fun f _ hlt r hr => ?_, fun _ f _ hge r hr => ?_⟩,
    fun X => ?_⟩
  · exact ⟨by simp [complementedStatePairs, heldResetProblem],
      by simp [sameFrameStateEqualityPairs, heldResetProblem], by simp [heldResetProblem]⟩
  · obtain ⟨hs, rfl⟩ := heldResetProblem_transitions he
    rcases hs with rfl | rfl <;> rfl
  · obtain rfl : f = 0 := Nat.lt_one_iff.mp hlt
    rw [hreset r hr]
    rfl
  · have hpos : 1 ≤ f := hge
    obtain ⟨g, rfl⟩ := Nat.exists_eq_add_of_le' hpos
    rw [hreset r hr]
    rfl
  · refine ⟨fun h => absurd h (by decide), fun h => absurd h (by decide),
      fun h => absurd h (by decide), fun _ => by decide, fun _ a ha => ?_⟩
    cases ha

/-- Behind a reset prefix that starts with register 32 cleared it is cleared. -/
theorem heldResetProblem_cleared {τ : Trace} (h : heldResetProblem.ResetPrefix τ) :
    lit (τ 1) 32 = false := by
  have hstart : lit (τ 0) 32 = false := h.assignments (32, false) (by simp [heldResetProblem])
  have hstep := h.transitions 0 Nat.zero_lt_one 32 (.var 32) rfl
  rw [hstep]
  exact hstart

/-- The base case forgets the start value of register 32 and reaches a bad state in the
frame after the frontier; the start formula keeps it and PDR reaches none. -/
theorem exactInit_disagrees :
    heldResetProblem.FrontierBad 1 ∧
    ∃ init, heldResetProblem.buildExactPdrInitFormula = .ok init ∧
      ¬ heldResetProblem.PdrReaches init 1 ∧
      ∃ σ, heldResetProblem.FrontierState σ ∧ ¬ heldResetProblem.ExactInitState init σ := by
  have hnames : heldResetProblem.NamesStates :=
    ⟨by constructor <;> decide, by decide, by decide⟩
  obtain ⟨init, b, hbuild, hb, heval⟩ := eval_buildExactPdrInit hnames (by decide)
  have hcleared : ∀ σ, heldResetProblem.ExactInitState init σ → σ 32 = false := by
    intro σ hσ
    obtain ⟨τ, hprefixRun, hagree⟩ := (exactInitState_iff hb heval σ).mp hσ
    rw [← hagree 32 (by decide)]
    exact heldResetProblem_cleared hprefixRun
  refine ⟨⟨heldResetTrace, heldResetTrace_unrolling _, by decide⟩, init, ?_, ?_,
    heldResetTrace 1, ⟨heldResetTrace, heldResetTrace_unrolling _, fun _ _ => rfl⟩, fun hσ => ?_⟩
  · rw [buildExactPdrInitFormula, if_pos (by decide), hbuild]
    rfl
  · rintro ⟨τ, hrun, hbad⟩
    have hstep := hrun.transitions 0 Nat.zero_lt_one 32 (.var 32) rfl
    have hzero : lit (τ 0) 32 = false := hcleared (τ 0) hrun.start
    have hone : lit (τ 1) 32 = true := by
      have hboth : (lit (τ 1) 32 && lit (τ 1) 35) = true := hbad
      exact (Bool.and_eq_true_iff.mp hboth).1
    rw [hstep, eval_var_eq_lit, hzero] at hone
    cases hone
  · exact absurd (hcleared _ hσ) (by decide)

end KInductionProblem
end KeplerFormal
