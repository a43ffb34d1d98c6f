import KeplerFormal.Core.Fallible
import KeplerFormal.L3Query.FrontierPaths
import KeplerFormal.L5Strategy.Btor2Timeline

/-!
# What the exported model says

The runs of the exported model are the full unrollings of the problem, and its bad value
is raised where the base case looks for a bad frame.

* `Carries`: a run of the model and a trace of the problem with the same values.
* `exportNext_holds`, `exportRelation_holds`, ..., `exportReset_holds`: what each part of
  the export asks of them.
* `run_iff_unrolling`, `badAt_iff_frontierQuestion`: runs and bad frames.
* `export_agrees`: the model agrees with the base case search.
-/
namespace KeplerFormal

open Core Btor2Model ExportTimeline

/-! ## Symbols -/

namespace SymbolNames

theorem declares_emplace {names : SymbolNames} {s x : Nat} {name : String} :
    (names.emplace s name).declares x = true ↔ names.declares x = true ∨ x = s := by
  unfold emplace declares
  split
  · rename_i hmem
    constructor
    · exact .inl
    · rintro (h | rfl)
      · exact h
      · exact hmem
  · simp only [List.any_eq_true, List.mem_append, List.mem_cons, List.mem_filter, beq_iff_eq,
      decide_eq_true_eq]
    constructor
    · rintro ⟨e, (⟨he, _⟩ | rfl | ⟨he, _⟩), rfl⟩
      · exact .inl ⟨e, he, rfl⟩
      · exact .inr rfl
      · exact .inl ⟨e, he, rfl⟩
    · rintro (⟨e, he, rfl⟩ | rfl)
      · rcases Nat.lt_trichotomy e.1 s with h | h | h
        · exact ⟨e, .inl ⟨he, h⟩, rfl⟩
        · exact ⟨(s, name), .inr (.inl rfl), h.symm⟩
        · exact ⟨e, .inr (.inr ⟨he, h⟩), rfl⟩
      · exact ⟨(x, name), .inr (.inl rfl), rfl⟩

theorem declares_of_mem {names : SymbolNames} {e : Nat × String} (h : e ∈ names) :
    names.declares e.1 = true :=
  List.any_eq_true.mpr ⟨e, h, beq_self_eq_true e.1⟩

theorem exists_of_declares {names : SymbolNames} {s : Nat} (h : names.declares s = true) :
    ∃ name, (s, name) ∈ names := by
  obtain ⟨e, he, hs⟩ := List.any_eq_true.mp h
  obtain rfl := beq_iff_eq.mp hs
  exact ⟨e.2, he⟩

end SymbolNames

theorem addStates_declares {names states : SymbolNames} {l : List (Nat × String)}
    (h : addStates names l = .ok states) (x : Nat) :
    states.declares x = true ↔ names.declares x = true ∨ x ∈ l.map Prod.fst := by
  induction l generalizing names with
  | nil =>
    obtain rfl := Except.ok.inj h
    simp
  | cons e rest ih =>
    unfold addStates at h
    split at h
    · cases h
    · rw [ih h, SymbolNames.declares_emplace, List.map_cons, List.mem_cons, or_assoc]

theorem addInputs_declares {states names inputs : SymbolNames} {environmentInputNames : List String}
    {l : List (Nat × Nat)} (h : addInputs states environmentInputNames names l = .ok inputs)
    {x : Nat} (hx : inputs.declares x = true) :
    names.declares x = true ∨ 2 ≤ x ∧ states.declares x = false := by
  induction l generalizing names with
  | nil =>
    obtain rfl := Except.ok.inj h
    exact .inl hx
  | cons e rest ih =>
    unfold addInputs at h
    split at h
    · cases h
    · rename_i hvalid
      rw [not_or, Bool.not_eq_true, Nat.not_lt] at hvalid
      rcases ih h with hnames | hinput
      · rcases SymbolNames.declares_emplace.mp hnames with hnames | rfl
        · exact .inl hnames
        · exact .inr hvalid
      · exact .inr hinput

theorem declares_foldl_emplace {symbols : List Nat} {names : SymbolNames} {x : Nat}
    (h : (symbols.foldl (fun names s => names.emplace s ("input_" ++ toString s))
      names).declares x = true) : names.declares x = true ∨ x ∈ symbols := by
  induction symbols generalizing names with
  | nil => exact .inl h
  | cons s rest ih =>
    rcases ih h with hnames | hrest
    · rcases SymbolNames.declares_emplace.mp hnames with hnames | rfl
      · exact .inl hnames
      · exact .inr List.mem_cons_self
    · exact .inr (List.mem_cons_of_mem _ hrest)

namespace KInductionProblem
variable {p : KInductionProblem} {states inputs : SymbolNames}

/-- The tables of an accepted problem: its states are declared, its inputs are none. -/
structure Declared (p : KInductionProblem) (states inputs : SymbolNames) : Prop where
  states_iff : ∀ s, states.declares s = true ↔ s ∈ p.combinedStateSymbols
  inputs_of : ∀ s, inputs.declares s = true → 2 ≤ s ∧ states.declares s = false

theorem exportStates_iff (h : p.exportStates = .ok states) (s : Nat) :
    states.declares s = true ↔ s ∈ p.combinedStateSymbols := by
  rw [addStates_declares h]
  simp [SymbolNames.declares, combinedStateSymbols, Function.comp_def]

theorem declared_of_export {io : ExportInterface} (hstates : p.exportStates = .ok states)
    (hinputs : p.exportInputs states io = .ok inputs) : p.Declared states inputs := by
  refine ⟨exportStates_iff hstates, fun s hs => ?_⟩
  obtain ⟨names, hnames, hall⟩ := bind_ok.mp hinputs
  obtain rfl := Except.ok.inj hall
  rcases declares_foldl_emplace hs with hdeclared | hsymbol
  · rcases addInputs_declares hnames hdeclared with hnone | hinput
    · cases hnone
    · exact hinput
  · have hfilter := (List.mem_filter.mp hsymbol).2
    simpa using hfilter

theorem Declared.two_le (hdeclared : p.Declared states inputs) {s : Nat}
    (h : states.declares s = true) : 2 ≤ s :=
  p.reserved s ((hdeclared.states_iff s).mp h)

/-! ## Values -/

/-- Every declared symbol has its value of the trace. -/
def Carries (states inputs : SymbolNames) (r : Btor2Trace Nat ExportState) (τ : Trace) : Prop :=
  ∀ s e, exportNode states inputs s = some e → ∀ t, r.value t e = τ t s

/-- The trace that a run of the model shows. -/
def modelTrace (states inputs : SymbolNames) (r : Btor2Trace Nat ExportState) : Trace :=
  fun t s => match exportNode states inputs s with
    | some e => r.value t e
    | none => false

/-- The run of the model that shows a trace. -/
def exportTrace (p : KInductionProblem) (τ : Trace) : Btor2Trace Nat ExportState where
  inputs t s := τ t s
  states t
    | .symbol s => τ t s
    | .cycle i => (min t p.exportLastFrame).testBit i
    | .initialFrame => decide (t = 0)

theorem carries_modelTrace (r : Btor2Trace Nat ExportState) :
    Carries states inputs r (modelTrace states inputs r) := by
  intro s e he t
  unfold modelTrace
  rw [he]

theorem carries_exportTrace (τ : Trace) : Carries states inputs (p.exportTrace τ) τ := by
  intro s e he t
  unfold exportNode at he
  split at he
  · obtain rfl := Option.some.inj he
    rfl
  · split at he
    · obtain rfl := Option.some.inj he
      rfl
    · cases he

theorem clock_exportTrace (τ : Trace) (n : Nat) :
    Clock (p.exportTrace τ) n p.exportLastFrame := fun _ _ _ _ => rfl

theorem flag_exportTrace (τ : Trace) (n : Nat) :
    ∀ line ∈ (firstFrame p.exportLastFrame).2, LineHolds n (p.exportTrace τ) line := by
  unfold firstFrame
  split
  · exact fun line hline => absurd hline List.not_mem_nil
  · intro line hline
    simp only [List.mem_cons, List.not_mem_nil, or_false] at hline
    rcases hline with rfl | rfl | rfl
    · trivial
    · rfl
    · exact fun t _ => rfl

section
variable {r : Btor2Trace Nat ExportState} {τ : Trace} {n : Nat}
  (hdeclared : p.Declared states inputs) (hcarries : Carries states inputs r τ)

theorem value_writeExpression (hcarries : Carries states inputs r τ) {e : BoolExpr} {x : ExportExpr}
    (h : writeExpression (exportNode states inputs) e = .ok x) (t : Nat) :
    r.value t x = e.eval (τ t) := by
  induction e generalizing x with
  | var s =>
    unfold writeExpression at h
    split at h
    · rename_i hconst
      obtain rfl := Except.ok.inj h
      match s with
      | 0 => rfl
      | 1 => rfl
      | s + 2 => omega
    · rename_i hsymbol
      split at h
      · rename_i node hnode
        obtain rfl := Except.ok.inj h
        rw [hcarries s node hnode, BoolExpr.eval_var _ (Nat.not_lt.mp hsymbol)]
      · cases h
  | not a iha =>
    obtain ⟨x', ha, hx⟩ := bind_ok.mp h
    obtain rfl := Except.ok.inj hx
    exact congrArg _ (iha ha)
  | and a b iha ihb =>
    obtain ⟨x', ha, h'⟩ := bind_ok.mp h
    obtain ⟨y', hb, hx⟩ := bind_ok.mp h'
    obtain rfl := Except.ok.inj hx
    exact congrArg₂ _ (iha ha) (ihb hb)
  | or a b iha ihb =>
    obtain ⟨x', ha, h'⟩ := bind_ok.mp h
    obtain ⟨y', hb, hx⟩ := bind_ok.mp h'
    obtain rfl := Except.ok.inj hx
    exact congrArg₂ _ (iha ha) (ihb hb)
  | xor a b iha ihb =>
    obtain ⟨x', ha, h'⟩ := bind_ok.mp h
    obtain ⟨y', hb, hx⟩ := bind_ok.mp h'
    obtain rfl := Except.ok.inj hx
    exact congrArg₂ _ (iha ha) (ihb hb)

include hdeclared hcarries

theorem value_state {s : Nat} (h : states.declares s = true) (t : Nat) :
    r.states t (.symbol s) = lit (τ t) s := by
  have hnotInput : ¬ inputs.declares s = true := by
    intro hinput
    rw [(hdeclared.inputs_of s hinput).2] at h
    cases h
  have hnode : exportNode states inputs s = some (.state (.symbol s)) := by
    rw [exportNode, if_neg hnotInput, if_pos h]
  rw [lit_of_two_le _ (hdeclared.two_le h)]
  exact hcarries s _ hnode t

theorem value_nodeForState {s : Nat} {e : ExportExpr} (h : nodeForState states s = .ok e) (t : Nat) :
    r.value t e = lit (τ t) s := by
  unfold nodeForState at h
  split at h
  · rename_i hs
    obtain rfl := Except.ok.inj h
    exact value_state hdeclared hcarries hs t
  · cases h

/-! ## Transitions and relations -/

/-- The line of a state says what the transitions force on it. -/
theorem exportNext_holds {state : Nat × String} (hstate : state ∈ states) {line : ExportLine}
    (h : p.exportNext states inputs state = .ok line) :
    LineHolds n r line ↔
      ∀ t < n, ∀ v, p.nextStateOf (τ t) state.1 = some v → lit (τ (t + 1)) state.1 = v := by
  have hvalue := value_state hdeclared hcarries (SymbolNames.declares_of_mem hstate)
  -- a line for the forced value `f t`
  have hforced : ∀ (x : ExportExpr) (f : Nat → Bool), (∀ t, r.value t x = f t) →
      (∀ t, p.nextStateOf (τ t) state.1 = some (f t)) →
      (LineHolds n r (.next (.symbol state.1) x) ↔
        ∀ t < n, ∀ v, p.nextStateOf (τ t) state.1 = some v → lit (τ (t + 1)) state.1 = v) := by
    intro x f hx hf
    refine forall_congr' fun t => forall_congr' fun _ => ?_
    rw [hvalue, hx, hf]
    exact ⟨fun heq v hv => heq.trans (Option.some.inj hv), fun hall => hall _ rfl⟩
  unfold exportNext at h
  cases htransition : p.transitionAt state.1 with
  | some e =>
    rw [htransition] at h
    obtain ⟨x, hx, hline⟩ := bind_ok.mp h
    obtain rfl := Except.ok.inj hline
    exact hforced x _ (value_writeExpression hcarries hx)
      fun t => nextStateOf_of_transition htransition
  | none =>
    rw [htransition] at h
    cases hprimary : p.primaryByComplement state.1 with
    | none =>
      rw [hprimary] at h
      cases h
    | some a =>
      cases ha : p.transitionAt a with
      | none =>
        simp only [hprimary, Option.bind_some, ha] at h
        cases h
      | some e =>
        simp only [hprimary, Option.bind_some, ha] at h
        obtain ⟨x, hx, hline⟩ := bind_ok.mp h
        obtain rfl := Except.ok.inj hline
        refine hforced (.not x) _ (fun t => ?_)
          fun t => nextStateOf_of_primary htransition hprimary ha
        exact congrArg _ (value_writeExpression hcarries hx t)

/-- The lines of all states say that every step advances. -/
theorem nexts_hold {nexts : List ExportLine}
    (h : states.mapM (p.exportNext states inputs) = .ok nexts) :
    (∀ line ∈ nexts, LineHolds n r line) ↔ p.Path τ n := by
  rw [mapM_holds h fun state hstate line => exportNext_holds hdeclared hcarries hstate]
  constructor
  · intro hall t ht s v hv
    have hs := (hdeclared.states_iff s).mpr (mem_combinedStateSymbols_of_nextStateOf hv)
    obtain ⟨name, hmem⟩ := SymbolNames.exists_of_declares hs
    exact hall (s, name) hmem t ht v hv
  · intro hpath state _ t ht v hv
    exact hpath t ht state.1 v hv

theorem exportRelation_holds {complement : Bool} {pair : Nat × Nat} {line : ExportLine}
    (h : exportRelation states complement pair = .ok line) :
    LineHolds n r line ↔ ∀ t ≤ n,
      lit (τ t) pair.2 = if complement then !lit (τ t) pair.1 else lit (τ t) pair.1 := by
  obtain ⟨lhs, hlhs, h'⟩ := bind_ok.mp h
  obtain ⟨rhs, hrhs, hline⟩ := bind_ok.mp h'
  obtain rfl := Except.ok.inj hline
  refine forall_congr' fun t => forall_congr' fun _ => ?_
  have hl := value_nodeForState hdeclared hcarries hlhs t
  have hr := value_nodeForState hdeclared hcarries hrhs t
  cases complement with
  | true =>
    show ((!r.value t lhs) == r.value t rhs) = true ↔ _
    rw [hl, hr, beq_iff_eq]
    exact eq_comm
  | false =>
    show (r.value t lhs == r.value t rhs) = true ↔ _
    rw [hl, hr, beq_iff_eq]
    exact eq_comm

theorem exportRails_holds {rails : DualRailSymbolPair} {line : ExportLine}
    (h : exportRails states rails = .ok line) :
    LineHolds n r line ↔ ∀ t ≤ n, (lit (τ t) rails.mayBeOne || lit (τ t) rails.mayBeZero) = true := by
  obtain ⟨one, hone, h'⟩ := bind_ok.mp h
  obtain ⟨zero, hzero, hline⟩ := bind_ok.mp h'
  obtain rfl := Except.ok.inj hline
  refine forall_congr' fun t => forall_congr' fun _ => ?_
  rw [← value_nodeForState hdeclared hcarries hone, ← value_nodeForState hdeclared hcarries hzero]
  rfl

/-- The three kinds of constraints say that every frame keeps the relations. -/
theorem relations_hold {complements equalities rails : List ExportLine}
    (hcomplements : p.complementedStatePairs.mapM (exportRelation states true) = .ok complements)
    (hequalities :
      p.sameFrameStateEqualityPairs.mapM (exportRelation states false) = .ok equalities)
    (hrails : p.dualRailStatePairs.mapM (exportRails states) = .ok rails) :
    ((∀ line ∈ complements, LineHolds n r line) ∧ (∀ line ∈ equalities, LineHolds n r line) ∧
      ∀ line ∈ rails, LineHolds n r line) ↔ ∀ t ≤ n, p.DomainValid (τ t) := by
  rw [mapM_holds hcomplements fun pair _ line => exportRelation_holds hdeclared hcarries,
    mapM_holds hequalities fun pair _ line => exportRelation_holds hdeclared hcarries,
    mapM_holds hrails fun pair _ line => exportRails_holds hdeclared hcarries]
  constructor
  · rintro ⟨hc, he, hr⟩ t ht
    exact ⟨fun pr hpr => hc pr hpr t ht, fun pr hpr => (he pr hpr t ht).symm,
      fun rails hmem => hr rails hmem t ht⟩
  · intro hvalid
    exact ⟨fun pr hpr t ht => (hvalid t ht).complemented pr hpr,
      fun pr hpr t ht => ((hvalid t ht).equal pr hpr).symm,
      fun rails hmem t ht => (hvalid t ht).rails rails hmem⟩

end

/-! ## Startup -/

theorem exportResetFrames_eq : p.exportResetFrames = p.resetBootstrapFrames := rfl

theorem hasExplicitInitialState_of_complete (h : p.hasCompleteInitialState = true) :
    p.hasExplicitInitialState = true := (Bool.and_eq_true_iff.mp h).1

theorem assertsInitialFacts_eq :
    p.baseStartup.initialMode.assertsInitialFacts =
      (p.exportResetFrames == 0 && p.hasSequentialState && p.hasExplicitInitialState) := by
  rw [exportResetFrames_eq]
  show (if p.resetBootstrapFrames = 0 then p.determineInitialConstraintMode
    else .none).assertsInitialFacts = _
  by_cases hzero : p.resetBootstrapFrames = 0
  · rw [if_pos hzero, beq_iff_eq.mpr hzero, determineInitialConstraintMode]
    cases hstate : p.hasSequentialState with
    | false => rfl
    | true =>
      cases hcomplete : p.hasCompleteInitialState with
      | true =>
        rw [hasExplicitInitialState_of_complete hcomplete]
        rfl
      | false => cases p.hasExplicitInitialState <;> rfl
  · rw [if_neg hzero, beq_eq_false_iff_ne.mpr hzero]
    rfl

theorem exportInitialObservation_eq :
    p.exportInitialObservation = p.baseStartup.initialMode.assertsObservation := by
  rw [exportInitialObservation, exportResetFrames_eq]
  show _ = (if p.resetBootstrapFrames = 0 then p.determineInitialConstraintMode
    else .none).assertsObservation
  by_cases hzero : p.resetBootstrapFrames = 0
  · rw [if_pos hzero, beq_iff_eq.mpr hzero, determineInitialConstraintMode]
    cases p.hasSequentialState with
    | false => rfl
    | true =>
      cases p.hasCompleteInitialState with
      | true => rfl
      | false => cases p.hasExplicitInitialState <;> rfl
  · rw [if_neg hzero, beq_eq_false_iff_ne.mpr hzero]
    rfl

theorem exportFirstBadFrame_eq : p.exportFirstBadFrame = p.baseStartup.firstBadFrame := by
  rw [exportFirstBadFrame, exportInitialObservation_eq]
  rfl

theorem assertsInitialAssignments_eq :
    p.assertsInitialAssignments p.plainFacts =
      (p.exportInitialize && (p.exportResetFrames != 0 || p.initialCondition.isSome)) := by
  rw [assertsInitialAssignments, assertsInitialFacts_eq]
  show (_ || (p.exportResetFrames != 0 && _)) = _
  unfold exportInitialize
  by_cases hzero : p.exportResetFrames = 0
  · simp [hzero]
  · rw [if_pos hzero, beq_eq_false_iff_ne.mpr hzero, bne_iff_ne.mpr hzero]
    simp

/-- The initial condition is written as a formula. -/
def WritesInitialFormula (p : KInductionProblem) : Prop :=
  p.initialStateAssignments = [] ∧ p.exportResetFrames = 0 ∧
    ∃ e, p.initialCondition = some e ∧ e ≠ .createTrue

theorem initialValues_forall {P : Nat × Bool → Prop} {values result l : List (Nat × Bool)}
    (h : initialValues values l = .ok result) :
    (∀ a ∈ result, P a) ↔ (∀ a ∈ values, P a) ∧ ∀ a ∈ l, P a := by
  induction l generalizing values with
  | nil =>
    obtain rfl := Except.ok.inj h
    simp
  | cons a rest ih =>
    unfold initialValues at h
    cases hlookup : values.lookup a.1 with
    | some value =>
      simp only [hlookup] at h
      split at h
      · cases h
      · rename_i hsame
        obtain ⟨l₁, l₂, heq, _⟩ := List.lookup_eq_some_iff.mp hlookup
        have hmem : a ∈ values := by
          rw [heq]
          refine List.mem_append_right _ ?_
          rw [not_not.mp hsame]
          exact List.mem_cons_self
        rw [ih h, List.forall_mem_cons]
        exact ⟨fun ⟨hv, hr⟩ => ⟨hv, hv a hmem, hr⟩, fun ⟨hv, _, hr⟩ => ⟨hv, hr⟩⟩
    | none =>
      simp only [hlookup] at h
      have hinsert : (∀ b ∈ values.filter (·.1 < a.1) ++ (a.1, a.2) :: values.filter (a.1 < ·.1),
          P b) ↔ P a ∧ ∀ b ∈ values, P b := by
        simp only [List.forall_mem_append, List.forall_mem_cons, List.mem_filter,
          decide_eq_true_eq, and_imp]
        constructor
        · rintro ⟨hless, ha, hgreater⟩
          refine ⟨ha, fun b hb => ?_⟩
          have hne := List.lookup_eq_none_iff.mp hlookup b hb
          rcases Nat.lt_trichotomy b.1 a.1 with hlt | heq | hlt
          · exact hless b hb hlt
          · simp [heq] at hne
          · exact hgreater b hb hlt
        · rintro ⟨ha, hall⟩
          exact ⟨fun b hb _ => hall b hb, ha, fun b hb _ => hall b hb⟩
      rw [ih h, hinsert, List.forall_mem_cons, and_assoc, and_left_comm]

theorem constrainWhen_holds {r : Btor2Trace Nat ExportState} {n : Nat} {guard condition : ExportExpr} :
    LineHolds n r (constrainWhen guard condition) ↔
      ∀ t ≤ n, r.value t guard = true → r.value t condition = true := by
  refine forall_congr' fun t => forall_congr' fun _ => ?_
  show (!r.value t guard || r.value t condition) = true ↔ _
  cases r.value t guard <;> simp

/-- The condition of the frame that ends the reset prefix. -/
theorem value_resetFrontier {r : Btor2Trace Nat ExportState} {n : Nat}
    (hclock : Clock r n p.exportLastFrame)
    (hreset : p.exportResetFrames ≠ 0) {t : Nat} (ht : t ≤ n) :
    r.value t (atFrame p.exportLastFrame p.exportResetFrames) =
      decide (t = p.exportResetFrames) := by
  have hlast : p.exportResetFrames + 1 ≤ p.exportLastFrame := by
    rw [exportLastFrame, if_pos hreset]
    exact Nat.le_max_right _ _
  rw [value_atFrame (hclock t ht) (by omega), decide_eq_decide]
  omega

section
variable {r : Btor2Trace Nat ExportState} {τ : Trace} {n : Nat}
  (hdeclared : p.Declared states inputs) (hcarries : Carries states inputs r τ)
include hdeclared hcarries

theorem exportInit_holds {a : Nat × Bool} {lines : List ExportLine}
    (h : exportInit states a = .ok lines) :
    (∀ line ∈ lines, LineHolds n r line) ↔ lit (τ 0) a.1 = a.2 := by
  obtain ⟨node, hnode, hlines⟩ := bind_ok.mp h
  obtain rfl := Except.ok.inj hlines
  have hstate : states.declares a.1 = true := by
    unfold nodeForState at hnode
    split at hnode
    · assumption
    · cases hnode
  rw [List.forall_mem_singleton, ← value_state hdeclared hcarries hstate]
  rfl

/-- The initial part says what startup asserts about frame 0. -/
theorem exportInitial_holds {initial : List ExportLine}
    (h : p.exportInitial states inputs = .ok initial) (hclock : Clock r n p.exportLastFrame) :
    (∀ line ∈ initial, LineHolds n r line) ↔
      ((p.baseStartup.initialMode.assertsInitialFacts = true → p.WritesInitialFormula →
        ∀ line ∈ (firstFrame p.exportLastFrame).2, LineHolds n r line) ∧
      (p.assertsInitialAssignments p.plainFacts = true →
        ∀ a ∈ p.initialStateAssignments, lit (τ 0) a.1 = a.2) ∧
      (p.baseStartup.initialMode.assertsInitialFacts = true →
        p.hasStructuredInitialAssignments = false →
        ∀ e, p.initialCondition = some e → e.eval (τ 0) = true)) := by
  have hinitialized : p.baseStartup.initialMode.assertsInitialFacts = true →
      p.exportResetFrames = 0 ∧ p.exportInitialize = true := by
    intro hfacts
    rw [assertsInitialFacts_eq, Bool.and_eq_true, Bool.and_eq_true, beq_iff_eq] at hfacts
    refine ⟨hfacts.1.1, ?_⟩
    rw [exportInitialize, if_neg (not_not_intro hfacts.1.1), hfacts.1.2, hfacts.2]
    rfl
  have hnone : (∀ line ∈ ([] : List ExportLine), LineHolds n r line) := by simp
  rw [assertsInitialAssignments_eq]
  unfold exportInitial at h
  by_cases hasserts :
      (p.exportInitialize && (p.exportResetFrames != 0 || p.initialCondition.isSome)) = true
  · rw [if_pos hasserts] at h
    by_cases hnil : p.initialStateAssignments = []
    · rw [if_neg (not_not_intro hnil)] at h
      have hassign : ∀ a ∈ p.initialStateAssignments, lit (τ 0) a.1 = a.2 := by
        simp [hnil]
      cases hcondition : p.initialCondition with
      | none =>
        rw [hcondition] at h
        obtain rfl := Except.ok.inj h
        refine iff_of_true hnone ⟨fun _ hwrites => ?_, fun _ => hassign, by simp⟩
        obtain ⟨e, he, _⟩ := hwrites.2.2
        rw [hcondition] at he
        cases he
      | some condition =>
        simp only [hcondition] at h
        by_cases hwrite : p.exportResetFrames = 0 ∧ condition ≠ .createTrue
        · rw [if_pos hwrite] at h
          obtain ⟨node, hnode, hlines⟩ := bind_ok.mp h
          obtain rfl := Except.ok.inj hlines
          have hfacts : p.baseStartup.initialMode.assertsInitialFacts = true := by
            have hinit := (Bool.and_eq_true_iff.mp hasserts).1
            rw [exportInitialize, if_neg (not_not_intro hwrite.1)] at hinit
            rw [assertsInitialFacts_eq, hwrite.1, Bool.and_assoc, hinit]
            rfl
          have hwrites : p.WritesInitialFormula := ⟨hnil, hwrite.1, condition, hcondition, hwrite.2⟩
          have hunstructured : p.hasStructuredInitialAssignments = false := by
            rw [hasStructuredInitialAssignments, hnil]
            rfl
          rw [List.forall_mem_append, List.forall_mem_singleton, constrainWhen_holds]
          have hvalue := value_writeExpression hcarries hnode
          constructor
          · rintro ⟨hflag, hformula⟩
            refine ⟨fun _ _ => hflag, fun _ => hassign, fun _ _ e he => ?_⟩
            obtain rfl := Option.some.inj he
            have hzero := hformula 0 (Nat.zero_le _)
            rw [value_firstFrame hclock hflag (Nat.zero_le _), hvalue] at hzero
            exact hzero rfl
          · rintro ⟨hflag, _, hformula⟩
            have hflag := hflag hfacts hwrites
            refine ⟨hflag, fun t ht hfirst => ?_⟩
            rw [value_firstFrame hclock hflag ht, decide_eq_true_eq] at hfirst
            subst hfirst
            rw [hvalue]
            exact hformula hfacts hunstructured condition rfl
        · rw [if_neg hwrite] at h
          obtain rfl := Except.ok.inj h
          refine iff_of_true hnone ⟨fun _ hwrites => ?_, fun _ => hassign, fun hfacts _ e he => ?_⟩
          · obtain ⟨e, he, hne⟩ := hwrites.2.2
            rw [hcondition] at he
            obtain rfl := Option.some.inj he
            exact absurd ⟨hwrites.2.1, hne⟩ hwrite
          · obtain rfl := Option.some.inj he
            have htrue : condition = .createTrue := by
              by_contra hne
              exact hwrite ⟨(hinitialized hfacts).1, hne⟩
            rw [htrue]
            rfl
    · rw [if_pos hnil] at h
      obtain ⟨values, hvalues, h'⟩ := bind_ok.mp h
      obtain ⟨lines, hlines, hflatten⟩ := bind_ok.mp h'
      obtain rfl := Except.ok.inj hflatten
      have hstructured : p.hasStructuredInitialAssignments = true := by
        cases hassign : p.initialStateAssignments with
        | nil => exact absurd hassign hnil
        | cons => rw [hasStructuredInitialAssignments, hassign]; rfl
      have hparts : (∀ line ∈ lines.flatten, LineHolds n r line) ↔
          ∀ part ∈ lines, ∀ line ∈ part, LineHolds n r line := by
        simp only [List.mem_flatten]
        constructor
        · intro hall part hpart line hline
          exact hall line ⟨part, hpart, hline⟩
        · intro hall line hline
          obtain ⟨part, hpart, hline⟩ := hline
          exact hall part hpart line hline
      rw [hparts, mapM_holds hlines fun a _ part => exportInit_holds hdeclared hcarries]
      rw [initialValues_forall hvalues]
      constructor
      · rintro ⟨_, hall⟩
        refine ⟨fun _ hwrites => absurd hwrites.1 hnil, fun _ => hall, fun _ hno => ?_⟩
        rw [hstructured] at hno
        cases hno
      · rintro ⟨_, hall, _⟩
        exact ⟨by simp, hall hasserts⟩
  · rw [if_neg hasserts] at h
    obtain rfl := Except.ok.inj h
    -- facts are asserted only where the problem has an initial condition
    have hno : p.baseStartup.initialMode.assertsInitialFacts = true →
        ∀ e, p.initialCondition ≠ some e := by
      intro hfacts e he
      refine hasserts ?_
      rw [(hinitialized hfacts).2, he]
      simp
    refine iff_of_true hnone ⟨fun hfacts hwrites => ?_, fun h => absurd h hasserts,
      fun hfacts _ e he => absurd he (hno hfacts e)⟩
    obtain ⟨e, he, _⟩ := hwrites.2.2
    exact absurd he (hno hfacts e)

/-! ## Reset -/

theorem exportResetInput_holds (hclock : Clock r n p.exportLastFrame)
    (hreset : p.exportResetFrames ≠ 0) {input : Nat × Bool} {line : ExportLine}
    (h : p.exportResetInput inputs input = .ok line) :
    LineHolds n r line ↔ ∀ t ≤ n,
      lit (τ t) input.1 = if t < p.exportResetFrames then input.2 else !input.2 := by
  unfold exportResetInput at h
  split at h
  · rename_i hinput
    obtain rfl := Except.ok.inj h
    refine forall_congr' fun t => forall_congr' fun ht => ?_
    have hnode : exportNode states inputs input.1 = some (.input input.1) := by
      rw [exportNode, if_pos hinput]
    have hvalue : r.inputs t input.1 = lit (τ t) input.1 := by
      rw [lit_of_two_le _ (hdeclared.inputs_of _ hinput).1]
      exact hcarries _ _ hnode t
    have hlast : p.exportResetFrames ≤ p.exportLastFrame := by
      rw [exportLastFrame, if_pos hreset]
      exact Nat.le_trans (Nat.le_succ _) (Nat.le_max_right _ _)
    have hactive := value_before (hclock t ht) hlast
    have heq : ∀ x y : ExportExpr, r.value t (.eq x y) = (r.value t x == r.value t y) :=
      fun _ _ => rfl
    have hnot : ∀ x : ExportExpr, r.value t (.not x) = !r.value t x := fun _ => rfl
    have hvalue' : r.value t (.input input.1) = lit (τ t) input.1 := hvalue
    rw [heq, hvalue', beq_iff_eq]
    by_cases hbefore : t < p.exportResetFrames
    · cases hside : input.2 <;> simp [hnot, hactive, hbefore]
    · cases hside : input.2 <;> simp [hnot, hactive, hbefore]
  · cases h

theorem exportBootstrap_holds (hclock : Clock r n p.exportLastFrame)
    (hreset : p.exportResetFrames ≠ 0) (hfrontier : p.exportResetFrames ≤ n) {a : Nat × Bool}
    {line : ExportLine} (h : p.exportBootstrap states a = .ok line) :
    LineHolds n r line ↔ lit (τ p.exportResetFrames) a.1 = a.2 := by
  obtain ⟨node, hnode, hline⟩ := bind_ok.mp h
  obtain rfl := Except.ok.inj hline
  have hvalue := value_nodeForState hdeclared hcarries hnode
  have hside : ∀ t, r.value t (if a.2 then node else .not node) = (lit (τ t) a.1 == a.2) := by
    intro t
    rw [← hvalue]
    cases a.2 with
    | true => simp
    | false =>
      show (!r.value t node) = _
      simp
  rw [constrainWhen_holds]
  constructor
  · intro hall
    have hat := hall _ hfrontier
    rw [value_resetFrontier hclock hreset hfrontier, hside] at hat
    simpa using hat
  · intro hlit t ht hat
    rw [value_resetFrontier hclock hreset ht, decide_eq_true_eq] at hat
    rw [hside, hat, hlit, beq_self_eq_true]

/-- The reset part says what the prefix and its end ask for. -/
theorem exportReset_holds {property : ExportExpr} {reset : List ExportLine}
    (hproperty : writeExpression (exportNode states inputs) p.property = .ok property)
    (h : p.exportReset states inputs property = .ok reset)
    (hclock : Clock r n p.exportLastFrame) (hfrontier : p.exportResetFrames ≤ n) :
    (∀ line ∈ reset, LineHolds n r line) ↔
      (p.ResetSequence n τ ∧
      (p.baseStartup.observationFrontier = true →
        p.property.eval (τ p.resetBootstrapFrames) = true) ∧
      (p.plainFacts.frontierBootstrap = true →
        ∀ a ∈ p.bootstrapStateAssignments, lit (τ p.resetBootstrapFrames) a.1 = a.2)) := by
  have hboot : p.plainFacts.frontierBootstrap =
      (p.exportResetFrames != 0 && !p.usesDualRailStateEncoding) := rfl
  have hobserve : p.baseStartup.observationFrontier = p.exportResetObservation := rfl
  rw [hboot, hobserve]
  unfold exportReset at h
  by_cases hreset : p.exportResetFrames ≠ 0
  · rw [if_pos hreset] at h
    obtain ⟨resets, hresets, h'⟩ := bind_ok.mp h
    obtain ⟨bootstrap, hbootstrap, hlines⟩ := bind_ok.mp h'
    obtain rfl := Except.ok.inj hlines
    have hsequence : (∀ line ∈ resets, LineHolds n r line) ↔ p.ResetSequence n τ := by
      rw [mapM_holds hresets fun input _ line =>
        exportResetInput_holds hdeclared hcarries hclock hreset]
      constructor
      · intro hall
        refine ⟨fun f hf hlt input hinput => ?_, fun _ f hf hge input hinput => ?_⟩
        · exact (hall input hinput f hf).trans (if_pos hlt)
        · exact (hall input hinput f hf).trans (if_neg (Nat.not_lt.mpr hge))
      · intro hseq input hinput f hf
        split
        · rename_i hlt
          exact hseq.asserted f hf hlt input hinput
        · rename_i hge
          exact hseq.deasserted hreset f hf (Nat.not_lt.mp hge) input hinput
    have hfrontierLine : (∀ line ∈ (if p.exportResetObservation then
        [constrainWhen (atFrame p.exportLastFrame p.exportResetFrames) property] else []),
          LineHolds n r line) ↔ (p.exportResetObservation = true →
        p.property.eval (τ p.resetBootstrapFrames) = true) := by
      have hvalue := value_writeExpression hcarries hproperty
      cases p.exportResetObservation with
      | false => exact iff_of_true nofun nofun
      | true =>
        rw [if_pos rfl, List.forall_mem_singleton, constrainWhen_holds]
        constructor
        · intro hall _
          rw [← exportResetFrames_eq, ← hvalue]
          refine hall _ hfrontier ?_
          rw [value_resetFrontier hclock hreset hfrontier, decide_eq_true_eq]
        · intro hholds t ht hat
          rw [value_resetFrontier hclock hreset ht, decide_eq_true_eq] at hat
          rw [hvalue, hat]
          exact hholds rfl
    have hassign : (∀ line ∈ bootstrap, LineHolds n r line) ↔
        ((p.exportResetFrames != 0 && !p.usesDualRailStateEncoding) = true →
          ∀ a ∈ p.bootstrapStateAssignments, lit (τ p.resetBootstrapFrames) a.1 = a.2) := by
      unfold exportBootstraps at hbootstrap
      cases hrails : p.usesDualRailStateEncoding with
      | true =>
        rw [hrails] at hbootstrap
        obtain rfl := Except.ok.inj hbootstrap
        exact iff_of_true nofun fun h => by simp at h
      | false =>
        rw [hrails] at hbootstrap
        rw [mapM_holds hbootstrap fun a _ line =>
          exportBootstrap_holds hdeclared hcarries hclock hreset hfrontier, bne_iff_ne.mpr hreset]
        exact ⟨fun hall _ => hall, fun hall => hall rfl⟩
    rw [List.forall_mem_append, List.forall_mem_append, hsequence, hfrontierLine, hassign, and_assoc]
  · rw [if_neg hreset] at h
    obtain rfl := Except.ok.inj h
    have hzero : p.exportResetFrames = 0 := not_not.mp hreset
    have hzero' : p.resetBootstrapFrames = 0 := hzero
    refine iff_of_true nofun ⟨⟨fun f _ hf => ?_, fun hne => absurd hzero' hne⟩, fun hobs => ?_,
      fun hboot => ?_⟩
    · omega
    · rw [exportResetObservation, hzero] at hobs
      cases hobs
    · rw [hzero] at hboot
      cases hboot

end

/-! ## The model -/

/-- The parts of an accepted export. -/
structure ExportParts (p : KInductionProblem) (io : ExportInterface) where
  states : SymbolNames
  inputs : SymbolNames
  nexts : List ExportLine
  complements : List ExportLine
  equalities : List ExportLine
  rails : List ExportLine
  initial : List ExportLine
  property : ExportExpr
  reset : List ExportLine
  bad : ExportExpr
  hstates : p.exportStates = .ok states
  hinputs : p.exportInputs states io = .ok inputs
  hnexts : states.mapM (p.exportNext states inputs) = .ok nexts
  hcomplements : p.complementedStatePairs.mapM (exportRelation states true) = .ok complements
  hequalities : p.sameFrameStateEqualityPairs.mapM (exportRelation states false) = .ok equalities
  hrails : p.dualRailStatePairs.mapM (exportRails states) = .ok rails
  hinitial : p.exportInitial states inputs = .ok initial
  hproperty : writeExpression (exportNode states inputs) p.property = .ok property
  hreset : p.exportReset states inputs property = .ok reset
  hbad : writeExpression (exportNode states inputs) p.bad = .ok bad

namespace ExportParts
variable {io : ExportInterface} (parts : p.ExportParts io)

def observation : List ExportLine :=
  if p.exportInitialObservation then
    [constrainWhen (firstFrame p.exportLastFrame).1 parts.property] else []

def raised : ExportExpr :=
  if p.exportFirstBadFrame ≠ 0 then
    .and (.not (before p.exportLastFrame p.exportFirstBadFrame)) parts.bad
  else parts.bad

/-- All lines, with `declarations` before the rules and `note` in front of the counter. -/
def model (declarations : List ExportLine) (note : String) : Btor2Model Nat ExportState :=
  declarations ++ parts.nexts ++ parts.complements ++ parts.equalities ++ parts.rails ++
    [.comment note] ++ lines p.exportLastFrame ++ parts.initial ++ parts.observation ++
    parts.reset ++ [.bad parts.raised "equivalence_mismatch"]

end ExportParts

/-- Comments and declarations ask for nothing. -/
def Declares : ExportLine → Prop
  | .comment _ | .input _ _ | .state _ _ => True
  | _ => False

theorem Declares.holds {line : ExportLine} (h : Declares line) {n : Nat}
    {r : Btor2Trace Nat ExportState} : LineHolds n r line := by
  cases line with
  | comment => trivial
  | input => trivial
  | state => trivial
  | init => cases h
  | next => cases h
  | constraint => cases h
  | bad => cases h

def IsBad : ExportLine → Prop
  | .bad _ _ => True
  | _ => False

theorem Declares.not_isBad {line : ExportLine} (h : Declares line) : ¬ IsBad line := by
  intro hbad
  cases line with
  | bad => cases h
  | comment => cases hbad
  | input => cases hbad
  | state => cases hbad
  | init => cases h
  | next => cases h
  | constraint => cases h

/-- An accepted export has its parts behind declarations. -/
theorem parts_of_export {io : ExportInterface} {metadata : SecBtor2Metadata}
    {M : Btor2Model Nat ExportState} (h : p.exportSecBtor2 io metadata = .ok M) :
    ∃ (parts : p.ExportParts io) (declarations : List ExportLine) (note : String),
      (∀ line ∈ declarations, Declares line) ∧ M = parts.model declarations note := by
  obtain ⟨states, hstates, h⟩ := bind_ok.mp h
  obtain ⟨inputs, hinputs, h⟩ := bind_ok.mp h
  obtain ⟨nexts, hnexts, h⟩ := bind_ok.mp h
  obtain ⟨complements, hcomplements, h⟩ := bind_ok.mp h
  obtain ⟨equalities, hequalities, h⟩ := bind_ok.mp h
  obtain ⟨rails, hrails, h⟩ := bind_ok.mp h
  obtain ⟨_, _, h⟩ := bind_ok.mp h
  obtain ⟨initial, hinitial, h⟩ := bind_ok.mp h
  obtain ⟨property, hproperty, h⟩ := bind_ok.mp h
  obtain ⟨reset, hreset, h⟩ := bind_ok.mp h
  obtain ⟨bad, hbad, h⟩ := bind_ok.mp h
  refine ⟨⟨states, inputs, nexts, complements, equalities, rails, initial, property, reset, bad,
    hstates, hinputs, hnexts, hcomplements, hequalities, hrails, hinitial, hproperty, hreset, hbad⟩,
    p.exportHeader io metadata ++ inputs.map (fun i => .input i.1 i.2) ++
      states.map (fun s => .state (.symbol s.1) s.2),
    "reset_prefix_frames=" ++ toString p.exportResetFrames ++ " first_bad_frame=" ++
      toString p.exportFirstBadFrame, ?_, ?_⟩
  rotate_left
  · obtain rfl := Except.ok.inj h
    rfl
  simp only [List.forall_mem_append, exportHeader, List.forall_mem_cons, List.forall_mem_map]
  refine ⟨⟨⟨⟨⟨trivial, trivial, trivial, trivial, nofun⟩, ?_⟩, ?_⟩, ?_⟩, ?_⟩ <;>
    exact fun _ _ => trivial

/-! ### No part but the last raises a bad value -/

theorem exportNext_not_isBad {state : Nat × String} {line : ExportLine}
    (h : p.exportNext states inputs state = .ok line) : ¬ IsBad line := by
  unfold exportNext at h
  split at h
  · obtain ⟨_, _, hline⟩ := bind_ok.mp h
    obtain rfl := Except.ok.inj hline
    exact id
  · split at h
    · obtain ⟨_, _, hline⟩ := bind_ok.mp h
      obtain rfl := Except.ok.inj hline
      exact id
    · cases h

theorem exportRelation_not_isBad {complement : Bool} {pair : Nat × Nat} {line : ExportLine}
    (h : exportRelation states complement pair = .ok line) : ¬ IsBad line := by
  obtain ⟨_, _, h⟩ := bind_ok.mp h
  obtain ⟨_, _, hline⟩ := bind_ok.mp h
  obtain rfl := Except.ok.inj hline
  exact id

theorem exportRails_not_isBad {rails : DualRailSymbolPair} {line : ExportLine}
    (h : exportRails states rails = .ok line) : ¬ IsBad line := by
  obtain ⟨_, _, h⟩ := bind_ok.mp h
  obtain ⟨_, _, hline⟩ := bind_ok.mp h
  obtain rfl := Except.ok.inj hline
  exact id

theorem timeline_not_isBad {last : Nat} {line : ExportLine} (h : line ∈ lines last) :
    ¬ IsBad line := by
  obtain ⟨i, _, rfl | rfl | rfl⟩ := mem_lines.mp h <;> exact id

theorem exportInitial_not_isBad {initial : List ExportLine}
    (h : p.exportInitial states inputs = .ok initial) : ∀ line ∈ initial, ¬ IsBad line := by
  unfold exportInitial at h
  split at h
  · split at h
    · obtain ⟨values, _, h⟩ := bind_ok.mp h
      obtain ⟨parts, hparts, h⟩ := bind_ok.mp h
      obtain rfl := Except.ok.inj h
      have hall := mapM_forall (P := fun part => ∀ line ∈ part, ¬ IsBad line) hparts
        fun a part hpart => by
          obtain ⟨_, _, hline⟩ := bind_ok.mp hpart
          obtain rfl := Except.ok.inj hline
          exact List.forall_mem_singleton.mpr id
      intro line hline
      obtain ⟨part, hpart, hmem⟩ := List.mem_flatten.mp hline
      exact hall part hpart line hmem
    · split at h
      · split at h
        · obtain ⟨_, _, h⟩ := bind_ok.mp h
          obtain rfl := Except.ok.inj h
          rw [List.forall_mem_append]
          refine ⟨?_, List.forall_mem_singleton.mpr id⟩
          unfold firstFrame
          split
          · exact nofun
          · simp [IsBad]
        · obtain rfl := Except.ok.inj h
          exact nofun
      · obtain rfl := Except.ok.inj h
        exact nofun
  · obtain rfl := Except.ok.inj h
    exact nofun

theorem exportReset_not_isBad {property : ExportExpr} {reset : List ExportLine}
    (h : p.exportReset states inputs property = .ok reset) : ∀ line ∈ reset, ¬ IsBad line := by
  unfold exportReset at h
  split at h
  · obtain ⟨resets, hresets, h⟩ := bind_ok.mp h
    obtain ⟨bootstrap, hbootstrap, h⟩ := bind_ok.mp h
    obtain rfl := Except.ok.inj h
    rw [List.forall_mem_append, List.forall_mem_append]
    refine ⟨⟨mapM_forall hresets fun input line hline => ?_, ?_⟩, ?_⟩
    · unfold exportResetInput at hline
      split at hline
      · obtain rfl := Except.ok.inj hline
        exact id
      · cases hline
    · split
      · exact List.forall_mem_singleton.mpr id
      · exact nofun
    · unfold exportBootstraps at hbootstrap
      split at hbootstrap
      · obtain rfl := Except.ok.inj hbootstrap
        exact nofun
      · refine mapM_forall hbootstrap fun a line hline => ?_
        obtain ⟨_, _, hline⟩ := bind_ok.mp hline
        obtain rfl := Except.ok.inj hline
        exact id
  · obtain rfl := Except.ok.inj h
    exact nofun

namespace ExportParts
variable {io : ExportInterface} {parts : p.ExportParts io} {declarations : List ExportLine}
  {note : String}

/-- The one bad line of a model. -/
theorem bad_mem_model (hdeclarations : ∀ line ∈ declarations, Declares line) {e : ExportExpr}
    {symbol : String} (h : .bad e symbol ∈ parts.model declarations note) : e = parts.raised := by
  have hrest : ∀ line ∈ declarations ++ parts.nexts ++ parts.complements ++ parts.equalities ++
      parts.rails ++ [.comment note] ++ lines p.exportLastFrame ++ parts.initial ++
      parts.observation ++ parts.reset, ¬ IsBad line := by
    simp only [List.forall_mem_append]
    refine ⟨⟨⟨⟨⟨⟨⟨⟨⟨?_, ?_⟩, ?_⟩, ?_⟩, ?_⟩, ?_⟩, ?_⟩, ?_⟩, ?_⟩, ?_⟩
    · exact fun line hline => (hdeclarations line hline).not_isBad
    · exact mapM_forall parts.hnexts fun _ _ => exportNext_not_isBad
    · exact mapM_forall parts.hcomplements fun _ _ => exportRelation_not_isBad
    · exact mapM_forall parts.hequalities fun _ _ => exportRelation_not_isBad
    · exact mapM_forall parts.hrails fun _ _ => exportRails_not_isBad
    · exact List.forall_mem_singleton.mpr id
    · exact fun line hline => timeline_not_isBad hline
    · exact exportInitial_not_isBad parts.hinitial
    · unfold observation
      split
      · exact List.forall_mem_singleton.mpr id
      · exact nofun
    · exact exportReset_not_isBad parts.hreset
  rcases List.mem_append.mp h with h | h
  · exact absurd trivial (hrest _ h)
  · cases List.mem_singleton.mp h
    rfl

/-! ### Runs -/

section
variable {r : Btor2Trace Nat ExportState} {τ : Trace} {n : Nat}

theorem declared (parts : p.ExportParts io) : p.Declared parts.states parts.inputs :=
  declared_of_export parts.hstates parts.hinputs

/-- The observation at the start is asserted in frame 0. -/
theorem observation_holds (hcarries : Carries parts.states parts.inputs r τ)
    (hclock : Clock r n p.exportLastFrame) :
    (∀ line ∈ parts.observation, LineHolds n r line) ↔
      (p.baseStartup.initialMode.assertsObservation = true → p.property.eval (τ 0) = true) := by
  rw [← exportInitialObservation_eq]
  unfold observation
  cases hobserve : p.exportInitialObservation with
  | false => exact iff_of_true nofun nofun
  | true =>
    -- the counter is not empty then
    have hreset : p.exportResetFrames = 0 := by
      rw [exportInitialObservation, Bool.and_eq_true, Bool.and_eq_true, beq_iff_eq] at hobserve
      exact hobserve.1.1
    have hlast : p.exportLastFrame ≠ 0 := by
      rw [exportLastFrame, if_neg (not_not_intro hreset), exportFirstBadFrame,
        if_neg (not_not_intro hreset), hobserve]
      decide
    have hflag : ∀ line ∈ (firstFrame p.exportLastFrame).2, LineHolds n r line := by
      rw [firstFrame, if_pos (bitWidth_ne_zero.mpr hlast)]
      exact nofun
    have hvalue := value_writeExpression hcarries parts.hproperty
    rw [if_pos rfl, List.forall_mem_singleton, constrainWhen_holds]
    constructor
    · intro hall _
      rw [← hvalue]
      refine hall 0 (Nat.zero_le _) ?_
      rw [value_firstFrame hclock hflag (Nat.zero_le _)]
      rfl
    · intro hholds t ht hfirst
      rw [value_firstFrame hclock hflag ht, decide_eq_true_eq] at hfirst
      rw [hvalue, hfirst]
      exact hholds rfl

/-- A run of the model is an unrolling of the problem next to a clock. -/
theorem run_iff_unrolling (hdeclarations : ∀ line ∈ declarations, Declares line)
    (hcarries : Carries parts.states parts.inputs r τ) (hfrontier : p.exportResetFrames ≤ n) :
    (parts.model declarations note).Run n r ↔
      Clock r n p.exportLastFrame ∧
      (p.baseStartup.initialMode.assertsInitialFacts = true → p.WritesInitialFormula →
        ∀ line ∈ (firstFrame p.exportLastFrame).2, LineHolds n r line) ∧
      p.Unrolling p.plainFacts n τ := by
  have hnote : ∀ line ∈ [Btor2Line.comment note], LineHolds n r line :=
    List.forall_mem_singleton.mpr trivial
  have hbad : ∀ line ∈ [Btor2Line.bad parts.raised "equivalence_mismatch"], LineHolds n r line :=
    List.forall_mem_singleton.mpr trivial
  have hdeclare : ∀ line ∈ declarations, LineHolds n r line :=
    fun line hline => (hdeclarations line hline).holds
  have hnexts := nexts_hold (n := n) parts.declared hcarries parts.hnexts
  have hrelations := relations_hold (n := n) parts.declared hcarries parts.hcomplements
    parts.hequalities parts.hrails
  rw [run_iff, model]
  simp only [List.forall_mem_append]
  constructor
  · rintro ⟨⟨⟨⟨⟨⟨⟨⟨⟨⟨_, hn⟩, hc⟩, he⟩, hr⟩, _⟩, hl⟩, hi⟩, ho⟩, hs⟩, _⟩
    have hclock := lines_iff.mp hl
    have hpath := hnexts.mp hn
    have hdomain := hrelations.mp ⟨hc, he, hr⟩
    obtain ⟨hflag, hassign, hcondition⟩ :=
      (exportInitial_holds parts.declared hcarries parts.hinitial hclock).mp hi
    obtain ⟨hsequence, hobserve, hboot⟩ :=
      (exportReset_holds parts.declared hcarries parts.hproperty parts.hreset hclock
        hfrontier).mp hs
    have hstart := (observation_holds hcarries hclock).mp ho
    refine ⟨hclock, hflag, hdomain, fun f hf s e htransition => ?_, hsequence, fun X => ?_⟩
    · exact (hpath f hf).transition htransition
    · exact ⟨fun h a ha _ => hassign h a ha, hcondition, hstart, hobserve,
        fun h a ha _ => hboot h a ha⟩
  · rintro ⟨hclock, hflag, hunrolling⟩
    have hstarts := hunrolling.starts
    obtain ⟨hc, he, hr⟩ := hrelations.mpr hunrolling.domain
    refine ⟨⟨⟨⟨⟨⟨⟨⟨⟨⟨hdeclare, hnexts.mpr hunrolling.path⟩, hc⟩, he⟩, hr⟩, hnote⟩,
      lines_iff.mpr hclock⟩, ?_⟩, ?_⟩, ?_⟩, hbad⟩
    · refine (exportInitial_holds parts.declared hcarries parts.hinitial hclock).mpr
        ⟨hflag, fun h a ha => ?_, (hstarts ∅).initialCondition⟩
      exact (hstarts {a.1}).initialAssignments h a ha (Finset.mem_singleton_self _)
    · exact (observation_holds hcarries hclock).mpr (hstarts ∅).startObservation
    · refine (exportReset_holds parts.declared hcarries parts.hproperty parts.hreset hclock
        hfrontier).mpr ⟨hunrolling.reset, (hstarts ∅).frontierObservation, fun h a ha => ?_⟩
      exact (hstarts {a.1}).bootstrapAssignments h a ha (Finset.mem_singleton_self _)

theorem value_raised (hcarries : Carries parts.states parts.inputs r τ)
    (hclock : Clock r n p.exportLastFrame) {t : Nat} (ht : t ≤ n) :
    r.value t parts.raised = true ↔ p.exportFirstBadFrame ≤ t ∧ p.bad.eval (τ t) = true := by
  have hvalue := value_writeExpression hcarries parts.hbad t
  unfold raised
  split
  · have hlast : p.exportFirstBadFrame ≤ p.exportLastFrame := by
      unfold exportLastFrame
      split
      · exact Nat.le_max_left _ _
      · exact Nat.le_refl _
    have hbefore := value_before (hclock t ht) hlast
    show (!r.value t (before p.exportLastFrame p.exportFirstBadFrame) && r.value t parts.bad) =
      true ↔ _
    rw [hbefore, hvalue, Bool.and_eq_true, Bool.not_eq_true', decide_eq_false_iff_not, Nat.not_lt]
  · rename_i hzero
    rw [hvalue, not_not.mp hzero]
    exact (and_iff_right (Nat.zero_le _)).symm

end

end ExportParts

theorem exportResetFrames_le_firstBadFrame : p.exportResetFrames ≤ p.exportFirstBadFrame := by
  unfold exportFirstBadFrame
  split
  · exact Nat.le_add_right _ _
  · rename_i hzero
    rw [not_not.mp hzero]
    exact Nat.zero_le _

/-- The model raises its bad value in frame `t` exactly where a full unrolling has a bad
frame `t` that may be bad. -/
theorem badAt_iff_unrolling {io : ExportInterface} {metadata : SecBtor2Metadata}
    {M : Btor2Model Nat ExportState} (h : p.exportSecBtor2 io metadata = .ok M) (t : Nat) :
    M.BadAt t ↔ p.baseStartup.firstBadFrame ≤ t ∧
      ∃ τ, p.Unrolling p.plainFacts t τ ∧ p.bad.eval (τ t) = true := by
  obtain ⟨parts, declarations, note, hdeclarations, rfl⟩ := parts_of_export h
  rw [← exportFirstBadFrame_eq]
  constructor
  · rintro ⟨r, hrun, e, symbol, hbad, hvalue⟩
    rw [ExportParts.bad_mem_model hdeclarations hbad] at hvalue
    have hcarries : Carries parts.states parts.inputs r
        (modelTrace parts.states parts.inputs r) := carries_modelTrace r
    have hclock : Clock r t p.exportLastFrame := by
      refine lines_iff.mp fun line hline => run_iff.mp hrun line ?_
      simp only [ExportParts.model, List.mem_append]
      simp [hline]
    obtain ⟨hfirst, hbadFrame⟩ :=
      (ExportParts.value_raised hcarries hclock (Nat.le_refl t)).mp hvalue
    have hunrolling := ((ExportParts.run_iff_unrolling hdeclarations hcarries
      (Nat.le_trans exportResetFrames_le_firstBadFrame hfirst)).mp hrun).2.2
    exact ⟨hfirst, _, hunrolling, hbadFrame⟩
  · rintro ⟨hfirst, τ, hunrolling, hbadFrame⟩
    have hcarries : Carries parts.states parts.inputs (p.exportTrace τ) τ := carries_exportTrace τ
    have hclock := clock_exportTrace (p := p) τ t
    refine ⟨p.exportTrace τ, ?_, parts.raised, "equivalence_mismatch", ?_, ?_⟩
    · exact (ExportParts.run_iff_unrolling hdeclarations hcarries
        (Nat.le_trans exportResetFrames_le_firstBadFrame hfirst)).mpr
        ⟨hclock, fun _ _ => flag_exportTrace τ t, hunrolling⟩
    · exact List.mem_append_right _ List.mem_cons_self
    · exact (ExportParts.value_raised hcarries hclock (Nat.le_refl t)).mpr ⟨hfirst, hbadFrame⟩

/-- Counted from the end of the reset prefix, the frames with a bad value are those that
the frontier search asks about. -/
theorem badAt_iff_frontierQuestion {io : ExportInterface} {metadata : SecBtor2Metadata}
    {M : Btor2Model Nat ExportState} (h : p.exportSecBtor2 io metadata = .ok M) (t : Nat) :
    M.BadAt t ↔ ∃ k, p.frontierFrame k = t ∧ p.FrontierQuestion k := by
  rw [badAt_iff_unrolling h]
  constructor
  · rintro ⟨hfirst, hbad⟩
    have hle : p.resetBootstrapFrames ≤ t :=
      Nat.le_trans exportResetFrames_le_firstBadFrame (exportFirstBadFrame_eq ▸ hfirst)
    have hframe : p.frontierFrame (t - p.resetBootstrapFrames) = t := Nat.sub_add_cancel hle
    refine ⟨t - p.resetBootstrapFrames, hframe, ?_⟩
    rw [FrontierQuestion, FrontierBad, hframe]
    exact ⟨hfirst, hbad⟩
  · rintro ⟨k, rfl, hfirst, hbad⟩
    exact ⟨hfirst, hbad⟩

/-- The model and the search with the exact frontier agree on every frame, and the counter
counts. -/
theorem export_agrees {σ : Type} (S : FrameSolver σ) (s : σ) (solverType : SolverType)
    (p : KInductionProblem) (io : ExportInterface) (metadata : SecBtor2Metadata)
    (M : Btor2Model Nat ExportState) (h : p.exportSecBtor2 io metadata = .ok M) (hS : S.Decides)
    (hpres : p.PreservesDomain)
    (hkeeps : ∀ k, p.KeepsStartup p.plainFacts (p.frontierFrame k) (p.frontierFrame k)) :
    (∀ t, M.BadAt t ↔ ∃ k, p.frontierFrame k = t ∧
      (findBaseCounterexampleImpl S solverType k s p (some k) false .secConeProof).1.1 = some k) ∧
    ∀ (lastFrame : Nat) (r : Btor2Trace Nat ExportState) (n : Nat), Run (lines lastFrame) n r →
      ∀ t ≤ n, counter r lastFrame t = min t lastFrame ∧
        (∀ frame < lastFrame, r.value t (atFrame lastFrame frame) = decide (t = frame)) ∧
        ∀ frame ≤ lastFrame, r.value t (before lastFrame frame) = decide (t < frame) := by
  refine ⟨fun t => ?_, timeline_counts⟩
  rw [badAt_iff_frontierQuestion h]
  refine exists_congr fun k => and_congr_right fun _ => ?_
  rcases @query_answers _ _ S solverType _ hS hpres (hkeeps k) s .secConeProof with
    ⟨hfound, hquestion⟩ | ⟨hnone, hno⟩
  · exact iff_of_true hquestion hfound
  · refine iff_of_false hno fun hfound => ?_
    exact absurd (hnone.symm.trans hfound) nofun

theorem accepted_of_isOk {io : ExportInterface} {metadata : SecBtor2Metadata}
    (h : (p.exportSecBtor2 io metadata).isOk = true) :
    ∃ M, p.exportSecBtor2 io metadata = .ok M := by
  cases hexport : p.exportSecBtor2 io metadata with
  | ok M => exact ⟨M, rfl⟩
  | error e =>
    rw [hexport] at h
    cases h

theorem export_agrees_twoLatch :
    ∃ M, twoLatchProblem.exportSecBtor2 {} {} = .ok M ∧
      ∀ t, M.BadAt t ↔ ∃ k, twoLatchProblem.frontierFrame k = t ∧
        (findBaseCounterexampleImpl exhaustiveSolver .cadical k () twoLatchProblem (some k) false
          .secConeProof).1.1 = some k := by
  obtain ⟨M, hM⟩ : ∃ M, twoLatchProblem.exportSecBtor2 {} {} = .ok M :=
    accepted_of_isOk (by decide +kernel)
  exact ⟨M, hM, (export_agrees exhaustiveSolver () .cadical twoLatchProblem {} {} M hM
    exhaustiveSolver_decides (twoLatchProblem_agreement 0).domain
    fun k => (twoLatchProblem_agreement k).keeps _ .self).1⟩

/-- The cone of the search loses the chain to symbol 5, the export does not. -/
theorem export_disagrees :
    ∃ M, chainProblem.exportSecBtor2 {} {} = .ok M ∧ ¬ M.BadAt 1 ∧
      exhaustiveSolver.Decides ∧ chainProblem.frontierFrame 1 = 1 ∧
      (findBaseCounterexampleImpl exhaustiveSolver .cadical 1 () chainProblem (some 1) false
        .secConeProof).1.1 = some 1 := by
  obtain ⟨M, hM⟩ : ∃ M, chainProblem.exportSecBtor2 {} {} = .ok M :=
    accepted_of_isOk (by decide +kernel)
  refine ⟨M, hM, fun hbad => ?_, exhaustiveSolver_decides, rfl, by decide +kernel⟩
  obtain ⟨_, τ, hunrolling, hbadFrame⟩ := (badAt_iff_unrolling hM 1).mp hbad
  rw [chainProblem_safe hunrolling] at hbadFrame
  cases hbadFrame

end KInductionProblem
end KeplerFormal
