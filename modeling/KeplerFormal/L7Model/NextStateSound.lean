import KeplerFormal.L7Model.NextState

/-!
# What the stored next-state expressions are (`src/sec/model/SequentialDesignModel.cpp`)

* `buildNextStateExpr_computes`: with a recognised clock the stored expression is the
  reference cell's next state, gated by the recognised enable unless the clock pins are all
  pure carriers.
* `buildNextStateExpr_unrecognised`: an update whose clock is not recognised is stored all the
  same, gated by what is left of the clock without its carriers.
* `gateHarmless_iff`: when leaving the gate out changes nothing.
-/
namespace KeplerFormal

open Core

/-- The tables of the update, the clock's table apart.
mirrors src/sec/model/SequentialDesignModel.cpp:1585-1609 -/
def PendingTransition.updateTables (pending : PendingTransition) : List BooleanExpression :=
  pending.sequentialState.nextState ::
    (pending.sequentialState.clear.toList ++ pending.sequentialState.preset.toList)

namespace ExtractionState
variable (s : ExtractionState) (pending : PendingTransition)

/-! ## Values of a cell's tables -/

/-- A pin shows its expression. -/
def pinValue (σ : Valuation) (term : Nat) : Bool :=
  match s.termExpr pending term with
  | .ok expr => expr.eval σ
  | .error _ => false

/-- A state is what its primary output shows, up to the polarity of that output. -/
def stateValue (σ : Valuation) (stateIndex : Nat) : Bool :=
  match s.stateExpr pending stateIndex with
  | .ok expr => expr.eval σ
  | .error _ => false

def tableValue (σ : Valuation) (table : BooleanExpression) : Bool :=
  table.value (s.pinValue pending σ) (s.stateValue pending σ)

/-- No carrier is read. -/
def CarrierFree (expr : BoolExpr) : Prop :=
  ∀ id ∈ expr.getSupportVars, 2 ≤ id → id ∉ s.session.topClockCarrierVarIDs

/-- The cell's tables are well formed, their leaves are mapped and built, and the value
under simultaneous clear and preset is known. -/
structure Supported : Prop where
  tables : ∀ table ∈ pending.clockedOn :: pending.updateTables, table.WellFormed
  terms : ∀ table ∈ pending.clockedOn :: pending.updateTables, ∀ node ∈ table.nodes,
    node.operation = .Term → ∃ r, s.termExpr pending node.term = .ok r
  states : ∀ table ∈ pending.clockedOn :: pending.updateTables, ∀ node ∈ table.nodes,
    node.operation = .State → ∃ r, s.stateExpr pending node.state = .ok r
  current : ∃ r, s.stateExpr pending pending.modelStateIndex = .ok r
  clearPreset : pending.sequentialState.clear ≠ none → pending.sequentialState.preset ≠ none →
    pending.sequentialState.clearPresetValue ≠ .Unknown

/-- No carrier occurs outside the clock. -/
structure CarriersOnlyInClock : Prop where
  terms : ∀ table ∈ pending.updateTables, ∀ node ∈ table.nodes, node.operation = .Term →
    ∀ r, s.termExpr pending node.term = .ok r → s.CarrierFree r
  states : ∀ stateIndex r, s.stateExpr pending stateIndex = .ok r → s.CarrierFree r

/-- Every carrier with an event is a carrier, and the table of rewritten nodes is right. -/
structure Valid : Prop where
  session : s.session.Valid
  events : ∀ id, (s.clockEventByCarrierVarID id).isSome → id ∈ s.session.topClockCarrierVarIDs

variable {s pending}

theorem eval_buildSequentialModelExpr {table : BooleanExpression} {r : BoolExpr}
    (h : s.buildSequentialModelExpr pending table = .ok r) (σ : Valuation) :
    r.eval σ = s.tableValue pending σ table := by
  unfold buildSequentialModelExpr BooleanExpression.build at h
  split at h
  · apply BooleanExpression.eval_buildNode (fun t r ht => ?_) (fun i r hi => ?_) h
    · simp [pinValue, ht]
    · simp [stateValue, hi]
  · cases h

theorem buildSequentialModelExpr_ok (hsupported : s.Supported pending)
    {table : BooleanExpression} (htable : table ∈ pending.clockedOn :: pending.updateTables) :
    ∃ r, s.buildSequentialModelExpr pending table = .ok r :=
  BooleanExpression.buildNode_ok (hsupported.tables table htable)
    (hsupported.terms table htable) (hsupported.states table htable)

theorem carrierFree_build (hcarriers : s.CarriersOnlyInClock pending) {table : BooleanExpression}
    (htable : table ∈ pending.updateTables) {r : BoolExpr}
    (h : s.buildSequentialModelExpr pending table = .ok r) : s.CarrierFree r := by
  intro id hid h2
  unfold buildSequentialModelExpr BooleanExpression.build at h
  split at h
  · exact BooleanExpression.mem_support_buildNode
      (P := fun id => id ∉ s.session.topClockCarrierVarIDs)
      (fun node hnode hop r hr id hid h2 => hcarriers.terms table htable node hnode hop r hr id hid h2)
      (fun node _ _ r hr id hid h2 => hcarriers.states node.state r hr id hid h2) h hid h2
  · cases h

/-! ## The parts of the update -/

section CarrierFree
variable {a b c : BoolExpr}

theorem CarrierFree.constant (value : Bool) :
    s.CarrierFree (if value then .createTrue else .createFalse) := by
  intro id hid h2
  cases value <;> simp [BoolExpr.createTrue, BoolExpr.createFalse, BoolExpr.getSupportVars] at hid <;>
    omega

theorem CarrierFree.Not (ha : s.CarrierFree a) : s.CarrierFree (.Not a) :=
  fun id hid h2 => ha id (BoolExpr.mem_support_Not hid h2) h2

theorem CarrierFree.makeIteExpr (ha : s.CarrierFree a) (hb : s.CarrierFree b)
    (hc : s.CarrierFree c) : s.CarrierFree (ExtractionState.makeIteExpr a b c) := by
  intro id hid h2
  rcases BoolExpr.mem_support_Or hid h2 with h | h
  · exact (BoolExpr.mem_support_And h h2).elim (fun h => ha id h h2) fun h => hb id h h2
  · exact (BoolExpr.mem_support_And h h2).elim (fun h => ha.Not id h h2) fun h => hc id h h2

end CarrierFree

@[simp] theorem eval_makeIteExpr (σ : Valuation) (condition whenTrue whenFalse : BoolExpr) :
    (makeIteExpr condition whenTrue whenFalse).eval σ =
      if condition.eval σ then whenTrue.eval σ else whenFalse.eval σ := by
  cases h : condition.eval σ <;> simp [makeIteExpr, h]

@[simp] theorem eval_gated (σ : Valuation) (enable : Option BoolExpr) (next current : BoolExpr) :
    (gated enable next current).eval σ =
      if (enable.getD .createTrue).eval σ then next.eval σ else current.eval σ := by
  cases enable with
  | none => simp [gated]
  | some clockEnable => simp [gated]

theorem CarrierFree.gated {enable : Option BoolExpr} {next current : BoolExpr}
    (henable : s.CarrierFree (enable.getD .createTrue)) (hnext : s.CarrierFree next)
    (hcurrent : s.CarrierFree current) :
    s.CarrierFree (ExtractionState.gated enable next current) := by
  cases enable with
  | none => exact hnext
  | some clockEnable => exact henable.makeIteExpr hnext hcurrent

theorem eval_simultaneous {σ : Valuation} {current both : BoolExpr} {value : ClearPresetValue}
    (h : simultaneous current value = .ok both) : both.eval σ = value.apply (current.eval σ) := by
  cases value <;> cases h <;> simp [ClearPresetValue.apply]

theorem CarrierFree.simultaneous {current both : BoolExpr} {value : ClearPresetValue}
    (hcurrent : s.CarrierFree current) (h : simultaneous current value = .ok both) :
    s.CarrierFree both := by
  cases value <;> cases h
  · exact .constant false
  · exact .constant true
  · exact hcurrent
  · exact hcurrent.Not

theorem eval_buildOptional {table : Option BooleanExpression} {r : Option BoolExpr}
    (h : s.buildOptional pending table = .ok r) (σ : Valuation) :
    r.map (BoolExpr.eval σ) = table.map (s.tableValue pending σ) := by
  cases table with
  | none =>
    cases h
    rfl
  | some table =>
    simp only [buildOptional] at h
    cases hbuild : s.buildSequentialModelExpr pending table with
    | error message =>
      rw [hbuild] at h
      cases h
    | ok expr =>
      rw [hbuild] at h
      cases h
      simp [eval_buildSequentialModelExpr hbuild]

theorem buildOptional_ok (hsupported : s.Supported pending) {table : Option BooleanExpression}
    (htable : ∀ t ∈ table, t ∈ pending.updateTables) :
    ∃ r, s.buildOptional pending table = .ok r ∧ (r = none ↔ table = none) ∧
      (s.CarriersOnlyInClock pending → ∀ expr ∈ r, s.CarrierFree expr) := by
  cases table with
  | none => exact ⟨none, rfl, by simp, by simp⟩
  | some table =>
    have hmem := htable table rfl
    obtain ⟨r, hr⟩ := buildSequentialModelExpr_ok hsupported (List.mem_cons_of_mem _ hmem)
    refine ⟨some r, by simp [buildOptional, hr, Except.map], by simp, fun hcarriers expr hexpr => ?_⟩
    cases hexpr
    exact carrierFree_build hcarriers hmem hr

/-- Clear and preset around an update, as values. -/
theorem eval_withClearPreset {state : SequentialState} {value : BooleanExpression → Bool}
    {σ : Valuation} {clear preset : Option BoolExpr} {next current r : BoolExpr}
    (hclear : clear.map (BoolExpr.eval σ) = state.clear.map value)
    (hpreset : preset.map (BoolExpr.eval σ) = state.preset.map value)
    (h : withClearPreset state.clearPresetValue clear preset next current = .ok r) :
    r.eval σ =
      if state.cleared value then
        if state.preseted value then state.clearPresetValue.apply (current.eval σ) else false
      else if state.preseted value then true
      else next.eval σ := by
  unfold SequentialState.cleared SequentialState.preseted
  rw [← hclear, ← hpreset]
  unfold withClearPreset at h
  split at h
  · split at h
    · cases h
    · rename_i hboth
      cases h
      simp [eval_simultaneous hboth]
  · cases h
    simp
  · cases h
    simp
  · cases h
    simp

theorem withClearPreset_ok (next current : BoolExpr) {value : ClearPresetValue}
    {clear preset : Option BoolExpr} (hknown : clear ≠ none → preset ≠ none → value ≠ .Unknown) :
    ∃ r, withClearPreset value clear preset next current = .ok r ∧
      ((∀ expr ∈ clear, s.CarrierFree expr) → (∀ expr ∈ preset, s.CarrierFree expr) →
        s.CarrierFree next → s.CarrierFree current → s.CarrierFree r) := by
  cases clear with
  | none =>
    cases preset with
    | none => exact ⟨next, rfl, fun _ _ hnext _ => hnext⟩
    | some preset =>
      exact ⟨_, rfl, fun _ hpreset hnext _ => (hpreset _ rfl).makeIteExpr (.constant true) hnext⟩
  | some clear =>
    cases preset with
    | none =>
      exact ⟨_, rfl, fun hclear _ hnext _ => (hclear _ rfl).makeIteExpr (.constant false) hnext⟩
    | some preset =>
      have hvalue := hknown (by simp) (by simp)
      obtain ⟨both, hboth⟩ : ∃ both, simultaneous current value = .ok both := by
        cases value with
        | Unknown => exact absurd rfl hvalue
        | _ => exact ⟨_, rfl⟩
      refine ⟨makeIteExpr clear (makeIteExpr preset both .createFalse)
        (makeIteExpr preset .createTrue next), by simp only [withClearPreset, hboth],
        fun hclear hpreset hnext hcurrent => ?_⟩
      apply (hclear _ rfl).makeIteExpr
      · exact (hpreset _ rfl).makeIteExpr (hcurrent.simultaneous hboth) (.constant false)
      · exact (hpreset _ rfl).makeIteExpr (.constant true) hnext

/-! ## The gate -/

/-- The event that the classification gives the clock, with an enable over data. -/
structure ClockRecognised (s : ExtractionState) (pending : PendingTransition)
    (clockExpr : BoolExpr) (event : ClockEvent) : Prop where
  built : s.buildSequentialModelExpr pending pending.clockedOn = .ok clockExpr
  classified : classifyClockEventExpression clockExpr s.clockEventByCarrierVarID = some event
  enable : s.CarrierFree (clockEventEnableOrTrue event)

/-- The clock terminals are those of the clock's table. -/
def ClockTermsListed (pending : PendingTransition) : Prop :=
  ∀ node ∈ pending.clockedOn.nodes, node.operation = .Term →
    pending.modelTermIDs node.term ≠ none → pending.clockTermIDs ≠ []

theorem modelTermIDs_of_termExpr {term : Nat} {r : BoolExpr}
    (h : s.termExpr pending term = .ok r) : pending.modelTermIDs term ≠ none := by
  intro hnone
  simp [termExpr, hnone] at h

/-- A recognised clock reads a carrier, which only a terminal can. -/
theorem ClockRecognised.clockTermIDs_ne_nil {clockExpr : BoolExpr} {event : ClockEvent}
    (h : s.ClockRecognised pending clockExpr event) (hvalid : s.Valid)
    (hsupported : s.Supported pending) (hcarriers : s.CarriersOnlyInClock pending)
    (hlisted : ClockTermsListed pending) :
    pending.clockTermIDs ≠ [] ∧ s.session.topClockCarrierVarIDs ≠ ∅ := by
  obtain ⟨c, carrier, hrec⟩ := classify_recognises h.classified
  have hcarrier : c ∈ s.session.topClockCarrierVarIDs :=
    hvalid.events c (by simp [hrec.recorded])
  have hread : c ∈ clockExpr.getSupportVars := by
    have hmem : c ∈ eventCarriers clockExpr s.clockEventByCarrierVarID := by simp [hrec.carriers]
    exact (Finset.mem_filter.mp hmem).1
  refine ⟨fun hnil => ?_, fun hempty => by simp [hempty] at hcarrier⟩
  have hnone : ∀ node ∈ pending.clockedOn.nodes, node.operation ≠ .Term := by
    intro node hnode hop
    obtain ⟨r, hr⟩ := hsupported.terms _ List.mem_cons_self node hnode hop
    exact hlisted node hnode hop (modelTermIDs_of_termExpr hr) hnil
  have hbuilt := h.built
  unfold buildSequentialModelExpr BooleanExpression.build at hbuilt
  split at hbuilt
  · refine BooleanExpression.mem_support_buildNode
      (P := fun id => id ∉ s.session.topClockCarrierVarIDs)
      (fun node hnode hop => absurd hop (hnone node hnode))
      (fun node _ _ r hr id hid h2 => hcarriers.states node.state r hr id hid h2) hbuilt hread
      (hvalid.session.nonconstant c hcarrier) hcarrier
  · cases hbuilt

/-- With a recognised clock the gate is its enable, or true where the clock pins are all
pure carriers. -/
theorem getLocalClockEnableExpr_recognised {clockExpr : BoolExpr} {event : ClockEvent}
    (h : s.ClockRecognised pending clockExpr event) (hvalid : s.Valid)
    (hsupported : s.Supported pending) (hcarriers : s.CarriersOnlyInClock pending)
    (hlisted : ClockTermsListed pending) :
    ∃ enable, s.getLocalClockEnableExpr pending = .ok (enable, s.session) ∧
      s.CarrierFree (enable.getD .createTrue) ∧
      ∀ σ, (enable.getD .createTrue).eval σ =
        (s.pendingClockTermsArePureCarriers pending || (clockEventEnableOrTrue event).eval σ) := by
  obtain ⟨hterms, hsome⟩ := h.clockTermIDs_ne_nil hvalid hsupported hcarriers hlisted
  cases hpure : s.pendingClockTermsArePureCarriers pending with
  | true =>
    refine ⟨none, ?_, .constant true, fun σ => by simp⟩
    rw [getLocalClockEnableExpr, if_neg hterms, if_pos hpure]
  | false =>
    have hrun : s.getLocalClockEnableExpr pending =
        .ok (if clockEventIsUngated event then none else event.enable, s.session) := by
      rw [getLocalClockEnableExpr, if_neg hterms, if_neg (by simp [hpure]), if_neg hsome]
      refine bind_ok.mpr ⟨clockExpr, h.built, ?_⟩
      simp only [h.classified]
      rfl
    refine ⟨_, hrun, ?_⟩
    by_cases hungated : clockEventIsUngated event = true
    · rw [if_pos hungated]
      refine ⟨.constant true, fun σ => ?_⟩
      rcases of_decide_eq_true hungated with hnone | htrue
      · simp [clockEventEnableOrTrue, hnone]
      · simp [clockEventEnableOrTrue, htrue]
    · rw [if_neg hungated]
      exact ⟨h.enable, fun σ => rfl⟩

/-- With a clock that is not recognised, the gate is what the clock expression shows when its
carriers read true. -/
theorem getLocalClockEnableExpr_unrecognised {clockExpr : BoolExpr} (hvalid : s.Valid)
    (hterms : pending.clockTermIDs ≠ []) (hsome : s.session.topClockCarrierVarIDs ≠ ∅)
    (hpure : s.pendingClockTermsArePureCarriers pending = false)
    (hbuilt : s.buildSequentialModelExpr pending pending.clockedOn = .ok clockExpr)
    (hnone : classifyClockEventExpression clockExpr s.clockEventByCarrierVarID = none) :
    ∃ enable session, s.getLocalClockEnableExpr pending = .ok (enable, session) ∧
      session.Valid ∧ session.topClockCarrierVarIDs = s.session.topClockCarrierVarIDs ∧
      s.CarrierFree (enable.getD .createTrue) ∧
      ∀ σ, (enable.getD .createTrue).eval σ =
        readsTrue s.session.topClockCarrierVarIDs σ clockExpr := by
  obtain ⟨hstripped, hmemo⟩ := stripClockCarrierFromClockEnable_computes clockExpr
    hvalid.session.memo
  let enable := BoolExpr.simplifyWhenChanged clockExpr (s.session.stripEnable clockExpr).1
  have hvalue : ∀ σ, enable.eval σ = readsTrue s.session.topClockCarrierVarIDs σ clockExpr := by
    intro σ
    rw [BoolExpr.eval_simplifyWhenChanged, CarrierSession.stripEnable, hstripped,
      eval_strippedCarriers]
  have hfree : s.CarrierFree enable := by
    intro id hid h2
    have hid' := BoolExpr.mem_support_simplifyWhenChanged hid h2
    rw [CarrierSession.stripEnable, hstripped] at hid'
    exact (mem_support_strippedCarriers hid' h2).2
  refine ⟨if enable = .createTrue then none else some enable, (s.session.stripEnable clockExpr).2,
    ?_, ⟨hvalid.session.nonconstant, hmemo⟩, rfl, ?_⟩
  · rw [getLocalClockEnableExpr, if_neg hterms, if_neg (by simp [hpure]), if_neg hsome]
    refine bind_ok.mpr ⟨clockExpr, hbuilt, ?_⟩
    simp only [hnone]
    rfl
  · by_cases htrue : enable = .createTrue
    · rw [if_pos htrue]
      refine ⟨.constant true, fun σ => ?_⟩
      rw [← hvalue, htrue]
      rfl
    · rw [if_neg htrue]
      exact ⟨hfree, hvalue⟩

theorem getLocalClockEnableExpr_ok (hsupported : s.Supported pending) :
    ∃ r, s.getLocalClockEnableExpr pending = .ok r := by
  unfold getLocalClockEnableExpr
  split
  · exact ⟨_, rfl⟩
  · split
    · exact ⟨_, rfl⟩
    · split
      · exact ⟨_, rfl⟩
      · obtain ⟨clockExpr, hclock⟩ := buildSequentialModelExpr_ok hsupported List.mem_cons_self
        refine Exists.imp (fun r hr => bind_ok.mpr ⟨clockExpr, hclock, hr⟩) ?_
        cases classifyClockEventExpression clockExpr s.clockEventByCarrierVarID with
        | none => exact ⟨_, rfl⟩
        | some event => exact ⟨_, rfl⟩

/-! ## The stored expression -/

/-- The construction returns, and before the carriers are removed the update is the state's
next value under the gate. -/
theorem buildNextStateExpr_ok (hsupported : s.Supported pending)
    {enable : Option BoolExpr} {session : CarrierSession}
    (henable : s.getLocalClockEnableExpr pending = .ok (enable, session)) :
    ∃ update, s.buildNextStateExpr pending = .ok (session.stripUpdate update) ∧
      (∀ σ, update.eval σ =
        (pending.sequentialState.next (s.tableValue pending σ)
          ((enable.getD .createTrue).eval σ) (s.stateValue pending σ pending.modelStateIndex) ^^
            pending.stateOutputIsComplemented)) ∧
      (s.CarriersOnlyInClock pending → s.CarrierFree (enable.getD .createTrue) →
        s.CarrierFree update) := by
  obtain ⟨current, hcurrent⟩ := hsupported.current
  have hnextTable : pending.sequentialState.nextState ∈ pending.updateTables := List.mem_cons_self
  have hclearTable : ∀ t ∈ pending.sequentialState.clear, t ∈ pending.updateTables := by
    intro t ht
    exact List.mem_cons_of_mem _ (List.mem_append_left _ (Option.mem_toList.mpr ht))
  have hpresetTable : ∀ t ∈ pending.sequentialState.preset, t ∈ pending.updateTables := by
    intro t ht
    exact List.mem_cons_of_mem _ (List.mem_append_right _ (Option.mem_toList.mpr ht))
  obtain ⟨next, hnext⟩ :=
    buildSequentialModelExpr_ok hsupported (List.mem_cons_of_mem _ hnextTable)
  obtain ⟨clear, hclear, hclearNone, hclearFree⟩ := buildOptional_ok hsupported hclearTable
  obtain ⟨preset, hpreset, hpresetNone, hpresetFree⟩ := buildOptional_ok hsupported hpresetTable
  have hknown : clear ≠ none → preset ≠ none →
      pending.sequentialState.clearPresetValue ≠ .Unknown := fun hc hp =>
    hsupported.clearPreset (fun h => hc (hclearNone.mpr h)) fun h => hp (hpresetNone.mpr h)
  obtain ⟨r, hr, hrFree⟩ := withClearPreset_ok (s := s) (gated enable next current) current hknown
  refine ⟨if pending.stateOutputIsComplemented then .Not r else r, ?_, fun σ => ?_,
    fun hcarriers hfree => ?_⟩
  · exact bind_ok.mpr ⟨current, hcurrent, bind_ok.mpr ⟨next, hnext, bind_ok.mpr
      ⟨(enable, session), henable, bind_ok.mpr ⟨clear, hclear, bind_ok.mpr ⟨preset, hpreset,
        bind_ok.mpr ⟨r, hr, rfl⟩⟩⟩⟩⟩⟩
  · have hvalue : r.eval σ = pending.sequentialState.next (s.tableValue pending σ)
        ((enable.getD .createTrue).eval σ) (s.stateValue pending σ pending.modelStateIndex) := by
      have hstate : current.eval σ = s.stateValue pending σ pending.modelStateIndex := by
        simp [stateValue, hcurrent]
      rw [eval_withClearPreset (eval_buildOptional hclear σ) (eval_buildOptional hpreset σ) hr,
        eval_gated, eval_buildSequentialModelExpr hnext, hstate]
      rfl
    rw [← hvalue]
    cases pending.stateOutputIsComplemented <;> simp
  · have hcurrentFree := hcarriers.states _ _ hcurrent
    have hrfree := hrFree (hclearFree hcarriers) (hpresetFree hcarriers)
      (hfree.gated (carrierFree_build hcarriers hnextTable hnext) hcurrentFree) hcurrentFree
    split
    · exact hrfree.Not
    · exact hrfree

/-- An update without carriers is stored as it is. -/
theorem CarrierFree.eval_stripUpdate {update : BoolExpr} (h : s.CarrierFree update)
    {session : CarrierSession} (hvalid : session.Valid)
    (hsame : session.topClockCarrierVarIDs = s.session.topClockCarrierVarIDs) (σ : Valuation) :
    (session.stripUpdate update).1.eval σ = update.eval σ := by
  rw [hvalid.eval_stripUpdate, readsTrue_eq_self]
  intro id hid hcarrier
  rw [hsame] at hcarrier
  exact h id hid (hvalid.nonconstant id (hsame ▸ hcarrier)) hcarrier

/-- The reference cell's next state under a gate. -/
def referenceNext (s : ExtractionState) (pending : PendingTransition) (enable : Bool)
    (σ : Valuation) : Bool :=
  pending.sequentialState.next (s.tableValue pending σ) enable
    (s.stateValue pending σ pending.modelStateIndex)

theorem buildNextStateExpr_computes {clockExpr : BoolExpr} {event : ClockEvent}
    (h : s.ClockRecognised pending clockExpr event) (hvalid : s.Valid)
    (hsupported : s.Supported pending) (hcarriers : s.CarriersOnlyInClock pending)
    (hlisted : ClockTermsListed pending) :
    ∃ expr session, s.buildNextStateExpr pending = .ok (expr, session) ∧
      ∀ σ, expr.eval σ = (s.referenceNext pending
        (s.pendingClockTermsArePureCarriers pending || (clockEventEnableOrTrue event).eval σ) σ ^^
          pending.stateOutputIsComplemented) := by
  obtain ⟨enable, henable, hfree, hgate⟩ :=
    getLocalClockEnableExpr_recognised h hvalid hsupported hcarriers hlisted
  obtain ⟨update, hrun, hvalue, hupdate⟩ := buildNextStateExpr_ok hsupported henable
  refine ⟨_, _, hrun, fun σ => ?_⟩
  have hstrip := (hupdate hcarriers hfree).eval_stripUpdate hvalid.session rfl σ
  refine hstrip.trans ?_
  rw [hvalue, hgate]
  rfl

/-- An update whose clock is not recognised is stored all the same. -/
theorem buildNextStateExpr_unrecognised {clockExpr : BoolExpr} (hvalid : s.Valid)
    (hsupported : s.Supported pending) (hcarriers : s.CarriersOnlyInClock pending)
    (hterms : pending.clockTermIDs ≠ []) (hsome : s.session.topClockCarrierVarIDs ≠ ∅)
    (hpure : s.pendingClockTermsArePureCarriers pending = false)
    (hbuilt : s.buildSequentialModelExpr pending pending.clockedOn = .ok clockExpr)
    (hnone : classifyClockEventExpression clockExpr s.clockEventByCarrierVarID = none) :
    ∃ expr session, s.buildNextStateExpr pending = .ok (expr, session) ∧
      ∀ σ, expr.eval σ = (s.referenceNext pending
        (readsTrue s.session.topClockCarrierVarIDs σ clockExpr) σ ^^
          pending.stateOutputIsComplemented) := by
  obtain ⟨enable, session, henable, hsession, hsame, hfree, hgate⟩ :=
    getLocalClockEnableExpr_unrecognised hvalid hterms hsome hpure hbuilt hnone
  obtain ⟨update, hrun, hvalue, hupdate⟩ := buildNextStateExpr_ok hsupported henable
  refine ⟨_, _, hrun, fun σ => ?_⟩
  have hstrip := (hupdate hcarriers hfree).eval_stripUpdate hsession hsame σ
  refine hstrip.trans ?_
  rw [hvalue, hgate]
  rfl

/-- The gate of the clock matters for no value of the pins and states. -/
def GateHarmless (s : ExtractionState) (pending : PendingTransition) (event : ClockEvent) : Prop :=
  s.pendingClockTermsArePureCarriers pending = true → ∀ σ,
    pending.sequentialState.cleared (s.tableValue pending σ) = false →
    pending.sequentialState.preseted (s.tableValue pending σ) = false →
    (clockEventEnableOrTrue event).eval σ = false →
    s.tableValue pending σ pending.sequentialState.nextState =
      s.stateValue pending σ pending.modelStateIndex

theorem gateHarmless_iff (event : ClockEvent) : s.GateHarmless pending event ↔
    ∀ σ, s.referenceNext pending
        (s.pendingClockTermsArePureCarriers pending || (clockEventEnableOrTrue event).eval σ) σ =
      s.referenceNext pending ((clockEventEnableOrTrue event).eval σ) σ := by
  unfold GateHarmless
  cases hpure : s.pendingClockTermsArePureCarriers pending with
  | false => simp
  | true =>
    simp only [Bool.true_or, forall_const, referenceNext]
    exact forall_congr' fun σ => (SequentialState.next_enable_iff _ _ _ _).symm

end ExtractionState
end KeplerFormal
