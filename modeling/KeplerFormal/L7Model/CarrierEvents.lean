import KeplerFormal.Core.Runs
import KeplerFormal.L7Model.ClockEvents

/-!
# Recorded clock carriers (`src/sec/model/SequentialDesignModel.cpp`)

Extraction records an event for each variable that carries a clock. A top clock is a carrier
of its own domain; a materialized term becomes one when its expression is an ungated event of
a carrier that was recorded before. A gated clock is never recorded: it stays part of the
expression that is classified.

* `carrierTables`: the table under any order of these two operations.
* `Follows`: every recorded carrier is ungated and moves with its root clock; `follows_inductive`.
* `GatedClock`: a carrier behind any number of gates and inverters.
* `classifyClockEvent_exact`: with a recorded table, the event of an expression is its rising
  edge, and the enable of nested gates is the conjunction of the enables of all levels.
-/
namespace KeplerFormal

open Core

structure CarrierTable where
  events : CarrierEvents
  /-- ghost: the variables of the top clocks -/
  tops : List (Nat × SignalKey) := []
  /-- ghost: the terms that became carriers -/
  terms : List (Nat × BoolExpr) := []

/-- The table with one more event. -/
def CarrierEvents.record (events : CarrierEvents) (varID : Nat) (event : ClockEvent) :
    CarrierEvents := Function.update events varID (some event)

theorem CarrierEvents.record_eq_some {events : CarrierEvents} {varID c : Nat}
    {event other : ClockEvent} (h : CarrierEvents.record events varID event c = some other) :
    (c = varID ∧ other = event) ∨ events c = some other := by
  unfold CarrierEvents.record at h
  by_cases hsame : c = varID
  · rw [hsame, Function.update_self] at h
    exact .inl ⟨hsame, (Option.some.inj h).symm⟩
  · rw [Function.update_of_ne hsame] at h
    exact .inr h

namespace CarrierTable

def empty : CarrierTable := { events := fun _ => none }

/-- One top clock; `emplace` keeps an older event.
mirrors src/sec/model/SequentialDesignModel.cpp:1984-1988 -/
def seedTopClockCarrierEvent (t : CarrierTable) (key : SignalKey) (varID : Nat) : CarrierTable :=
  if (t.events varID).isSome then t
  else
    { t with
      events := CarrierEvents.record t.events varID ⟨key, .Pos, none⟩
      tops := (varID, key) :: t.tops }

/-- One materialized term.
mirrors src/sec/model/SequentialDesignModel.cpp:2099-2127 -/
def expandFromMaterializedTerm (t : CarrierTable) (varID : Nat) (expr : BoolExpr) :
    CarrierTable :=
  if varID < 2 ∨ (t.events varID).isSome then t
  else
    match classifyClockEventExpression expr t.events with
    | none => t
    | some event =>
      -- gated clocks remain local enable logic, not carriers
      if !clockEventIsUngated event then t
      else
        { t with
          events := CarrierEvents.record t.events varID event
          terms := (varID, expr) :: t.terms }

end CarrierTable

inductive CarrierUpdate where
  | top (key : SignalKey) (varID : Nat)
  | materialized (varID : Nat) (expr : BoolExpr)

def CarrierTable.update (t : CarrierTable) : CarrierUpdate → CarrierTable
  | .top key varID => t.seedTopClockCarrierEvent key varID
  | .materialized varID expr => t.expandFromMaterializedTerm varID expr

/-- Carriers are refreshed again whenever the extracted model has grown.
mirrors src/sec/model/SequentialDesignModel.cpp:3961-3990 -/
def carrierTables : LTS CarrierTable CarrierUpdate where
  init t := t = CarrierTable.empty
  step t l t' := t' = t.update l

/-! ## Carriers move with their root clock -/

namespace CarrierTable

/-- `V level` are the values of all variables while the top clock of `domain` is at `level`:
a term that became a carrier has the value of its expression. -/
structure Carries (t : CarrierTable) (domain : SignalKey) (V : Bool → Valuation) : Prop where
  top : ∀ c ∈ t.tops, c.2 = domain → ∀ level, V level c.1 = level
  term : ∀ c ∈ t.terms, ∀ level, V level c.1 = c.2.eval (V level)

/-- In a macro-cycle of `domain`, no other variable moves. -/
structure Wave (t : CarrierTable) (domain : SignalKey) (V : Bool → Valuation) : Prop
    extends Carries t domain V where
  data : ∀ v, t.events v = none → V true v = V false v

structure Follows (t : CarrierTable) : Prop where
  ungated : ∀ c event, t.events c = some event → clockEventIsUngated event = true
  level : ∀ c event, t.events c = some event → ∀ V, t.Carries event.domain V →
    ∀ level, V level c = carrierLevel event.phase level

end CarrierTable

theorem clockLevel_self {c : Nat} {phase : ClockPhase} {σ : Valuation} {level : Bool}
    (h : σ c = carrierLevel phase level) (expr : BoolExpr) :
    clockLevel expr c phase σ level = expr.eval σ := by
  apply BoolExpr.eval_congr
  intro s _ _
  by_cases hs : s = c
  · rw [override_of_mem (by simp [hs]), hs, h]
  · exact override_of_not_mem (by simp [hs])

/-- An expression that rises at one edge in every case is the clock of that phase. -/
theorem clockLevel_of_activeEdge {expr : BoolExpr} {c : Nat} {phase p : ClockPhase}
    {σ : Valuation} (h : activeEdge expr c phase σ p = true) (level : Bool) :
    clockLevel expr c phase σ level = carrierLevel p level := by
  cases p <;> cases level <;> simp_all [activeEdge, carrierLevel]

theorem eval_enable_of_ungated {event : ClockEvent} (h : clockEventIsUngated event = true)
    (σ : Valuation) : (clockEventEnableOrTrue event).eval σ = true := by
  simp only [clockEventIsUngated, decide_eq_true_eq] at h
  rcases h with h | h
  · simp [clockEventEnableOrTrue, h]
  · simp [clockEventEnableOrTrue, h]

namespace CarrierTable

theorem Follows.seed {t : CarrierTable} (h : t.Follows) (key : SignalKey) (varID : Nat) :
    (t.seedTopClockCarrierEvent key varID).Follows := by
  unfold seedTopClockCarrierEvent
  split
  · exact h
  · refine ⟨fun c event hc => ?_, fun c event hc V hV level => ?_⟩
    · obtain ⟨_, rfl⟩ | hc := CarrierEvents.record_eq_some hc
      · rfl
      · exact h.ungated c event hc
    · obtain ⟨rfl, rfl⟩ | hc := CarrierEvents.record_eq_some hc
      · exact hV.top (c, key) (List.mem_cons_self ..) rfl level
      · exact h.level c event hc V
          ⟨fun d hd => hV.top d (List.mem_cons_of_mem _ hd), hV.term⟩ level

/-- A term that is an ungated event of a carrier moves with the same root clock. -/
theorem Follows.level_of_classify {t : CarrierTable} (h : t.Follows) {expr : BoolExpr}
    {event : ClockEvent} (hclassify : classifyClockEventExpression expr t.events = some event)
    (hungated : clockEventIsUngated event = true) {V : Bool → Valuation}
    (hV : t.Carries event.domain V) (level : Bool) :
    expr.eval (V level) = carrierLevel event.phase level := by
  obtain ⟨c, carrier, hrec⟩ := classify_recognises hclassify
  rw [hrec.domain] at hV
  have hcarrier := h.level c carrier hrec.recorded V hV level
  have hedge : activeEdge expr c carrier.phase (V level) event.phase = true := by
    rw [← hrec.enable, eval_enable_of_ungated hungated]
  rw [← clockLevel_self hcarrier, clockLevel_of_activeEdge hedge]

theorem Follows.expand {t : CarrierTable} (h : t.Follows) (varID : Nat) (expr : BoolExpr) :
    (t.expandFromMaterializedTerm varID expr).Follows := by
  unfold expandFromMaterializedTerm
  split
  · exact h
  · split
    · exact h
    · rename_i event hclassify
      split
      · exact h
      · rename_i hgate
        have hungated : clockEventIsUngated event = true := by simpa using hgate
        have hold : ∀ domain V, Carries { t with
            events := CarrierEvents.record t.events varID event
            terms := (varID, expr) :: t.terms } domain V → t.Carries domain V :=
          fun domain V hV => ⟨hV.top, fun c hc => hV.term c (List.mem_cons_of_mem _ hc)⟩
        refine ⟨fun c other hc => ?_, fun c other hc V hV level => ?_⟩
        · obtain ⟨_, rfl⟩ | hc := CarrierEvents.record_eq_some hc
          · exact hungated
          · exact h.ungated c other hc
        · obtain ⟨rfl, rfl⟩ | hc := CarrierEvents.record_eq_some hc
          · rw [hV.term (c, expr) (List.mem_cons_self ..) level]
            exact h.level_of_classify hclassify hungated (hold _ V hV) level
          · exact h.level c other hc V (hold _ V hV) level

end CarrierTable

theorem follows_inductive : carrierTables.Inductive CarrierTable.Follows where
  init t ht := by
    obtain rfl : t = CarrierTable.empty := ht
    refine ⟨fun c event hc => ?_, fun c event hc => ?_⟩
    · cases hc
    · cases hc
  step t l t' h hstep := by
    obtain rfl : t' = t.update l := hstep
    cases l with
    | top key varID => exact h.seed key varID
    | materialized varID expr => exact h.expand varID expr

/-! ## Edges of an expression -/

/-- The expression rises when the root clock rises, or when it falls. -/
def rises (expr : BoolExpr) (V : Bool → Valuation) : ClockPhase → Bool
  | .Pos => !expr.eval (V false) && expr.eval (V true)
  | .Neg => !expr.eval (V true) && expr.eval (V false)

namespace CarrierTable

/-- Only the carrier of the expression moves. -/
theorem Wave.clockLevel {t : CarrierTable} {domain : SignalKey} {V : Bool → Valuation}
    (hV : t.Wave domain V) {expr : BoolExpr} {c : Nat} {phase : ClockPhase}
    (hcarriers : eventCarriers expr t.events = {c})
    (hlevel : ∀ level, V level c = carrierLevel phase level) (level other : Bool) :
    clockLevel expr c phase (V other) level = expr.eval (V level) := by
  rw [← clockLevel_self (hlevel level)]
  apply BoolExpr.eval_congr
  intro s hs _
  by_cases hc : s = c
  · rw [override_of_mem (by simp [hc]), override_of_mem (by simp [hc])]
  · rw [override_of_not_mem (by simp [hc]), override_of_not_mem (by simp [hc])]
    have hnone : t.events s = none := by
      by_contra hsome
      have hmem : s ∈ eventCarriers expr t.events :=
        Finset.mem_filter.mpr ⟨hs, Option.isSome_iff_ne_none.mpr hsome⟩
      rw [hcarriers, Finset.mem_singleton] at hmem
      exact hc hmem
    have hdata := hV.data s hnone
    cases level <;> cases other <;> simp [hdata]

theorem Wave.rises {t : CarrierTable} {domain : SignalKey} {V : Bool → Valuation}
    (hV : t.Wave domain V) {expr : BoolExpr} {c : Nat} {phase : ClockPhase}
    (hcarriers : eventCarriers expr t.events = {c})
    (hlevel : ∀ level, V level c = carrierLevel phase level) (other : Bool) (p : ClockPhase) :
    rises expr V p = activeEdge expr c phase (V other) p := by
  cases p <;> simp [KeplerFormal.rises, activeEdge, hV.clockLevel hcarriers hlevel]

end CarrierTable

/-! ## Nested gates -/

/-- `expr` is the carrier `c` behind inverters and gates; the list holds the enable of each
gate. A gate reads no carrier. -/
inductive GatedClock (events : CarrierEvents) (c : Nat) : BoolExpr → List BoolExpr → Prop where
  | carrier (expr : BoolExpr) (h : ∀ σ, expr.eval σ = (BoolExpr.var c).eval σ) :
      GatedClock events c expr []
  | inverted {inner : BoolExpr} {enables : List BoolExpr} (hinner : GatedClock events c inner enables)
      (expr : BoolExpr) (h : ∀ σ, expr.eval σ = !inner.eval σ) : GatedClock events c expr enables
  /-- an AND gate lets the clock through while its input is true -/
  | and {inner gate : BoolExpr} {enables : List BoolExpr}
      (hinner : GatedClock events c inner enables)
      (hgate : ∀ s ∈ gate.getSupportVars, events s = none)
      (expr : BoolExpr) (h : ∀ σ, expr.eval σ = (inner.eval σ && gate.eval σ)) :
      GatedClock events c expr (gate :: enables)
  /-- an OR gate lets it through while its input is false -/
  | or {inner gate : BoolExpr} {enables : List BoolExpr}
      (hinner : GatedClock events c inner enables)
      (hgate : ∀ s ∈ gate.getSupportVars, events s = none)
      (expr : BoolExpr) (h : ∀ σ, expr.eval σ = (inner.eval σ || gate.eval σ)) :
      GatedClock events c expr (BoolExpr.Not gate :: enables)

/-- All levels let the clock through. -/
def allEnabled (enables : List BoolExpr) (σ : Valuation) : Bool := enables.all fun e => e.eval σ

namespace GatedClock
variable {events : CarrierEvents} {c : Nat} {expr : BoolExpr} {enables : List BoolExpr}

/-- A gate keeps its value while a carrier moves. -/
theorem eval_gate {gate : BoolExpr} (hgate : ∀ s ∈ gate.getSupportVars, events s = none)
    {d : Nat} (hd : (events d).isSome) (v σ : Valuation) :
    gate.eval (override {d} v σ) = gate.eval σ := by
  apply BoolExpr.eval_override
  intro s hs hmem
  rw [Finset.mem_singleton.mp hmem] at hs
  simp [hgate d hs] at hd

/-- Only the carrier behind the gates moves the expression. -/
theorem eval_other (h : GatedClock events c expr enables) {d : Nat} (hd : (events d).isSome)
    (hne : d ≠ c) (v σ : Valuation) : expr.eval (override {d} v σ) = expr.eval σ := by
  induction h with
  | carrier expr h =>
    rw [h, h]
    apply BoolExpr.eval_override
    intro s hs hmem
    rw [BoolExpr.getSupportVars, Finset.mem_singleton] at hs
    rw [Finset.mem_singleton] at hmem
    exact hne (hmem.symm.trans hs)
  | inverted _ expr h ih => rw [h, h, ih]
  | and _ hgate expr h ih => rw [h, h, ih, eval_gate hgate hd]
  | or _ hgate expr h ih => rw [h, h, ih, eval_gate hgate hd]

/-- The expression follows the carrier, in one polarity, exactly while all levels are enabled. -/
theorem toggles (h : GatedClock events c expr enables) (hc : (events c).isSome) (h2 : 2 ≤ c)
    (σ : Valuation) : ∃ inverted : Bool,
      (allEnabled enables σ = true → ∀ b, expr.eval (override {c} (fun _ => b) σ) = (b ^^ inverted)) ∧
      (allEnabled enables σ = false → ∀ b b', expr.eval (override {c} (fun _ => b) σ) =
        expr.eval (override {c} (fun _ => b') σ)) := by
  induction h with
  | carrier expr h =>
    refine ⟨false, fun _ b => ?_, fun hall => by simp [allEnabled] at hall⟩
    rw [h, BoolExpr.eval_var _ h2, override_of_mem (by simp), Bool.xor_false]
  | inverted _ expr h ih =>
    obtain ⟨inverted, hon, hoff⟩ := ih
    refine ⟨!inverted, fun hall b => ?_, fun hall b b' => ?_⟩
    · rw [h, hon hall b]
      simp
    · rw [h, h, hoff hall b b']
  | @and inner gate enables _ hgate expr h ih =>
    obtain ⟨inverted, hon, hoff⟩ := ih
    have hall : allEnabled (gate :: enables) σ = (gate.eval σ && allEnabled enables σ) := rfl
    refine ⟨inverted, fun hon' b => ?_, fun hoff' b b' => ?_⟩
    · rw [hall, Bool.and_eq_true] at hon'
      rw [h, eval_gate hgate hc, hon hon'.2 b, hon'.1, Bool.and_true]
    · rw [h, h, eval_gate hgate hc, eval_gate hgate hc]
      rw [hall, Bool.and_eq_false_iff] at hoff'
      rcases hoff' with hgate' | hrest
      · rw [hgate', Bool.and_false, Bool.and_false]
      · rw [hoff hrest b b']
  | @or inner gate enables _ hgate expr h ih =>
    obtain ⟨inverted, hon, hoff⟩ := ih
    have hall : allEnabled (BoolExpr.Not gate :: enables) σ =
        (!gate.eval σ && allEnabled enables σ) := by
      simp [allEnabled]
    refine ⟨inverted, fun hon' b => ?_, fun hoff' b b' => ?_⟩
    · rw [hall, Bool.and_eq_true, Bool.not_eq_true'] at hon'
      rw [h, eval_gate hgate hc, hon hon'.2 b, hon'.1, Bool.or_false]
    · rw [h, h, eval_gate hgate hc, eval_gate hgate hc]
      rw [hall, Bool.and_eq_false_iff, Bool.not_eq_false'] at hoff'
      rcases hoff' with hgate' | hrest
      · rw [hgate', Bool.or_true, Bool.or_true]
      · rw [hoff hrest b b']

end GatedClock

/-! ## The event of an expression -/

theorem eq_or_eq_invert (p q : ClockPhase) : p = q ∨ p = invertClockPhase q := by
  cases p <;> cases q <;> simp [invertClockPhase]

theorem invertClockPhase_ne (p : ClockPhase) : invertClockPhase p ≠ p := by
  cases p <;> simp [invertClockPhase]

/-- An expression that moves with its carrier rises at one of the two edges. -/
theorem activeEdge_or {expr : BoolExpr} {c : Nat} {phase : ClockPhase} {σ : Valuation}
    {inverted : Bool} (h : ∀ b, expr.eval (override {c} (fun _ => b) σ) = (b ^^ inverted))
    (p : ClockPhase) :
    (activeEdge expr c phase σ p || activeEdge expr c phase σ (invertClockPhase p)) = true := by
  cases p <;> cases phase <;> cases inverted <;>
    simp [activeEdge, clockLevel, invertClockPhase, carrierLevel, h]

theorem activeEdge_of_still {expr : BoolExpr} {c : Nat} {σ : Valuation}
    (h : ∀ b b', expr.eval (override {c} (fun _ => b) σ) =
      expr.eval (override {c} (fun _ => b') σ)) (phase p : ClockPhase) :
    activeEdge expr c phase σ p = false := by
  have hsame : clockLevel expr c phase σ true = clockLevel expr c phase σ false := h _ _
  cases p <;> simp [activeEdge, hsame]

theorem Recognises.enable_gated {expr : BoolExpr} {events : CarrierEvents}
    {event carrier : ClockEvent} {d c : Nat} (hrec : Recognises expr events event d carrier)
    (hc : (events c).isSome) (h2 : 2 ≤ c) {enables : List BoolExpr}
    (hgated : GatedClock events c expr enables) (σ : Valuation) :
    (clockEventEnableOrTrue event).eval σ = allEnabled enables σ := by
  obtain ⟨inverted, hon, hoff⟩ := hgated.toggles hc h2 σ
  rw [hrec.enable]
  by_cases hsame : d = c
  · subst hsame
    cases hall : allEnabled enables σ with
    | false => exact activeEdge_of_still (hoff hall) _ _
    | true =>
      have hedge := @activeEdge_or _ _ carrier.phase _ _ (hon hall) event.phase
      rw [hrec.other, Bool.or_false] at hedge
      exact hedge
  · -- another carrier cannot move the expression, and `c` is not in its support
    have hd : (events d).isSome := by simp [hrec.recorded]
    have hstill : activeEdge expr d carrier.phase σ event.phase = false :=
      activeEdge_of_still (fun b b' => by
        rw [hgated.eval_other hd hsame, hgated.eval_other hd hsame]) _ _
    rw [hstill]
    cases hall : allEnabled enables σ with
    | false => rfl
    | true =>
      have hfixed : ∀ b, expr.eval (override {c} (fun _ => b) σ) = expr.eval σ := by
        intro b
        apply BoolExpr.eval_override
        intro s hs hmem
        rw [Finset.mem_singleton.mp hmem] at hs
        have hcarrier : c ∈ eventCarriers expr events := Finset.mem_filter.mpr ⟨hs, hc⟩
        rw [hrec.carriers, Finset.mem_singleton] at hcarrier
        exact hsame hcarrier.symm
      have htrue := hon hall true
      have hfalse := hon hall false
      rw [hfixed] at htrue hfalse
      rw [htrue] at hfalse
      simp at hfalse

/-- The event of an expression is its rising edge: in every macro-cycle of its domain the
expression rises at the edge of the event's phase exactly under the enable, and at no other
edge; behind nested gates the enable is the conjunction of the enables of all levels. -/
theorem classifyClockEvent_exact {t : CarrierTable} (ht : carrierTables.Reachable t)
    {expr : BoolExpr} {event : ClockEvent}
    (h : classifyClockEventExpression expr t.events = some event) :
    (∀ V, t.Wave event.domain V → ∀ level p, rises expr V p =
      (decide (p = event.phase) && (clockEventEnableOrTrue event).eval (V level))) ∧
    (∀ c, 2 ≤ c → (t.events c).isSome → ∀ enables, GatedClock t.events c expr enables →
      ∀ σ, (clockEventEnableOrTrue event).eval σ = allEnabled enables σ) := by
  obtain ⟨c, carrier, hrec⟩ := classify_recognises h
  refine ⟨?_, ?_⟩
  · intro V hV level p
    have hfollows := follows_inductive.reachable ht
    have hlevel := hfollows.level c carrier hrec.recorded V
      (by rw [← hrec.domain]; exact hV.toCarries)
    rw [hV.rises hrec.carriers hlevel level p]
    rcases eq_or_eq_invert p event.phase with rfl | rfl
    · rw [hrec.enable, decide_eq_true rfl, Bool.true_and]
    · rw [hrec.other, decide_eq_false (invertClockPhase_ne _), Bool.false_and]
  · intro d h2 hd enables hgated σ
    exact hrec.enable_gated hd h2 hgated σ

/-- The clock 2 of the design, and an inverter (variable 3) on its tree. -/
def invertedTree : CarrierTable :=
  (CarrierTable.empty.update (.top ([1], []) 2)).update (.materialized 3 (.not (.var 2)))

/-- Two gates (enables 4 and 5) behind the inverter. -/
theorem classifyClockEvent_exact_nested :
    (∀ V, invertedTree.Wave ([1], []) V → ∀ level p,
      rises (.and (.and (.var 3) (.var 4)) (.var 5)) V p =
        (decide (p = .Neg) && (BoolExpr.and (.var 4) (.var 5)).eval (V level))) ∧
    (∀ c, 2 ≤ c → (invertedTree.events c).isSome → ∀ enables,
      GatedClock invertedTree.events c (.and (.and (.var 3) (.var 4)) (.var 5)) enables →
      ∀ σ, (BoolExpr.and (.var 4) (.var 5)).eval σ = allEnabled enables σ) := by
  have hreached : carrierTables.Reachable invertedTree :=
    .step (.step (.init rfl) rfl) rfl
  have hclassify : classifyClockEventExpression (.and (.and (.var 3) (.var 4)) (.var 5))
      invertedTree.events = some ⟨([1], []), .Neg, some (.and (.var 4) (.var 5))⟩ := by
    decide +kernel
  exact classifyClockEvent_exact hreached hclassify

end KeplerFormal
