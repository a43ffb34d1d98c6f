import KeplerFormal.L1Formula.Substitution

/-!
# Clock events (`src/clocks/SecClockModel.cpp`)

A clock expression over one root clock is classified as an event: the domain of the root
clock, the phase in which the expression rises and the enable under which it does.

* `classifyClockEventExpression`: the classification; an expression that may rise at both
  edges of the root clock, or reads two root clocks, is refused.
* `activeEdge`: the expression rises at that edge of the root clock.
* `classify_recognises`: the enable of an event is true exactly where the expression rises at
  the edge of its phase, and it rises at no other.
-/
namespace KeplerFormal

/-- mirrors src/sec/common/SignalKey.h (`SignalKey`) -/
abbrev SignalKey := List Nat × List Nat

instance : LawfulBEq SignalKey := inferInstance

inductive ClockPhase where
  | Pos
  | Neg
  deriving DecidableEq, Repr

/-- mirrors src/clocks/SecClockModel.cpp:133-135 -/
def invertClockPhase : ClockPhase → ClockPhase
  | .Pos => .Neg
  | .Neg => .Pos

/-- No enable means that the event is unconditionally active.
mirrors src/clocks/SecClockModel.h:22-27 -/
structure ClockEvent where
  domain : SignalKey
  phase : ClockPhase
  enable : Option BoolExpr
  deriving DecidableEq

/-- mirrors src/clocks/SecClockModel.cpp:141-143 -/
def clockEventEnableOrTrue (event : ClockEvent) : BoolExpr := event.enable.getD .createTrue

/-- mirrors src/clocks/SecClockModel.cpp:145-147 -/
def clockEventIsUngated (event : ClockEvent) : Bool :=
  event.enable = none ∨ event.enable = some .createTrue

/-- The recorded events of the carriers, by variable. -/
abbrev CarrierEvents := Nat → Option ClockEvent

/-! ## Classification -/

/-- A constant keeps its meaning.
mirrors src/clocks/SecClockModel.cpp:23-95 -/
def assigned (carrierVarID : Nat) (value : Bool) (id : Nat) : BoolExpr :=
  if id < 2 then .var id
  else if id = carrierVarID then (if value then .createTrue else .createFalse)
  else .var id

/-- mirrors src/clocks/SecClockModel.cpp:97-102 -/
def specializeClockCarrier (expr : BoolExpr) (carrierVarID : Nat) (value : Bool) : BoolExpr :=
  BoolExpr.simplifyWhenChanged expr (expr.substitute (assigned carrierVarID value))

/-- mirrors src/clocks/SecClockModel.cpp:104-107 -/
def makeRisingEnable (whenClockLow whenClockHigh : BoolExpr) : BoolExpr :=
  (BoolExpr.And (.Not whenClockLow) whenClockHigh).simplify

/-- mirrors src/clocks/SecClockModel.cpp:109-112 -/
def makeFallingEnable (whenClockLow whenClockHigh : BoolExpr) : BoolExpr :=
  (BoolExpr.And whenClockLow (.Not whenClockHigh)).simplify

/-- The carriers with an event that the expression reads. -/
def eventCarriers (expr : BoolExpr) (carrierEvents : CarrierEvents) : Finset Nat :=
  expr.getSupportVars.filter fun id => (carrierEvents id).isSome

/-- mirrors src/clocks/SecClockModel.cpp:114-127 -/
def singleCarrierInSupport (expr : BoolExpr) (carrierEvents : CarrierEvents) : Option Nat :=
  if h : (eventCarriers expr carrierEvents).card = 1 then
    some ((eventCarriers expr carrierEvents).min' (Finset.card_pos.mp (by omega)))
  else none

/-- mirrors src/clocks/SecClockModel.cpp:129-131 -/
def normalizeEventEnable (enable : BoolExpr) : Option BoolExpr :=
  if enable = .createTrue then none else some enable

/-- mirrors src/clocks/SecClockModel.cpp:151-191 -/
def classifyClockEventExpression (expr : BoolExpr) (carrierEvents : CarrierEvents) :
    Option ClockEvent :=
  match singleCarrierInSupport expr carrierEvents with
  | none => none
  | some carrierVarID =>
    match carrierEvents carrierVarID with
    | none => none
    | some carrier =>
      let whenClockLow := specializeClockCarrier expr carrierVarID false
      let whenClockHigh := specializeClockCarrier expr carrierVarID true
      let risingEnable := makeRisingEnable whenClockLow whenClockHigh
      let fallingEnable := makeFallingEnable whenClockLow whenClockHigh
      let hasRising := decide (risingEnable ≠ .createFalse)
      let hasFalling := decide (fallingEnable ≠ .createFalse)
      -- a dynamically selected phase can create either edge
      if hasRising = hasFalling then none
      else if hasRising then some { carrier with enable := normalizeEventEnable risingEnable }
      else some { carrier with
        phase := invertClockPhase carrier.phase
        enable := normalizeEventEnable fallingEnable }

/-! ## Edges -/

/-- The level of a carrier while its root clock is at `level`. -/
def carrierLevel (phase : ClockPhase) (level : Bool) : Bool :=
  match phase with
  | .Pos => level
  | .Neg => !level

/-- The value of a clock expression while the root clock of its carrier is at `level`. -/
def clockLevel (expr : BoolExpr) (carrierVarID : Nat) (phase : ClockPhase) (σ : Valuation)
    (level : Bool) : Bool :=
  expr.eval (override {carrierVarID} (fun _ => carrierLevel phase level) σ)

/-- The expression rises at the positive, or at the negative, edge of the root clock. -/
def activeEdge (expr : BoolExpr) (carrierVarID : Nat) (phase : ClockPhase) (σ : Valuation) :
    ClockPhase → Bool
  | .Pos => !clockLevel expr carrierVarID phase σ false && clockLevel expr carrierVarID phase σ true
  | .Neg => !clockLevel expr carrierVarID phase σ true && clockLevel expr carrierVarID phase σ false

/-- The clock expression has an active edge in the macro-cycle. -/
def hasActiveEdge (expr : BoolExpr) (carrierVarID : Nat) (phase : ClockPhase) (σ : Valuation) :
    Bool :=
  activeEdge expr carrierVarID phase σ .Pos || activeEdge expr carrierVarID phase σ .Neg

theorem hasActiveEdge_eq (expr : BoolExpr) (carrierVarID : Nat) (phase p : ClockPhase)
    (σ : Valuation) : hasActiveEdge expr carrierVarID phase σ =
      (activeEdge expr carrierVarID phase σ p ||
        activeEdge expr carrierVarID phase σ (invertClockPhase p)) := by
  cases p with
  | Pos => rfl
  | Neg => exact Bool.or_comm _ _

theorem eval_specializeClockCarrier (expr : BoolExpr) (carrierVarID : Nat) (value : Bool)
    (σ : Valuation) : (specializeClockCarrier expr carrierVarID value).eval σ =
      expr.eval (override {carrierVarID} (fun _ => value) σ) := by
  unfold specializeClockCarrier
  have hconst : ∀ s < 2, assigned carrierVarID value s = .var s := fun s hs => if_pos hs
  rw [BoolExpr.eval_simplifyWhenChanged, BoolExpr.eval_substitute hconst]
  apply BoolExpr.eval_congr
  intro s _ h2
  have hs : ¬ s < 2 := by omega
  by_cases hc : s = carrierVarID
  · rw [assigned, if_neg hs, if_pos hc, override_of_mem (by simp [hc])]
    cases value <;> rfl
  · rw [assigned, if_neg hs, if_neg hc, override_of_not_mem (by simp [hc]),
      BoolExpr.eval_var σ h2]

theorem mem_support_specializeClockCarrier {expr : BoolExpr} {carrierVarID : Nat} {value : Bool}
    {s : Nat} (hs : s ∈ (specializeClockCarrier expr carrierVarID value).getSupportVars)
    (h2 : 2 ≤ s) : s ∈ expr.getSupportVars ∧ s ≠ carrierVarID := by
  obtain ⟨x, hx, hsx⟩ :=
    BoolExpr.mem_support_substitute (BoolExpr.mem_support_simplifyWhenChanged hs h2) h2
  unfold assigned at hsx
  split at hsx
  · rename_i hx2
    have hsame : s = x := Finset.mem_singleton.mp hsx
    omega
  · split at hsx
    · cases value <;> simp [BoolExpr.createTrue, BoolExpr.createFalse, BoolExpr.getSupportVars] at hsx
        <;> omega
    · rename_i hne
      rw [Finset.mem_singleton.mp hsx]
      exact ⟨hx, hne⟩

@[simp] theorem eval_normalizeEventEnable (enable : BoolExpr) (σ : Valuation) :
    ((normalizeEventEnable enable).getD .createTrue).eval σ = enable.eval σ := by
  unfold normalizeEventEnable
  split
  · rename_i htrue
    rw [htrue]
    rfl
  · rfl

theorem mem_support_normalizeEventEnable {enable : BoolExpr} {s : Nat}
    (hs : s ∈ ((normalizeEventEnable enable).getD .createTrue).getSupportVars) (h2 : 2 ≤ s) :
    s ∈ enable.getSupportVars := by
  unfold normalizeEventEnable at hs
  split at hs
  · simp [BoolExpr.createTrue, BoolExpr.getSupportVars] at hs
    omega
  · exact hs

theorem singleCarrierInSupport_eq_some {expr : BoolExpr} {carrierEvents : CarrierEvents} {c : Nat}
    (h : singleCarrierInSupport expr carrierEvents = some c) :
    eventCarriers expr carrierEvents = {c} := by
  unfold singleCarrierInSupport at h
  split at h
  · rename_i hcard
    obtain ⟨x, hx⟩ := Finset.card_eq_one.mp hcard
    have hmem : c ∈ eventCarriers expr carrierEvents := by
      rw [← Option.some.inj h]
      exact Finset.min'_mem _ _
    rw [hx, Finset.mem_singleton] at hmem
    rw [hx, hmem]
  · cases h

/-! ## What a recognised expression is -/

/-- `event` is the clock expression: it rises under the enable at the edge of its phase, and
at no other. -/
structure Recognises (expr : BoolExpr) (carrierEvents : CarrierEvents) (event : ClockEvent)
    (carrierVarID : Nat) (carrier : ClockEvent) : Prop where
  carriers : eventCarriers expr carrierEvents = {carrierVarID}
  recorded : carrierEvents carrierVarID = some carrier
  domain : event.domain = carrier.domain
  enable : ∀ σ, (clockEventEnableOrTrue event).eval σ =
    activeEdge expr carrierVarID carrier.phase σ event.phase
  other : ∀ σ, activeEdge expr carrierVarID carrier.phase σ (invertClockPhase event.phase) = false
  support : ∀ s ∈ (clockEventEnableOrTrue event).getSupportVars, 2 ≤ s →
    s ∈ expr.getSupportVars ∧ s ≠ carrierVarID

theorem Recognises.hasActiveEdge {expr : BoolExpr} {carrierEvents : CarrierEvents}
    {event carrier : ClockEvent} {c : Nat} (h : Recognises expr carrierEvents event c carrier)
    (σ : Valuation) : hasActiveEdge expr c carrier.phase σ =
      (clockEventEnableOrTrue event).eval σ := by
  rw [hasActiveEdge_eq _ _ _ event.phase, h.enable, h.other, Bool.or_false]

theorem mem_support_edge {expr : BoolExpr} {c : Nat} {low high : Bool} {s : Nat}
    {enable : BoolExpr} (hs : s ∈ enable.simplify.getSupportVars) (h2 : 2 ≤ s)
    (henable : s ∈ enable.getSupportVars →
      s ∈ (specializeClockCarrier expr c low).getSupportVars ∨
        s ∈ (specializeClockCarrier expr c high).getSupportVars) :
    s ∈ expr.getSupportVars ∧ s ≠ c := by
  rcases henable (BoolExpr.mem_support_simplify hs h2) with h | h
  · exact mem_support_specializeClockCarrier h h2
  · exact mem_support_specializeClockCarrier h h2

theorem classify_recognises {expr : BoolExpr} {carrierEvents : CarrierEvents} {event : ClockEvent}
    (h : classifyClockEventExpression expr carrierEvents = some event) :
    ∃ c carrier, Recognises expr carrierEvents event c carrier := by
  unfold classifyClockEventExpression at h
  split at h
  · cases h
  · rename_i c hc
    split at h
    · cases h
    · rename_i carrier hcarrier
      have hrising : ∀ σ, (makeRisingEnable (specializeClockCarrier expr c false)
          (specializeClockCarrier expr c true)).eval σ =
            activeEdge expr c carrier.phase σ carrier.phase := by
        intro σ
        simp only [makeRisingEnable, BoolExpr.eval_simplify, BoolExpr.eval_And, BoolExpr.eval_Not,
          eval_specializeClockCarrier]
        cases hphase : carrier.phase <;> simp [activeEdge, clockLevel, carrierLevel]
      have hfalling : ∀ σ, (makeFallingEnable (specializeClockCarrier expr c false)
          (specializeClockCarrier expr c true)).eval σ =
            activeEdge expr c carrier.phase σ (invertClockPhase carrier.phase) := by
        intro σ
        simp only [makeFallingEnable, BoolExpr.eval_simplify, BoolExpr.eval_And, BoolExpr.eval_Not,
          eval_specializeClockCarrier]
        cases hphase : carrier.phase <;>
          simp [activeEdge, clockLevel, carrierLevel, invertClockPhase, Bool.and_comm]
      have hinvert : invertClockPhase (invertClockPhase carrier.phase) = carrier.phase := by
        cases carrier.phase <;> rfl
      dsimp only at h
      split at h
      · cases h
      · rename_i hdiffer
        split at h
        · rename_i hpos
          cases h
          have hnever : makeFallingEnable (specializeClockCarrier expr c false)
              (specializeClockCarrier expr c true) = .createFalse := by
            by_contra hne
            apply hdiffer
            rw [hpos, decide_eq_true hne]
          refine ⟨c, carrier, singleCarrierInSupport_eq_some hc, hcarrier, rfl, fun σ => ?_,
            fun σ => ?_, fun s hs h2 => ?_⟩
          · unfold clockEventEnableOrTrue
            rw [eval_normalizeEventEnable, hrising]
          · rw [← hfalling, hnever]
            rfl
          · apply mem_support_edge (mem_support_normalizeEventEnable hs h2) h2
            intro hand
            exact (BoolExpr.mem_support_And hand h2).imp_left fun h => BoolExpr.mem_support_Not h h2
        · rename_i hpos
          cases h
          have hnever : makeRisingEnable (specializeClockCarrier expr c false)
              (specializeClockCarrier expr c true) = .createFalse := by
            by_contra hne
            exact hpos (decide_eq_true hne)
          refine ⟨c, carrier, singleCarrierInSupport_eq_some hc, hcarrier, rfl, fun σ => ?_,
            fun σ => ?_, fun s hs h2 => ?_⟩
          · unfold clockEventEnableOrTrue
            rw [eval_normalizeEventEnable, hfalling]
          · rw [hinvert, ← hrising, hnever]
            rfl
          · apply mem_support_edge (mem_support_normalizeEventEnable hs h2) h2
            intro hand
            exact (BoolExpr.mem_support_And hand h2).imp_right fun h => BoolExpr.mem_support_Not h h2

end KeplerFormal
