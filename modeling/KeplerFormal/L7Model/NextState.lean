import KeplerFormal.L7Model.ClockCarriers
import KeplerFormal.L7Model.ClockEvents
import KeplerFormal.L7Model.SequentialCell

/-!
# Next-state construction (`src/sec/model/SequentialDesignModel.cpp`)

The state variable of a modelled state is the variable of one of its physical outputs, its
primary output, which may show the state negated.

* `primaryOutput`, `pendingTransition`: the choice of the primary output of each state and
  of the outputs that show its complement.
* `getLocalClockEnableExpr`, `buildNextStateExpr`, `rebuildTransition`: the stored
  next-state expressions.
-/
namespace KeplerFormal

open Core

/-! ## Pending transitions -/

/-- An output that shows a state, plainly or negated. -/
structure StateOutputTerm where
  termID : Nat
  stateIndex : Nat
  complemented : Bool
  deriving DecidableEq

/-- The variable of a state; a state without an output has no terminal. -/
structure PendingStateReference where
  termID : Option Nat
  complemented : Bool

/-- mirrors src/sec/model/SequentialDesignModel.cpp:67-78 -/
structure PendingTransition where
  stateKey : SignalKey
  stateTermID : Nat
  stateOutputIsComplemented : Bool
  modelStateIndex : Nat
  complementedStateKeys : List SignalKey
  modelTermIDs : Nat → Option Nat
  stateReferences : List PendingStateReference
  sequentialState : SequentialState
  clockedOn : BooleanExpression
  clockTermIDs : List Nat

/-- An instance of a flip-flop: its model and what its terminals are. -/
structure SequentialInstanceScan where
  states : List SequentialState
  clockedOn : BooleanExpression
  modelTermIDs : Nat → Option Nat
  stateOutputs : List StateOutputTerm
  opaqueStateReasons : List (Option String)

namespace SequentialInstanceScan
variable (scan : SequentialInstanceScan) (inputKeyByTerm : Nat → Option SignalKey)

/-- The first output of a state, unless that one is negated and a later one is not.
mirrors src/sec/model/SequentialDesignModel.cpp:3066-3072 -/
def primaryOutput (stateIndex : Nat) : Option StateOutputTerm :=
  scan.stateOutputs.foldl (fun primary output =>
    if output.stateIndex = stateIndex then
      match primary with
      | none => some output
      | some chosen => if chosen.complemented && !output.complemented then some output else primary
    else primary) none

/-- mirrors src/sec/model/SequentialDesignModel.cpp:3073-3078 -/
def stateReferences : List PendingStateReference :=
  (List.range scan.states.length).map fun stateIndex =>
    match scan.primaryOutput stateIndex with
    | some output => ⟨some output.termID, output.complemented⟩
    | none => ⟨none, false⟩

/-- The clock terminals, each once.
mirrors src/sec/model/SequentialDesignModel.cpp:3079-3092 -/
def clockTermIDs : List Nat :=
  ((scan.clockedOn.nodes.filter fun node => node.operation = .Term).filterMap
    fun node => scan.modelTermIDs node.term).reverse.dedup.reverse

/-- `inputKeyByTerm.at` -/
def keyAt (termID : Nat) : Except String SignalKey :=
  match inputKeyByTerm termID with
  | some key => .ok key
  | none => .error "unordered_map::at"

/-- mirrors src/sec/model/SequentialDesignModel.cpp:3094-3127 -/
def pendingTransition (stateIndex : Nat) : Except String (Option PendingTransition) :=
  match scan.primaryOutput stateIndex, scan.states[stateIndex]? with
  | some stateOutput, some state =>
    if (scan.opaqueStateReasons[stateIndex]?.join).isSome then .ok none
    else do
      let stateKey ← keyAt inputKeyByTerm stateOutput.termID
      let candidates := scan.stateOutputs.filter fun candidate =>
        ¬ (candidate.termID = stateOutput.termID ∨ candidate.stateIndex ≠ stateIndex ∨
          candidate.complemented = stateOutput.complemented)
      let complementedStateKeys ← candidates.mapM fun candidate =>
        keyAt inputKeyByTerm candidate.termID
      return some
        { stateKey := stateKey
          stateTermID := stateOutput.termID
          stateOutputIsComplemented := stateOutput.complemented
          modelStateIndex := stateIndex
          complementedStateKeys := complementedStateKeys
          modelTermIDs := scan.modelTermIDs
          stateReferences := scan.stateReferences
          sequentialState := state
          clockedOn := scan.clockedOn
          clockTermIDs := scan.clockTermIDs }
  | _, _ => .ok none

end SequentialInstanceScan

/-! ## Expressions of a cell -/

/-- What extraction knows when it builds a next-state expression. -/
structure ExtractionState where
  termDNLID2varID : Nat → Option Nat
  outputExprByTerm : Nat → Option BoolExpr
  pureClockCarrierTermIDs : Finset Nat
  clockEventByCarrierVarID : CarrierEvents
  session : CarrierSession

namespace ExtractionState
variable (s : ExtractionState) (pending : PendingTransition)

/-- mirrors src/sec/model/SequentialDesignModel.cpp:1344-1369 -/
def termExpr (term : Nat) : Except String BoolExpr :=
  match pending.modelTermIDs term with
  | none => .error "Sequential expression references an unmapped terminal"
  | some termID =>
    match s.outputExprByTerm termID with
    | some expr => .ok expr
    | none =>
      match s.termDNLID2varID termID with
      | some varID =>
        if 2 ≤ varID then .ok (.var varID)
        else .error "Missing combinational expression for sequential terminal"
      | none => .error "Missing combinational expression for sequential terminal"

/-- The variable of a reference.
mirrors src/sec/model/SequentialDesignModel.cpp:1376-1381, 1619-1627 -/
def referenceVar (reference : PendingStateReference) : Except String Nat :=
  match reference.termID.bind s.termDNLID2varID with
  | some varID =>
    if 2 ≤ varID then .ok varID else .error "Sequential state bit was mapped to a constant"
  | none => .error "Sequential state bit was mapped to a constant"

/-- The state that a reference shows.
mirrors src/sec/model/SequentialDesignModel.cpp:1382-1385, 1628-1631 -/
def referenceExpr (reference : PendingStateReference) : Except String BoolExpr := do
  let varID ← s.referenceVar reference
  return if reference.complemented then .Not (.var varID) else .var varID

/-- mirrors src/sec/model/SequentialDesignModel.cpp:1370-1386 -/
def stateExpr (stateIndex : Nat) : Except String BoolExpr :=
  match pending.stateReferences[stateIndex]? with
  | none => .error "Sequential expression state is out of range"
  | some reference => s.referenceExpr reference

/-- mirrors src/sec/model/SequentialDesignModel.cpp:1316-1418 -/
def buildSequentialModelExpr (expression : BooleanExpression) : Except String BoolExpr :=
  expression.build (s.termExpr pending) (s.stateExpr pending)

/-- mirrors src/sec/model/SequentialDesignModel.cpp:1431-1446 -/
def pendingClockTermsArePureCarriers : Bool :=
  pending.clockTermIDs ≠ [] ∧ ∀ termID ∈ pending.clockTermIDs, termID ∈ s.pureClockCarrierTermIDs

/-- The enable of the clock event, or else what is left of the clock expression without its
carriers; no enable where the clock pins are pure carriers.
mirrors src/sec/model/SequentialDesignModel.cpp:1448-1497 -/
def getLocalClockEnableExpr : Except String (Option BoolExpr × CarrierSession) :=
  if pending.clockTermIDs = [] then .ok (none, s.session)
  else if s.pendingClockTermsArePureCarriers pending then .ok (none, s.session)
  else if s.session.topClockCarrierVarIDs = ∅ then .ok (none, s.session)
  else do
    let clockExpr ← s.buildSequentialModelExpr pending pending.clockedOn
    match classifyClockEventExpression clockExpr s.clockEventByCarrierVarID with
    | some event =>
      return (if clockEventIsUngated event then none else event.enable, s.session)
    | none =>
      let stripped := s.session.stripEnable clockExpr
      let enable := BoolExpr.simplifyWhenChanged clockExpr stripped.1
      return (if enable = .createTrue then none else some enable, stripped.2)

/-- mirrors src/sec/model/SequentialDesignModel.cpp:1653-1659, 1717-1721 -/
def makeIteExpr (condition whenTrue whenFalse : BoolExpr) : BoolExpr :=
  .Or (.And condition whenTrue) (.And (.Not condition) whenFalse)

def gated (enable : Option BoolExpr) (next current : BoolExpr) : BoolExpr :=
  match enable with
  | some clockEnable => makeIteExpr clockEnable next current
  | none => next

/-- The value under simultaneous clear and preset. -/
def simultaneous (current : BoolExpr) : ClearPresetValue → Except String BoolExpr
  | .Zero => .ok .createFalse
  | .One => .ok .createTrue
  | .Hold => .ok current
  | .Toggle => .ok (.Not current)
  | .Unknown => .error "Unknown simultaneous clear/preset value"

/-- Clear and preset around the gated update.
mirrors src/sec/model/SequentialDesignModel.cpp:1660-1692 -/
def withClearPreset (value : ClearPresetValue) (clear preset : Option BoolExpr)
    (next current : BoolExpr) : Except String BoolExpr :=
  match clear, preset with
  | some clear, some preset =>
    match simultaneous current value with
    | .error message => .error message
    | .ok both => .ok (makeIteExpr clear (makeIteExpr preset both .createFalse)
        (makeIteExpr preset .createTrue next))
  | some clear, none => .ok (makeIteExpr clear .createFalse next)
  | none, some preset => .ok (makeIteExpr preset .createTrue next)
  | none, none => .ok next

/-- The expression of a table that may be missing. -/
def buildOptional (expression : Option BooleanExpression) : Except String (Option BoolExpr) :=
  match expression with
  | none => .ok none
  | some expression => (s.buildSequentialModelExpr pending expression).map some

/-- mirrors src/sec/model/SequentialDesignModel.cpp:1611-1702 -/
def buildNextStateExpr : Except String (BoolExpr × CarrierSession) := do
  let current ← s.stateExpr pending pending.modelStateIndex
  let next ← s.buildSequentialModelExpr pending pending.sequentialState.nextState
  let enable ← s.getLocalClockEnableExpr pending
  let clear ← s.buildOptional pending pending.sequentialState.clear
  let preset ← s.buildOptional pending pending.sequentialState.preset
  let next ← withClearPreset pending.sequentialState.clearPresetValue clear preset
    (gated enable.1 next current) current
  return enable.2.stripUpdate (if pending.stateOutputIsComplemented then .Not next else next)

/-- The entries of `nextStateExprByStateKey` of one transition.
mirrors src/sec/model/SequentialDesignModel.cpp:4190-4212 -/
def rebuildTransition : Except String (List (SignalKey × BoolExpr) × ExtractionState) := do
  let (nextStateExpr, session) ← s.buildNextStateExpr pending
  return ((pending.stateKey, nextStateExpr) ::
    pending.complementedStateKeys.map (fun key => (key, .Not nextStateExpr)),
    { s with session := session })

/-- The event recorded for the keys of one transition.
mirrors src/sec/model/SequentialDesignModel.cpp:1984-1995 -/
def classifyPendingClockEvent : Except String (Option ClockEvent) := do
  let clockExpr ← s.buildSequentialModelExpr pending pending.clockedOn
  return classifyClockEventExpression clockExpr s.clockEventByCarrierVarID

end ExtractionState

end KeplerFormal
