import KeplerFormal.L7Model.BuilderVariables
import KeplerFormal.L7Model.MemoryTransitions
import KeplerFormal.L7Model.NextState
import KeplerFormal.L7Model.SkipPropagation

/-!
# Rebuild of the required transitions (`src/sec/model/SequentialDesignModel.cpp`)

Next-state expressions are built for the states that the observed outputs depend on. Two queues
feed each other: a required state puts its pending transition in one, and a built next-state
expression puts the states it reads in the other.

* `enqueueStateDependenciesFromFormula`: the states an expression reads; a node is scanned once.
* `expandStates`: the queue of states.
* `processBatch`: the queue of transitions, built as one batch.
* `rebuildRequiredStateTransitions`, `applyRebuiltTransitionArtifacts`: the loop, and the states
  that are removed after it.
-/
namespace KeplerFormal

open Core

/-! ## Skips -/

/-- What a message says about a terminal. -/
structure TerminalText where
  instancePath : String
  modelName : Option String
  pinName : String
  bit : Int

/-- mirrors src/sec/model/SequentialDesignModel.cpp:1096-1115 -/
def makeOpaqueInternalSkip (terminal : TerminalText) (reason : String) : ConnectivitySkipInfo :=
  let path := String.ofList
    (terminal.instancePath.toList.reverse.dropWhile fun c => c = '/' ∨ c = '.').reverse
  let path := if path = "" then "<unnamed internal instance>" else path
  let model := match terminal.modelName with
    | some name => " (model `" ++ name ++ "`)"
    | none => ""
  ⟨.OpaqueInternal, "opaque internal cell `" ++ path ++ "`" ++ model ++ " pin `" ++
    terminal.pinName ++ "[" ++ toString terminal.bit ++ "]`: " ++ reason⟩

/-! ## Pending transitions -/

namespace PendingTransition

/-- The keys whose next-state expression a transition gives. -/
def keys (pending : PendingTransition) : List SignalKey :=
  pending.stateKey :: pending.complementedStateKeys

/-- The model terminals that the update reads, each once, with their terminals.
mirrors src/sec/model/SequentialDesignModel.cpp:1584-1609 -/
def updateTerms (pending : PendingTransition) : List (Nat × Nat) :=
  let tables := pending.sequentialState.nextState ::
    (pending.sequentialState.clear.toList ++ pending.sequentialState.preset.toList)
  let terms := ((tables.flatMap fun table => table.nodes).filter fun node =>
    node.operation = .Term).map fun node => node.term
  terms.reverse.dedup.reverse.filterMap fun term => (pending.modelTermIDs term).map (term, ·)

end PendingTransition

/-- The first pending transition of a key: `emplace` in index order.
mirrors src/sec/model/SequentialDesignModel.cpp:3921-3930 -/
def pendingIndexByStateKey (pendings : List PendingTransition) (key : SignalKey) : Option Nat :=
  pendings.findIdx? fun pending => key ∈ pending.keys

/-! ## The frontier of states -/

/-- The required states, the two queues and what was seen.
mirrors src/sec/model/SequentialDesignModel.cpp:4019-4028 -/
structure StateFrontier where
  requiredStateKeys : Finset SignalKey := ∅
  stateDependencyWorkQueue : List SignalKey := []
  pendingWorkQueue : List Nat := []
  requiredPendingIndexes : Finset Nat := ∅
  expandedStateDependencies : Finset SignalKey := ∅
  scannedDependencyNodes : Finset BoolExpr := ∅
  enqueuedStateVarIDs : Finset Nat := ∅

namespace StateFrontier
variable (m : ExtractionModel) (pendings : List PendingTransition)

def enqueuePending (f : StateFrontier) (index : Nat) : StateFrontier :=
  if index ∈ f.requiredPendingIndexes then f
  else { f with
    requiredPendingIndexes := insert index f.requiredPendingIndexes
    pendingWorkQueue := f.pendingWorkQueue ++ [index] }

/-- mirrors src/sec/model/SequentialDesignModel.cpp:4029-4039 -/
def enqueueRequiredStateKey (f : StateFrontier) (key : SignalKey) : StateFrontier :=
  if key ∈ f.requiredStateKeys then f
  else
    let f := { f with
      requiredStateKeys := insert key f.requiredStateKeys
      stateDependencyWorkQueue := f.stateDependencyWorkQueue ++ [key] }
    match pendingIndexByStateKey pendings key with
    | some index => f.enqueuePending index
    | none => f

/-- mirrors src/sec/model/SequentialDesignModel.cpp:4040-4048 -/
def enqueueRequiredStateVarID (f : StateFrontier) (varID : Nat) : StateFrontier :=
  if varID ∈ f.enqueuedStateVarIDs then f
  else
    let f := { f with enqueuedStateVarIDs := insert varID f.enqueuedStateVarIDs }
    match m.stateKeyOf varID with
    | some key => f.enqueueRequiredStateKey pendings key
    | none => f

/-- A node that was scanned is skipped. -/
def enter (f : StateFrontier) (node : BoolExpr) (below : StateFrontier → StateFrontier) :
    StateFrontier :=
  if node ∈ f.scannedDependencyNodes then f
  else below { f with scannedDependencyNodes := insert node f.scannedDependencyNodes }

/-- The right operand is on top of the stack, so it is walked before the left one.
mirrors src/sec/model/SequentialDesignModel.cpp:3830-3876 -/
def enqueueStateDependenciesFromFormula : BoolExpr → StateFrontier → StateFrontier
  | .var id, f => f.enter (.var id) fun f =>
    if id ∈ m.stateVars then f.enqueueRequiredStateVarID m pendings id else f
  | .not a, f => f.enter (.not a) fun f => enqueueStateDependenciesFromFormula a f
  | .and a b, f => f.enter (.and a b) fun f =>
    enqueueStateDependenciesFromFormula a (enqueueStateDependenciesFromFormula b f)
  | .or a b, f => f.enter (.or a b) fun f =>
    enqueueStateDependenciesFromFormula a (enqueueStateDependenciesFromFormula b f)
  | .xor a b, f => f.enter (.xor a b) fun f =>
    enqueueStateDependenciesFromFormula a (enqueueStateDependenciesFromFormula b f)

/-- The queue of states, for so many rounds; a state whose expression is not there yet is dropped
and comes back with it.
mirrors src/sec/model/SequentialDesignModel.cpp:4070-4082 -/
def expandStates (next : KeyMap BoolExpr) : Nat → StateFrontier → StateFrontier
  | 0, f => f
  | rounds + 1, f =>
    match f.stateDependencyWorkQueue with
    | [] => f
    | key :: rest =>
      let f := { f with stateDependencyWorkQueue := rest }
      match next key with
      | none => expandStates next rounds f
      | some expr =>
        if key ∈ f.expandedStateDependencies then expandStates next rounds f
        else expandStates next rounds (enqueueStateDependenciesFromFormula m pendings expr
          { f with expandedStateDependencies := insert key f.expandedStateDependencies })

end StateFrontier

/-! ## Batches -/

/-- What the builder gives for a batch.
mirrors src/sec/model/SequentialDesignModel.cpp:581-587 -/
structure MaterializedBuilderOutputs where
  inputs : List Nat
  termDNLID2varID : VarTable
  outputExprByTerm : List (Nat × BoolExpr)
  skippedOutputsByTerm : List (Nat × BuilderSkippedOutputInfo)

/-- What the rebuild asks of the netlist: `build` is the clause builder on roots that replace
terminals, over stable numbers; `clockCarriers` is the index of the clock tree. `outputOrder` is
the order of the map of observed outputs. -/
structure RebuildContext where
  net : BuilderNetlist
  pendingTransitions : List PendingTransition
  hasOpaqueInternalTerminals : Bool
  outputOrder : List SignalKey
  nonTopRootsToBuild : List Nat → List Nat
  build : List Nat → List Nat → VarTable →
    Except String (List (Nat × BoolExpr) × List (Nat × BuilderSkippedOutputInfo))
  hasBuildableCombinationalRoot : Nat → Bool
  clockCarriers : ExtractionModel → ExtractionState → CarrierEvents × Finset Nat
  termName : Nat → String
  terminalText : Nat → TerminalText

/-- The terminals of a batch: those that were ever asked for, and those of this batch. -/
structure BatchTerms where
  materializedOutputTerms : Nat → Bool
  batchOutputTerms : List Nat := []

/-- What the rebuild changes. -/
structure RebuildWork where
  model : ExtractionModel
  extraction : ExtractionState
  builderInputs : List Nat
  skippedOutputsByTerm : Nat → Option BuilderSkippedOutputInfo
  materializedOutputTerms : Nat → Bool
  frontier : StateFrontier := {}

namespace BatchTerms

/-- `insert` into the set of the batch. -/
def push (b : BatchTerms) (termID : Nat) : BatchTerms :=
  { materializedOutputTerms := Function.update b.materializedOutputTerms termID true
    batchOutputTerms :=
      if termID ∈ b.batchOutputTerms then b.batchOutputTerms else b.batchOutputTerms ++ [termID] }

/-- mirrors src/sec/model/SequentialDesignModel.cpp:4099-4104 -/
def addUpdateTerm (b : BatchTerms) (termID : Nat) : BatchTerms :=
  if b.materializedOutputTerms termID then b else b.push termID

/-- A clock terminal is built again where its driver is logic.
mirrors src/sec/model/SequentialDesignModel.cpp:4105-4113 -/
def addClockTerm (hasBuildableCombinationalRoot : Nat → Bool) (b : BatchTerms) (termID : Nat) :
    BatchTerms :=
  if b.materializedOutputTerms termID && !hasBuildableCombinationalRoot termID then b
  else b.push termID

/-- mirrors src/sec/model/SequentialDesignModel.cpp:4099-4113 -/
def addPending (hasBuildableCombinationalRoot : Nat → Bool) (b : BatchTerms)
    (pending : PendingTransition) : BatchTerms :=
  pending.clockTermIDs.foldl (addClockTerm hasBuildableCombinationalRoot)
    ((pending.updateTerms.map Prod.snd).foldl addUpdateTerm b)

end BatchTerms

/-- `emplace` of an entry in a map by key. -/
def KeyMap.emplace {α : Type} (map : KeyMap α) (key : SignalKey) (value : α) : KeyMap α :=
  if (map key).isSome then map else Function.update map key (some value)

namespace RebuildContext
variable (ctx : RebuildContext)

/-- mirrors src/sec/model/SequentialDesignModel.cpp:699-962 -/
def materializeBuilderOutputs (outputs collectedInputs : List Nat) (stable : VarTable) :
    Except String MaterializedBuilderOutputs := do
  let inputs := collectedInputs.filter fun termID => termID ∉ ctx.nonTopRootsToBuild outputs
  let built ← ctx.build outputs inputs stable
  return {
    inputs := inputs
    termDNLID2varID := mergeBuilderTermVarIDs stable (ctx.net.initVarNames inputs)
    outputExprByTerm := built.1
    skippedOutputsByTerm := built.2 }

/-- mirrors src/sec/model/SequentialDesignModel.cpp:3311-3336 -/
def recordBoundaryInputVars (inputs : List Nat) (table : VarTable) (m : ExtractionModel) :
    ExtractionModel :=
  { m with
    inputVarByKey := (inputs.filterMap (ctx.net.publishedVar table)).foldl
      (fun vars entry => KeyMap.emplace vars entry.1 entry.2) m.inputVarByKey }

/-- mirrors src/sec/model/SequentialDesignModel.cpp:3965-4015 -/
def refreshClockCarrierVarIDs (w : RebuildWork) : RebuildWork :=
  let found := ctx.clockCarriers w.model w.extraction
  { w with
    extraction := { w.extraction with
      clockEventByCarrierVarID := found.1
      session := w.extraction.session.refreshClockCarrierVarIDs found.2 } }

/-- `insert_or_assign` for expressions, `emplace` for skips.
mirrors src/sec/model/SequentialDesignModel.cpp:4116-4135 -/
def materializeBatch (batchOutputTerms : List Nat) (w : RebuildWork) : Except String RebuildWork :=
  if batchOutputTerms = [] then .ok w
  else do
    let outputs ← ctx.materializeBuilderOutputs batchOutputTerms w.builderInputs
      w.extraction.termDNLID2varID
    let inputs := appendUniqueTermIDs w.builderInputs outputs.inputs
    let table := mergeBuilderTermVarIDs w.extraction.termDNLID2varID outputs.termDNLID2varID
    return ctx.refreshClockCarrierVarIDs
      { w with
        model := ctx.recordBoundaryInputVars inputs table w.model
        builderInputs := inputs
        extraction := { w.extraction with
          termDNLID2varID := table
          outputExprByTerm := outputs.outputExprByTerm.foldl
            (fun exprs entry => Function.update exprs entry.1 (some entry.2))
            w.extraction.outputExprByTerm }
        skippedOutputsByTerm := outputs.skippedOutputsByTerm.foldl
          (fun skips entry => if (skips entry.1).isSome then skips
            else Function.update skips entry.1 (some entry.2)) w.skippedOutputsByTerm }

/-- Why a transition is not built: the first of its update terminals that was skipped, else the
first of its clock terminals.
mirrors src/sec/model/SequentialDesignModel.cpp:4137-4179 -/
def skippedPin (skippedOutputsByTerm : Nat → Option BuilderSkippedOutputInfo)
    (pending : PendingTransition) : Option ConnectivitySkipInfo :=
  let opaqueSkip := makeOpaqueInternalSkip (ctx.terminalText pending.stateTermID)
  let updateSkip := pending.updateTerms.findSome? fun term =>
    (skippedOutputsByTerm term.2).map fun info =>
      match info.connectivitySkip with
      | some skip => { skip with
          detail := "Sequential terminal `" ++ ctx.termName term.1 ++ "` was skipped because " ++
            info.detail }
      | none => opaqueSkip ("unsupported sequential terminal `" ++ ctx.termName term.1 ++ "`: " ++
          info.detail)
  updateSkip.or <| pending.clockTermIDs.findSome? fun termID =>
    (skippedOutputsByTerm termID).map fun info =>
      match info.connectivitySkip with
      | some skip => { skip with
          detail := "Sequential clock pin was skipped because " ++ info.detail }
      | none => opaqueSkip ("unsupported sequential clock pin: " ++ info.detail)

/-- One transition of a batch: a skip for all its keys, or their expressions.
mirrors src/sec/model/SequentialDesignModel.cpp:4137-4212 -/
def buildPending (w : RebuildWork) (pending : PendingTransition) : Except String RebuildWork :=
  match ctx.skippedPin w.skippedOutputsByTerm pending with
  | some info => .ok { w with
    model := { w.model with
      connectivitySkipInfoByKey := pending.keys.foldl
        (fun skips key => Function.update skips key (some info))
        w.model.connectivitySkipInfoByKey } }
  | none => do
    let (entries, extraction) ← w.extraction.rebuildTransition pending
    let clockEvent ← extraction.classifyPendingClockEvent pending
    let m := w.model.emplaceAll entries
    return { w with
      extraction := extraction
      model := { m with clockEventByStateKey :=
        match clockEvent with
        | some event => pending.keys.foldl (fun events key => events.emplace key event)
            m.clockEventByStateKey
        | none => m.clockEventByStateKey }
      frontier := { w.frontier with stateDependencyWorkQueue :=
        w.frontier.stateDependencyWorkQueue ++ pending.complementedStateKeys ++
          [pending.stateKey] } }

/-- The transitions of the queue, as one batch; their states are required from here on.
mirrors src/sec/model/SequentialDesignModel.cpp:4088-4212 -/
def processBatch (w : RebuildWork) : Except String RebuildWork := do
  let batch := w.frontier.pendingWorkQueue.filterMap fun index => ctx.pendingTransitions[index]?
  let terms := batch.foldl (BatchTerms.addPending ctx.hasBuildableCombinationalRoot)
    { materializedOutputTerms := w.materializedOutputTerms }
  let w ← ctx.materializeBatch terms.batchOutputTerms { w with
    materializedOutputTerms := terms.materializedOutputTerms
    frontier := { w.frontier with
      pendingWorkQueue := []
      requiredStateKeys :=
        w.frontier.requiredStateKeys ∪ (batch.flatMap PendingTransition.keys).toFinset } }
  batch.foldlM ctx.buildPending w

/-- A state is required once, so its queue lasts for so many rounds. -/
def expand (m : ExtractionModel) (w : RebuildWork) : RebuildWork :=
  { w with
    frontier := w.frontier.expandStates m ctx.pendingTransitions w.model.nextStateExprByStateKey
      (m.stateBits.length + w.frontier.stateDependencyWorkQueue.length) }

/-- mirrors src/sec/model/SequentialDesignModel.cpp:4069-4213 -/
def rebuildLoop (m : ExtractionModel) : Nat → RebuildWork → Except String RebuildWork
  | 0, w => .ok w
  | rounds + 1, w =>
    if w.frontier.stateDependencyWorkQueue = [] ∧ w.frontier.pendingWorkQueue = [] then .ok w
    else
      let w := ctx.expand m w
      if w.frontier.pendingWorkQueue = [] then rebuildLoop m rounds w
      else do rebuildLoop m rounds (← ctx.processBatch w)

/-- With few states and no opaque terminal every state is required.
mirrors src/sec/model/SequentialDesignModel.cpp:4057-4067 -/
def initialFrontier (m : ExtractionModel) : StateFrontier :=
  let f := if !ctx.hasOpaqueInternalTerminals && m.stateBits.length ≤ 5000 then
    m.stateBits.foldl (fun f key => f.enqueueRequiredStateKey ctx.pendingTransitions key) {} else {}
  (ctx.outputOrder.filterMap m.observedOutputExprByKey).foldl
    (fun f expr => f.enqueueStateDependenciesFromFormula m ctx.pendingTransitions expr) f

/-- A batch takes a transition that no other batch takes, so there are at most so many rounds.
mirrors src/sec/model/SequentialDesignModel.cpp:3881-4229 -/
def rebuildRequiredStateTransitions (w : RebuildWork) : Except String RebuildWork :=
  ctx.rebuildLoop w.model (ctx.pendingTransitions.length + 2)
    { ctx.refreshClockCarrierVarIDs w with
      materializedOutputTerms := fun termID => (w.extraction.outputExprByTerm termID).isSome
      frontier := ctx.initialFrontier w.model }

end RebuildContext

/-! ## Removal -/

def KeyMap.eraseAll {α : Type} (map : KeyMap α) (keys : List SignalKey) : KeyMap α := fun key =>
  if key ∈ keys then none else map key

/-- mirrors src/sec/model/SequentialDesignModel.h:41-44 -/
structure ComplementedStateRelation where
  primaryKey : SignalKey
  complementedKey : SignalKey
  deriving DecidableEq

/-- mirrors src/sec/model/SequentialDesignModel.cpp:3152-3155 -/
def complementedStateRelations (pendings : List PendingTransition) :
    List ComplementedStateRelation :=
  pendings.flatMap fun pending => pending.complementedStateKeys.map fun key =>
    ⟨pending.stateKey, key⟩

/-- The states that are not required go, with what is stored for them.
mirrors src/sec/model/SequentialDesignModel.cpp:4434-4477 -/
def applyRebuiltTransitionArtifacts (retainedStateKeys : Finset SignalKey) (m : ExtractionModel) :
    ExtractionModel :=
  let prunedStateKeys := m.stateBits.filter fun key => key ∉ retainedStateKeys
  { m with
    stateBits := m.stateBits.filter fun key => key ∈ retainedStateKeys
    nextStateExprByStateKey := m.nextStateExprByStateKey.eraseAll prunedStateKeys
    initialStateValueByKey := m.initialStateValueByKey.eraseAll prunedStateKeys
    clockEventByStateKey := m.clockEventByStateKey.eraseAll prunedStateKeys
    inputVarByKey := m.inputVarByKey.eraseAll prunedStateKeys }

/-- mirrors src/sec/model/SequentialDesignModel.cpp:4464-4476 -/
def retainedRelations (retainedStateKeys : Finset SignalKey)
    (relations : List ComplementedStateRelation) : List ComplementedStateRelation :=
  relations.filter fun relation =>
    relation.primaryKey ∈ retainedStateKeys ∧ relation.complementedKey ∈ retainedStateKeys

end KeplerFormal
