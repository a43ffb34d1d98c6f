import KeplerFormal.Core.Fallible
import KeplerFormal.Core.Ram
import KeplerFormal.L7Model.SkipPropagation

/-!
# Structured memories (`src/sec/model/SequentialDesignModel.cpp`)

A memory has one state for each bit of each cell and one for each bit of each read port; what
drives its terminals is built elsewhere, and is `BuiltObservedExpr` here.

* `MemoryInterface`, `supportsStructuredMemoryModel`, `appendPendingMemoryInstance`: a memory
  instance as it is scanned; write ports that can never be enabled are left out.
* `buildAddressEqualsExpr`: a shift by 64 or more is an error here, for it has no meaning.
* `buildStructuredMemoryTransition`: the next-state expressions of one memory; a terminal that
  is skipped or unsupported takes the whole memory, or its read port, with it.
-/
namespace KeplerFormal

open Core

inductive MemoryResetMode where
  | None
  | AsyncLow
  | AsyncHigh
  | SyncLow
  | SyncHigh
  deriving DecidableEq

/-! ## Interfaces -/

/-- The bit terms of a read port. -/
structure MemoryReadPort where
  address : List Nat
  data : List Nat

structure MemoryWritePort where
  address : List Nat
  data : List Nat
  mask : List Nat
  enables : List Nat
  extraWriteInputs : List (List Nat) := []

/-- What the library says of a memory cell; `isValid` is its own check. -/
structure MemoryInterface where
  isValid : Bool
  width : Nat
  depth : Nat
  abits : Nat
  resetMode : MemoryResetMode
  reset : Option Nat
  readPorts : List MemoryReadPort
  writePorts : List MemoryWritePort

/-- mirrors src/sec/model/SequentialDesignModel.cpp:2804-2836 -/
def MemoryInterface.supportsStructuredMemoryModel (interface : MemoryInterface) : Bool :=
  interface.isValid &&
    (interface.readPorts.all fun port =>
      port.address.length = interface.abits && port.data.length = interface.width) &&
    interface.writePorts.all fun port =>
      port.address.length = interface.abits && port.data.length = interface.width &&
        (port.mask = [] || port.mask.length = interface.width) && port.extraWriteInputs = []

/-! ## Pending memories -/

/-- mirrors src/sec/model/SequentialDesignModel.cpp:80-117 -/
structure PendingMemoryReadPort where
  addressTermIDs : List Nat
  dataTermIDs : List Nat

structure PendingMemoryWritePort where
  addressTermIDs : List Nat
  dataTermIDs : List Nat
  maskTermIDs : List Nat
  enableTermIDs : List Nat
  extraWriteInputTermIDs : List (List Nat)

structure PendingMemoryCellState where
  key : SignalKey
  displayName : String
  cellIndex : Nat
  bitIndex : Nat

structure PendingMemoryReadOutput where
  key : SignalKey
  portIndex : Nat
  bitIndex : Nat

structure PendingMemoryInstance where
  width : Nat
  depth : Nat
  abits : Nat
  resetMode : MemoryResetMode
  resetTermID : Option Nat
  readPorts : List PendingMemoryReadPort
  writePorts : List PendingMemoryWritePort
  cellStates : List PendingMemoryCellState
  readOutputs : List PendingMemoryReadOutput

/-- The expression of a terminal, or why it has none. -/
inductive BuiltObservedExpr where
  | expr (expr : BoolExpr)
  | connectivitySkip (info : ConnectivitySkipInfo)
  | unsupported (reason : String)

structure BuilderSkippedOutputInfo where
  connectivitySkip : Option ConnectivitySkipInfo
  detail : String

/-- What extraction knows of terminals when memories are built. -/
structure MemoryContext where
  isConstantZeroTerm : Nat → Bool
  isNoDriverTerm : Nat → Bool
  displayName : Nat → String
  inputKeyByTerm : Nat → Option SignalKey
  outputExprByTerm : Nat → Option BoolExpr
  skippedOutputsByTerm : Nat → Option BuilderSkippedOutputInfo
  buildObservedExprForTerm : Nat → BuiltObservedExpr

/-- A memory cell of the design: its path, and the terminals of its bit terms. -/
structure MemoryInstance where
  path : List Nat
  fullPath : String
  interface : MemoryInterface
  termIDsByBitTerm : Nat → Option Nat

/-- The identifier of the name `__MEM_CELL`. -/
def memCellID : Nat := 0

namespace MemoryInstance
variable (memory : MemoryInstance)

/-- mirrors src/sec/model/SequentialDesignModel.cpp:2746-2764 -/
def makeMemoryCellStateKey (cellIndex bitIndex : Nat) : SignalKey :=
  (memory.path ++ [memCellID], [cellIndex, bitIndex])

/-- mirrors src/sec/model/SequentialDesignModel.cpp:2766-2777 -/
def makeMemoryCellStateDisplayName (cellIndex bitIndex : Nat) : String :=
  memory.fullPath ++ ".__MEM_CELL[" ++ toString cellIndex ++ "][" ++ toString bitIndex ++ "]"

/-- mirrors src/sec/model/SequentialDesignModel.cpp:2838-2855 -/
def getRequiredInstanceTermID (context : String) (term : Nat) : Except String Nat :=
  match memory.termIDsByBitTerm term with
  | some termID => .ok termID
  | none => .error ("Missing DNL term for memory " ++ context ++ " in instance `" ++
      memory.fullPath ++ "`")

def cellState (cellIndex bitIndex : Nat) : PendingMemoryCellState where
  key := memory.makeMemoryCellStateKey cellIndex bitIndex
  displayName := memory.makeMemoryCellStateDisplayName cellIndex bitIndex
  cellIndex := cellIndex
  bitIndex := bitIndex

/-- mirrors src/sec/model/SequentialDesignModel.cpp:2906-2913 -/
def cellStates : List PendingMemoryCellState :=
  (List.range memory.interface.depth).flatMap fun cellIndex =>
    (List.range memory.interface.width).map (memory.cellState cellIndex)

/-- The reset terminal counts only when the memory uses its reset.
mirrors src/sec/model/SequentialDesignModel.cpp:2918-2927 -/
def resetTermID : Except String (Option Nat) :=
  match memory.interface.reset with
  | some reset =>
    if memory.interface.resetMode = .None then .ok none
    else (memory.getRequiredInstanceTermID "reset" reset).map some
  | none => .ok none

end MemoryInstance

namespace MemoryContext
variable (ctx : MemoryContext)

/-- An enable that cannot assert.
mirrors src/sec/model/SequentialDesignModel.cpp:2881-2890 -/
def isDisabledMemoryWriteEnable (termID : Nat) : Bool :=
  ctx.isConstantZeroTerm termID || ctx.isNoDriverTerm termID

/-- mirrors src/sec/model/SequentialDesignModel.cpp:2926-2957 -/
def appendReadPort (memory : MemoryInstance) (portIndex : Nat) (port : MemoryReadPort) :
    Except String (PendingMemoryReadPort × List PendingMemoryReadOutput) := do
  let addressTermIDs ← port.address.mapM (memory.getRequiredInstanceTermID "read-address")
  let outputs ← port.data.mapM fun term => do
    let termID ← memory.getRequiredInstanceTermID "read-data" term
    match ctx.inputKeyByTerm termID with
    | some key => return (termID, key)
    | none => .error ("Missing SEC state key for memory read-data bit in instance `" ++
        memory.fullPath ++ "`")
  return (⟨addressTermIDs, outputs.map Prod.fst⟩,
    outputs.mapIdx fun bitIndex output => ⟨output.2, portIndex, bitIndex⟩)

/-- mirrors src/sec/model/SequentialDesignModel.cpp:2959-3025 -/
def appendWritePort (memory : MemoryInstance) (port : MemoryWritePort) :
    Except String (Option PendingMemoryWritePort) := do
  let enableTermIDs ← port.enables.mapM (memory.getRequiredInstanceTermID "write-enable")
  if enableTermIDs.any ctx.isDisabledMemoryWriteEnable then return none
  else
    let addressTermIDs ← port.address.mapM (memory.getRequiredInstanceTermID "write-address")
    let dataTermIDs ← port.data.mapM (memory.getRequiredInstanceTermID "write-data")
    let maskTermIDs ← port.mask.mapM (memory.getRequiredInstanceTermID "write-mask")
    let extraWriteInputTermIDs ← port.extraWriteInputs.mapM fun terms =>
      terms.mapM (memory.getRequiredInstanceTermID "extra-write")
    return some ⟨addressTermIDs, dataTermIDs, maskTermIDs, enableTermIDs, extraWriteInputTermIDs⟩

/-- mirrors src/sec/model/SequentialDesignModel.cpp:2892-3028 -/
def appendPendingMemoryInstance (memory : MemoryInstance) : Except String PendingMemoryInstance := do
  let resetTermID ← memory.resetTermID
  let readPorts ← memory.interface.readPorts.zipIdx.mapM fun (port, portIndex) =>
    ctx.appendReadPort memory portIndex port
  let writePorts ← memory.interface.writePorts.mapM (ctx.appendWritePort memory)
  return {
    width := memory.interface.width
    depth := memory.interface.depth
    abits := memory.interface.abits
    resetMode := memory.interface.resetMode
    resetTermID := resetTermID
    readPorts := readPorts.map Prod.fst
    writePorts := writePorts.reduceOption
    cellStates := memory.cellStates
    readOutputs := readPorts.flatMap Prod.snd }

end MemoryContext

/-! ## Next-state expressions -/

namespace BoolExpr

def makeAndChain : List BoolExpr → BoolExpr
  | [] => createTrue
  | expr :: exprs => exprs.foldl And expr

def makeIte (condition whenTrue whenFalse : BoolExpr) : BoolExpr :=
  Or (And condition whenTrue) (And (Not condition) whenFalse)

end BoolExpr

/-- mirrors src/sec/model/SequentialDesignModel.cpp:1723-1734 -/
def buildAddressEqualsExpr (addressBits : List BoolExpr) (addressValue : Nat) :
    Except String BoolExpr :=
  if 64 < addressBits.length then .error "shift out of range"
  else .ok (BoolExpr.makeAndChain (addressBits.mapIdx fun bitIndex addressBit =>
    if (addressValue >>> bitIndex) % 2 ≠ 0 then addressBit else addressBit.Not))

/-- Why a terminal has no expression. -/
inductive MemoryStop where
  | skipped (info : ConnectivitySkipInfo)
  | unsupported (reason : String)

def MemoryStop.unsupportedReason : MemoryStop → Option String
  | .skipped _ => none
  | .unsupported reason => some reason

/-- The expressions of a write port. -/
structure WritePortExprs where
  disabled : Bool := false
  addressExprs : List BoolExpr := []
  dataExprs : List BoolExpr := []
  maskExprs : List BoolExpr := []
  enableExprs : List BoolExpr := []

/-- `operator[]` of a vector. -/
def exprAt (exprs : List BoolExpr) (index : Nat) : Except String BoolExpr :=
  match exprs[index]? with
  | some expr => .ok expr
  | none => .error "index out of range"

namespace MemoryContext
variable (ctx : MemoryContext)

/-- A second look-up finds the expression that the first one stored, which is the same one.
mirrors src/sec/model/SequentialDesignModel.cpp:3409-3477 -/
def materializeStructuredMemoryTermExpr (termID : Nat) : Except MemoryStop BoolExpr :=
  match ctx.outputExprByTerm termID with
  | some expr => .ok expr
  | none =>
    match ctx.skippedOutputsByTerm termID with
    | some skipped =>
      match skipped.connectivitySkip with
      | some info => .error (.skipped { info with
          detail := "Structured memory dependency `" ++ ctx.displayName termID ++
            "` was skipped because " ++ info.detail })
      | none => .error (.unsupported ("Structured memory dependency `" ++ ctx.displayName termID ++
          "` is unsupported: " ++ skipped.detail))
    | none =>
      match ctx.buildObservedExprForTerm termID with
      | .expr expr => .ok expr
      | .connectivitySkip info => .error (.skipped { info with
          detail := "Structured memory dependency `" ++ ctx.displayName termID ++
            "` was skipped because " ++ info.detail })
      | .unsupported reason => .error (.unsupported ("Structured memory dependency `" ++
          ctx.displayName termID ++ "` is unsupported: " ++ reason))

/-- mirrors src/sec/model/SequentialDesignModel.cpp:3479-3502 -/
def isDisabledOrUndrivenWriteEnable (termID : Nat) : Bool :=
  ctx.isDisabledMemoryWriteEnable termID ||
    ((ctx.skippedOutputsByTerm termID).bind (·.connectivitySkip)).any fun info =>
      info.origin = .NoDriver ∨ info.origin = .UnknownConstant

/-- The address up to the first bit without an expression. -/
def readAddressExprs : List Nat → List BoolExpr × Option MemoryStop
  | [] => ([], none)
  | termID :: termIDs =>
    match ctx.materializeStructuredMemoryTermExpr termID with
    | .ok expr =>
      let rest := readAddressExprs termIDs
      (expr :: rest.1, rest.2)
    | .error stop => ([], some stop)

/-- No expressions when one enable cannot assert. -/
def enableExprs : List Nat → Except MemoryStop (Option (List BoolExpr))
  | [] => .ok (some [])
  | termID :: termIDs =>
    if ctx.isDisabledOrUndrivenWriteEnable termID then .ok none
    else do
      let expr ← ctx.materializeStructuredMemoryTermExpr termID
      let rest ← enableExprs termIDs
      return rest.map (expr :: ·)

/-- mirrors src/sec/model/SequentialDesignModel.cpp:3613-3660 -/
def writePortExprs (port : PendingMemoryWritePort) : Except MemoryStop WritePortExprs := do
  match ← ctx.enableExprs port.enableTermIDs with
  | none => return { disabled := true }
  | some enables =>
    let addressExprs ← port.addressTermIDs.mapM ctx.materializeStructuredMemoryTermExpr
    let dataExprs ← port.dataTermIDs.mapM ctx.materializeStructuredMemoryTermExpr
    let maskExprs ← port.maskTermIDs.mapM ctx.materializeStructuredMemoryTermExpr
    return { addressExprs, dataExprs, maskExprs, enableExprs := enables }

def resetExpr (pending : PendingMemoryInstance) : Except MemoryStop (Option BoolExpr) :=
  match pending.resetTermID with
  | some termID => (ctx.materializeStructuredMemoryTermExpr termID).map some
  | none => .ok none

end MemoryContext

/-- mirrors src/sec/model/SequentialDesignModel.cpp:3681-3695 -/
def resetAssertedExpr (resetMode : MemoryResetMode) (resetExpr : Option BoolExpr) :
    Option BoolExpr :=
  match resetMode with
  | .AsyncLow | .SyncLow => resetExpr.map BoolExpr.Not
  | .AsyncHigh | .SyncHigh => resetExpr
  | .None => none

def withReset (resetAsserted : Option BoolExpr) (next : BoolExpr) : BoolExpr :=
  match resetAsserted with
  | some reset => BoolExpr.makeIte reset .createFalse next
  | none => next

namespace WritePortExprs

/-- The mask bit, of a port that has a mask. -/
def maskCondition (exprs : WritePortExprs) (bitIndex : Nat) : Except String (List BoolExpr) :=
  if exprs.maskExprs = [] then .ok [] else (exprAt exprs.maskExprs bitIndex).map ([·])

/-- mirrors src/sec/model/SequentialDesignModel.cpp:3715-3729 -/
def writeCondition (exprs : WritePortExprs) (cellIndex bitIndex : Nat) : Except String BoolExpr := do
  let addressEquals ← buildAddressEqualsExpr exprs.addressExprs cellIndex
  let mask ← exprs.maskCondition bitIndex
  return BoolExpr.makeAndChain (addressEquals :: (exprs.enableExprs ++ mask))

/-- One write port, over the ports before it. -/
def applyTo (cellIndex bitIndex : Nat) (next : BoolExpr) (exprs : WritePortExprs) :
    Except String BoolExpr :=
  if exprs.disabled then .ok next
  else do
    let condition ← exprs.writeCondition cellIndex bitIndex
    let data ← exprAt exprs.dataExprs bitIndex
    return BoolExpr.makeIte condition data next

end WritePortExprs

/-- The table of the cells' next-state expressions. -/
abbrev CellTable := List ((Nat × Nat) × BoolExpr)

def CellTable.at (cells : CellTable) (cellIndex bitIndex : Nat) : Except String BoolExpr :=
  match cells.lookup (cellIndex, bitIndex) with
  | some expr => .ok expr
  | none => .error "index out of range"

/-- Cell 0 where no later cell has the address.
mirrors src/sec/model/SequentialDesignModel.cpp:3757-3772 -/
def readNextExpr (cells : CellTable) (depth : Nat) (addressExprs : List BoolExpr)
    (resetAsserted : Option BoolExpr) (bitIndex : Nat) : Except String BoolExpr := do
  let first ← cells.at 0 bitIndex
  let next ← (List.range' 1 (depth - 1)).foldlM (fun next cellIndex => do
    let addressEquals ← buildAddressEqualsExpr addressExprs cellIndex
    let cell ← cells.at cellIndex bitIndex
    return BoolExpr.makeIte addressEquals cell next) first
  return withReset resetAsserted next

namespace ExtractionModel
variable (m : ExtractionModel)

/-- `emplace` of a next-state expression. -/
def emplaceNext (key : SignalKey) (next : BoolExpr) : ExtractionModel :=
  if (m.nextStateExprByStateKey key).isSome then m
  else { m with nextStateExprByStateKey := Function.update m.nextStateExprByStateKey key next }

def markConnectivitySkipped (key : SignalKey) (info : ConnectivitySkipInfo) : ExtractionModel :=
  if (m.connectivitySkipInfoByKey key).isSome then m
  else { m with connectivitySkipInfoByKey := Function.update m.connectivitySkipInfoByKey key info }

/-- The memory cannot be built. -/
def stopMemory (pending : PendingMemoryInstance) : MemoryStop → ExtractionModel
  | .skipped info =>
    (pending.cellStates.map (·.key) ++ pending.readOutputs.map (·.key)).foldl
      (fun m key => m.markConnectivitySkipped key info) m
  | .unsupported reason => { m with unsupportedReasons := m.unsupportedReasons ++ [reason] }

/-- mirrors src/sec/model/SequentialDesignModel.cpp:3700-3747 -/
def cellNextExpr (writes : List WritePortExprs) (resetAsserted : Option BoolExpr)
    (cell : PendingMemoryCellState) : Except String BoolExpr :=
  match m.inputVarByKey cell.key with
  | none => .error ("Missing synthetic SEC variable for memory cell state `" ++
      cell.displayName ++ "`")
  | some v => do
    let next ← writes.foldlM (WritePortExprs.applyTo cell.cellIndex cell.bitIndex) (.var v)
    return withReset resetAsserted next

/-- mirrors src/sec/model/SequentialDesignModel.cpp:3749-3775 -/
def buildReadOutput (cells : CellTable) (depth : Nat)
    (reads : List (List BoolExpr × Option MemoryStop)) (resetAsserted : Option BoolExpr)
    (readOutput : PendingMemoryReadOutput) : Except String ExtractionModel :=
  match m.inputVarByKey readOutput.key with
  | none => .error ("Missing SEC variable for memory read-output state `" ++
      signalKeyToString readOutput.key ++ "`")
  | some _ =>
    match reads[readOutput.portIndex]? with
    | none => .error "index out of range"
    | some (_, some (.skipped info)) => .ok (m.markConnectivitySkipped readOutput.key info)
    | some (addressExprs, _) => do
      let next ← readNextExpr cells depth addressExprs resetAsserted readOutput.bitIndex
      return m.emplaceNext readOutput.key next

/-- The read addresses that are unsupported are reported. -/
def reportReads (reads : List (List BoolExpr × Option MemoryStop)) : ExtractionModel :=
  { m with unsupportedReasons := m.unsupportedReasons ++
      reads.filterMap fun read => read.2.bind MemoryStop.unsupportedReason }

/-- One memory.
mirrors src/sec/model/SequentialDesignModel.cpp:3513-3777 -/
def buildStructuredMemoryTransition (ctx : MemoryContext) (pending : PendingMemoryInstance) :
    Except String ExtractionModel :=
  let reads := pending.readPorts.map fun port => ctx.readAddressExprs port.addressTermIDs
  let m := m.reportReads reads
  match pending.writePorts.mapM ctx.writePortExprs with
  | .error stop => .ok (m.stopMemory pending stop)
  | .ok writes =>
    match ctx.resetExpr pending with
    | .error stop => .ok (m.stopMemory pending stop)
    | .ok resetExpr => do
      let resetAsserted := resetAssertedExpr pending.resetMode resetExpr
      let nexts ← pending.cellStates.mapM (m.cellNextExpr writes resetAsserted)
      let m := (pending.cellStates.zip nexts).foldl (fun m cell => m.emplaceNext cell.1.key cell.2) m
      let cells := (pending.cellStates.map fun cell => (cell.cellIndex, cell.bitIndex)).zip nexts
      pending.readOutputs.foldlM
        (fun m readOutput => m.buildReadOutput cells pending.depth reads resetAsserted readOutput) m

/-- Every memory.
mirrors src/sec/model/SequentialDesignModel.cpp:3504-3778 -/
def buildStructuredMemoryTransitions (ctx : MemoryContext) (pendings : List PendingMemoryInstance) :
    Except String ExtractionModel :=
  pendings.foldlM (fun m pending => m.buildStructuredMemoryTransition ctx pending) m

end ExtractionModel
end KeplerFormal
