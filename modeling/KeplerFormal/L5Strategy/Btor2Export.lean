import KeplerFormal.Core.Btor2
import KeplerFormal.L3Query.BaseCase

/-!
# The BTOR2 export (`src/sec/export/SecBtor2Exporter.cpp`)

The prepared problem is written as a BTOR2 model: its states with their next-state
expressions, its relations as constraints, and the startup of the base case, told apart
from later frames by a saturating counter.

* `ExportTimeline`: the counter with the conditions on the frame that it offers.
* `exportSecBtor2`: the lines, or the text of the error that the writer throws.

A node id is the term that it stands for; equal expressions share their node in the file.
-/
namespace KeplerFormal

open Core

/-- The states of the model: those of the problem, the bits of the counter, and the flag
that stands in for an empty counter. -/
inductive ExportState where
  | symbol (s : Nat)
  | cycle (bit : Nat)
  | initialFrame
  deriving DecidableEq, Repr

abbrev ExportExpr := Btor2Expr Nat ExportState

abbrev ExportLine := Btor2Line Nat ExportState

/-- mirrors src/sec/export/SecBtor2Exporter.h:16-19 -/
structure SecBtor2Metadata where
  totalOutputCount : Nat := 0
  skippedOutputs : List String := []
  deriving DecidableEq, Repr

/-- The fields of the problem that name its inputs and outputs. -/
structure ExportInterface where
  inputSymbols : List Nat := []
  environmentInputNames : List String := []
  observedOutputNames : List String := []
  deriving DecidableEq, Repr

/-! ## The counter -/

/-- `std::bit_width` -/
def bitWidth (n : Nat) : Nat := if n = 0 then 0 else n.log2 + 1

namespace ExportTimeline
variable (lastFrame : Nat)

def bit (i : Nat) : ExportExpr := .state (.cycle i)

def bitIs (frame i : Nat) : ExportExpr := if frame.testBit i then bit i else .not (bit i)

/-- The first `count` bits are those of `frame`. -/
def bitsAre (frame : Nat) : Nat → ExportExpr
  | 0 => .const true
  | count + 1 => .and (bitsAre frame count) (bitIs frame count)

/-- mirrors src/sec/export/SecBtor2Exporter.cpp:49-56 -/
def atFrame (frame : Nat) : ExportExpr := bitsAre frame (bitWidth lastFrame)

/-- `less` and `equal` after the bits from `width` down to `width - count`. -/
def compare (frame width : Nat) : Nat → ExportExpr × ExportExpr
  | 0 => (.const false, .const true)
  | count + 1 =>
    let (less, equal) := compare frame width count
    let i := width - (count + 1)
    if frame.testBit i then (.or less (.and equal (.not (bit i))), .and equal (bit i))
    else (less, .and equal (.not (bit i)))

/-- mirrors src/sec/export/SecBtor2Exporter.cpp:58-71 -/
def before (frame : Nat) : ExportExpr :=
  (compare frame (bitWidth lastFrame) (bitWidth lastFrame)).1

/-- All bits below `i` are set. -/
def carry : Nat → ExportExpr
  | 0 => .const true
  | i + 1 => .and (carry i) (bit i)

/-- mirrors src/sec/export/SecBtor2Exporter.cpp:31-47 -/
def lines : List ExportLine :=
  (List.range (bitWidth lastFrame)).flatMap (fun i =>
    [.state (.cycle i) ("kf_export_cycle_" ++ toString i), .init (.cycle i) (.const false)]) ++
  (List.range (bitWidth lastFrame)).map fun i =>
    .next (.cycle i) (.xor (bit i) (.and (carry i) (.not (atFrame lastFrame lastFrame))))

/-- The condition of frame 0, with the lines that its first use adds.
mirrors src/sec/export/SecBtor2Exporter.cpp:73-83 -/
def firstFrame : ExportExpr × List ExportLine :=
  if bitWidth lastFrame ≠ 0 then (atFrame lastFrame 0, [])
  else (.state .initialFrame,
    [.state .initialFrame "kf_export_initial_frame", .init .initialFrame (.const true),
      .next .initialFrame (.const false)])

end ExportTimeline

/-- mirrors src/sec/export/SecBtor2Exporter.cpp:91-93 -/
def constrainWhen (when condition : ExportExpr) : ExportLine :=
  .constraint (.or (.not when) condition)

/-! ## Symbols and expressions -/

/-- The declared symbols with their names, in the order of the symbols. -/
abbrev SymbolNames := List (Nat × String)

def SymbolNames.declares (names : SymbolNames) (s : Nat) : Bool := names.any (·.1 == s)

/-- `std::map::emplace` -/
def SymbolNames.emplace (names : SymbolNames) (s : Nat) (name : String) : SymbolNames :=
  if names.declares s then names else names.filter (·.1 < s) ++ (s, name) :: names.filter (s < ·.1)

def addStates (names : SymbolNames) : List (Nat × String) → Except String SymbolNames
  | [] => .ok names
  | (s, namePrefix) :: rest =>
    if s < 2 ∨ names.declares s = true then
      .error ("Invalid or duplicate SEC state symbol " ++ toString s)
    else addStates (names.emplace s (namePrefix ++ toString s)) rest

def addInputs (states : SymbolNames) (environmentInputNames : List String) (names : SymbolNames) :
    List (Nat × Nat) → Except String SymbolNames
  | [] => .ok names
  | (s, index) :: rest =>
    if s < 2 ∨ states.declares s = true then .error ("Invalid SEC input symbol " ++ toString s)
    else
      let name := environmentInputNames.getD index ""
      addInputs states environmentInputNames
        (names.emplace s ("input_" ++ toString s ++ if name = "" then "" else "_" ++ name)) rest

/-- mirrors src/formal/Btor2Writer.cpp:133-198 -/
def writeExpression (nodes : Nat → Option ExportExpr) : BoolExpr → Except String ExportExpr
  | .var s =>
    if s < 2 then .ok (.const (s == 1))
    else match nodes s with
      | some node => .ok node
      | none => .error ("Unbound BoolExpr variable in BTOR2 export: " ++ toString s)
  | .not a => do return .not (← writeExpression nodes a)
  | .and a b => do return .and (← writeExpression nodes a) (← writeExpression nodes b)
  | .or a b => do return .or (← writeExpression nodes a) (← writeExpression nodes b)
  | .xor a b => do return .xor (← writeExpression nodes a) (← writeExpression nodes b)

namespace KInductionProblem
variable (p : KInductionProblem) (states inputs : SymbolNames)

/-- mirrors src/sec/export/SecBtor2Exporter.cpp:146-157 -/
def exportStates : Except String SymbolNames :=
  addStates [] (p.state0Symbols.map (·, "design0_state_") ++
    p.state1Symbols.map (·, "design1_state_") ++
    p.auxiliaryStateSymbols.map (·, "auxiliary_state_"))

/-- mirrors src/sec/export/SecBtor2Exporter.cpp:159-176 -/
def exportInputs (io : ExportInterface) : Except String SymbolNames := do
  let names ← addInputs states io.environmentInputNames [] (io.inputSymbols.zipIdx)
  return (p.allSymbols.filter fun s => decide (2 ≤ s) && !states.declares s).foldl
    (fun names s => names.emplace s ("input_" ++ toString s)) names

def exportNode (s : Nat) : Option ExportExpr :=
  if inputs.declares s then some (.input s)
  else if states.declares s then some (.state (.symbol s))
  else none

/-- mirrors src/sec/export/SecBtor2Exporter.cpp:187-193 -/
def nodeForState (s : Nat) : Except String ExportExpr :=
  if states.declares s then .ok (.state (.symbol s))
  else .error ("BTOR2 export references undeclared state " ++ toString s)

/-- mirrors src/sec/export/SecBtor2Exporter.cpp:195-207 -/
def exportNext (state : Nat × String) : Except String ExportLine :=
  match p.transitionAt state.1 with
  | some e => do return .next (.symbol state.1) (← writeExpression (exportNode states inputs) e)
  | none =>
    match (p.primaryByComplement state.1).bind p.transitionAt with
    | some e =>
      do return .next (.symbol state.1) (.not (← writeExpression (exportNode states inputs) e))
    | none => .error ("BTOR2 export missing next-state expression for " ++ state.2)

/-- mirrors src/sec/export/SecBtor2Exporter.cpp:209-220 -/
def exportRelation (complement : Bool) (pair : Nat × Nat) : Except String ExportLine := do
  let lhsNode ← nodeForState states pair.1
  let rhsNode ← nodeForState states pair.2
  return .constraint (.eq (if complement then .not lhsNode else lhsNode) rhsNode)

def exportRails (rails : DualRailSymbolPair) : Except String ExportLine := do
  return .constraint (.or (← nodeForState states rails.mayBeOne)
    (← nodeForState states rails.mayBeZero))

/-! ## Startup -/

/-- mirrors src/sec/export/SecBtor2Exporter.cpp:230-232 -/
def exportResetFrames : Nat :=
  if (!p.hasCompleteInitialState || p.usesDualRailStateEncoding) && p.hasResetBootstrap then
    p.resetBootstrapCycles
  else 0

def exportResetObservation : Bool :=
  p.exportResetFrames != 0 && p.usesResetBootstrapObservationFrontier

def exportInitialObservation : Bool :=
  p.exportResetFrames == 0 && p.hasSequentialState && !p.hasCompleteInitialState

/-- mirrors src/sec/export/SecBtor2Exporter.cpp:240-241 -/
def exportFirstBadFrame : Nat :=
  if p.exportResetFrames ≠ 0 then
    p.exportResetFrames + if p.exportResetObservation then 1 else 0
  else if p.exportInitialObservation then 1 else 0

/-- The horizon of the counter.
mirrors src/sec/export/SecBtor2Exporter.cpp:245-246 -/
def exportLastFrame : Nat :=
  if p.exportResetFrames ≠ 0 then max p.exportFirstBadFrame (p.exportResetFrames + 1)
  else p.exportFirstBadFrame

def exportInitialize : Bool :=
  if p.exportResetFrames ≠ 0 then p.usesDualRailStateEncoding
  else p.hasSequentialState && p.hasExplicitInitialState

/-- `resetFrames` is a 64-bit count. -/
def checkResetFrames : Except String Unit :=
  if p.exportResetFrames = 2 ^ 64 - 1 then .error "BTOR2 export reset cycle count is too large"
  else .ok ()

/-- The values of the assigned symbols, each once, in the order of the symbols. -/
def initialValues : List (Nat × Bool) → List (Nat × Bool) → Except String (List (Nat × Bool))
  | values, [] => .ok values
  | values, (s, value) :: rest =>
    match values.lookup s with
    | some value' =>
      if value' ≠ value then .error "Conflicting SEC initial assignments"
      else initialValues values rest
    | none =>
      initialValues (values.filter (·.1 < s) ++ (s, value) :: values.filter (s < ·.1)) rest

def exportInit (assignment : Nat × Bool) : Except String (List ExportLine) := do
  let _ ← nodeForState states assignment.1
  return [.init (.symbol assignment.1) (.const assignment.2)]

/-- mirrors src/sec/export/SecBtor2Exporter.cpp:248-264 -/
def exportInitial : Except String (List ExportLine) :=
  if p.exportInitialize && (p.exportResetFrames != 0 || p.initialCondition.isSome) then
    if p.initialStateAssignments ≠ [] then do
      let values ← initialValues [] p.initialStateAssignments
      let lines ← values.mapM (exportInit states)
      return lines.flatten
    else
      match p.initialCondition with
      | some condition =>
        if p.exportResetFrames = 0 ∧ condition ≠ .createTrue then do
          let first := ExportTimeline.firstFrame p.exportLastFrame
          let node ← writeExpression (exportNode states inputs) condition
          return first.2 ++ [constrainWhen first.1 node]
        else return []
      | none => return []
  else return []

def exportResetInput (r : Nat × Bool) : Except String ExportLine :=
  if inputs.declares r.1 then
    let active := ExportTimeline.before p.exportLastFrame p.exportResetFrames
    .ok (.constraint (.eq (.input r.1) (if r.2 then active else .not active)))
  else .error "BTOR2 export reset port is not an input"

def exportBootstrap (assignment : Nat × Bool) : Except String ExportLine := do
  let node ← nodeForState states assignment.1
  return constrainWhen (ExportTimeline.atFrame p.exportLastFrame p.exportResetFrames)
    (if assignment.2 then node else .not node)

def exportBootstraps : Except String (List ExportLine) :=
  if p.usesDualRailStateEncoding then .ok []
  else p.bootstrapStateAssignments.mapM (p.exportBootstrap states)

/-- mirrors src/sec/export/SecBtor2Exporter.cpp:270-289 -/
def exportReset (property : ExportExpr) : Except String (List ExportLine) :=
  if p.exportResetFrames ≠ 0 then do
    let resets ← p.resetBootstrapInputs.mapM (p.exportResetInput inputs)
    let observation := if p.exportResetObservation then
      [constrainWhen (ExportTimeline.atFrame p.exportLastFrame p.exportResetFrames) property] else []
    let bootstrap ← p.exportBootstraps states
    return resets ++ observation ++ bootstrap
  else return []

/-- mirrors src/sec/export/SecBtor2Exporter.cpp:127-144 -/
def exportHeader (io : ExportInterface) (metadata : SecBtor2Metadata) : List ExportLine :=
  let covered := io.observedOutputNames.length
  let total := if metadata.totalOutputCount ≠ 0 then metadata.totalOutputCount else covered
  [.comment "Kepler Formal: prepared SEC equivalence obligation; no proof result",
    .comment ("encoding=" ++ if p.usesDualRailStateEncoding then "dual_rail_steady" else "binary"),
    .comment "startup=SEC concrete base-case observation semantics",
    .comment ("covered_outputs=" ++ toString covered ++ " total_outputs=" ++ toString total)] ++
  io.observedOutputNames.map (fun name => .comment ("covered_output=" ++ name)) ++
  metadata.skippedOutputs.map fun name => .comment ("skipped_output=" ++ name)

/-- `property` and `bad` are not null.
mirrors src/sec/export/SecBtor2Exporter.cpp:122-295 -/
def exportSecBtor2 (io : ExportInterface) (metadata : SecBtor2Metadata) :
    Except String (Btor2Model Nat ExportState) := do
  let states ← p.exportStates
  let inputs ← p.exportInputs states io
  let nexts ← states.mapM (p.exportNext states inputs)
  let complements ← p.complementedStatePairs.mapM (exportRelation states true)
  let equalities ← p.sameFrameStateEqualityPairs.mapM (exportRelation states false)
  let rails ← p.dualRailStatePairs.mapM (exportRails states)
  p.checkResetFrames
  let initial ← p.exportInitial states inputs
  let property ← writeExpression (exportNode states inputs) p.property
  let observation := if p.exportInitialObservation then
    [constrainWhen (ExportTimeline.firstFrame p.exportLastFrame).1 property] else []
  let reset ← p.exportReset states inputs property
  let bad ← writeExpression (exportNode states inputs) p.bad
  let raised := if p.exportFirstBadFrame ≠ 0 then
    .and (.not (ExportTimeline.before p.exportLastFrame p.exportFirstBadFrame)) bad else bad
  return p.exportHeader io metadata ++
    inputs.map (fun i => .input i.1 i.2) ++ states.map (fun s => .state (.symbol s.1) s.2) ++
    nexts ++ complements ++ equalities ++ rails ++
    [.comment ("reset_prefix_frames=" ++ toString p.exportResetFrames ++ " first_bad_frame=" ++
      toString p.exportFirstBadFrame)] ++
    ExportTimeline.lines p.exportLastFrame ++ initial ++ observation ++ reset ++
    [.bad raised "equivalence_mismatch"]

end KInductionProblem
end KeplerFormal
