import KeplerFormal.Core.Fallible
import KeplerFormal.L1Formula.TernaryNodes
import KeplerFormal.L3Query.Cone
import KeplerFormal.L4Engine.InitFacts

/-!
# Ternary model reduction (`src/sec/pdr/PDREngine.cpp`)

`PdrTernaryModelReducer` drops a literal of a model cube where every root formula keeps
its expected value with the literal's symbol set to X. The values of the nodes are kept
in memos, one for each symbol map, and a trial only carries changed values upwards
through the parent links.

The node table, the memos and the generation counter live in a cache that later
reducers use again. A memo is a vector over the slots of the nodes: it is as long as the
table was when the last root of its symbol map was entered.

* `evaluate`: the first evaluation of a root, which fills the memo.
* `propagateChangedAssignments`: the worklist.
* `reduceSolvedCubeByTernarySimulation`: one reducer, from construction to its cube.

An access behind the end of a memo is a fault: the source reads it unchecked.
-/
namespace KeplerFormal

open Core

inductive ReducerFault where
  /-- the slot of a node behind the end of the memo -/
  | memoOutOfRange (slot : Nat)
  /-- `assignments_.at` throws -/
  | missingAssignment (symbol : Nat)
  /-- the worklist is not empty after `fuel` steps -/
  | outOfFuel
  deriving DecidableEq, Repr

/-- mirrors src/sec/pdr/PDREngine.cpp:1706-1710 -/
structure TernaryEvaluationMemoEntry where
  generation : Nat := 0
  queuedGeneration : Nat := 0
  value : Option Bool := none
  deriving DecidableEq, Repr

/-- The entries by the node of their slot. -/
structure TernaryEvaluationMemo where
  size : Nat := 0
  entry : BoolExpr → TernaryEvaluationMemoEntry := fun _ => {}

/-- The part of the cache that the reducer uses; a symbol map is known by its address.
mirrors src/sec/pdr/PDREngine.cpp:1695-1899 -/
structure PdrFormulaSupportCache where
  nodes : TernaryNodes := {}
  memos : Option Nat → TernaryEvaluationMemo := fun _ => {}
  ternaryEvaluationGeneration : Nat := 0

/-- mirrors src/sec/pdr/PDREngine.cpp:880-884 -/
structure PdrTernarySimulationRoot where
  formula : BoolExpr
  symbolMap : Option Nat := none
  expectedValue : Bool
  deriving DecidableEq, Repr

structure TernaryAssignment where
  value : Bool
  unknown : Bool
  deriving DecidableEq, Repr

namespace TernaryEvaluationMemo

def resize (memo : TernaryEvaluationMemo) (size : Nat) : TernaryEvaluationMemo :=
  if memo.size < size then { memo with size := size } else memo

def read (memo : TernaryEvaluationMemo) (nodes : TernaryNodes) (e : BoolExpr) :
    Except ReducerFault TernaryEvaluationMemoEntry :=
  if nodes.slot e < memo.size then .ok (memo.entry e) else .error (.memoOutOfRange (nodes.slot e))

def write (memo : TernaryEvaluationMemo) (e : BoolExpr) (entry : TernaryEvaluationMemoEntry) :
    TernaryEvaluationMemo :=
  { memo with entry := Function.update memo.entry e entry }

end TernaryEvaluationMemo

/-! ## Evaluation of a root -/

section Evaluate
variable (nodes : TernaryNodes) (memoGeneration : Nat)

/-- A node of this generation is not evaluated again. -/
def memoized (e : BoolExpr)
    (compute : TernaryEvaluationMemo → Except ReducerFault (Option Bool × TernaryEvaluationMemo))
    (memo : TernaryEvaluationMemo) : Except ReducerFault (Option Bool × TernaryEvaluationMemo) := do
  let entry ← memo.read nodes e
  if entry.generation = memoGeneration then pure (entry.value, memo)
  else
    let (result, memo) ← compute memo
    let entry := { memo.entry e with generation := memoGeneration, value := result }
    pure (result, memo.write e entry)

/-- Both operands are evaluated, whatever the first one gives. -/
def evaluateOperands (operator : Option Bool → Option Bool → Option Bool)
    (left right : TernaryEvaluationMemo →
      Except ReducerFault (Option Bool × TernaryEvaluationMemo))
    (memo : TernaryEvaluationMemo) : Except ReducerFault (Option Bool × TernaryEvaluationMemo) := do
  let (lhs, memo) ← left memo
  let (rhs, memo) ← right memo
  pure (operator lhs rhs, memo)

/-- mirrors src/sec/pdr/PDREngine.cpp:5623-5662 -/
def evaluate (leaf : Nat → Option Bool) :
    BoolExpr → TernaryEvaluationMemo →
      Except ReducerFault (Option Bool × TernaryEvaluationMemo)
  | .var id => memoized nodes memoGeneration (.var id) fun memo => pure (leaf id, memo)
  | .not a => memoized nodes memoGeneration (.not a) fun memo => do
    let (operand, memo) ← evaluate leaf a memo
    pure (ternaryNot operand, memo)
  | .and a b => memoized nodes memoGeneration (.and a b)
    (evaluateOperands ternaryAnd (evaluate leaf a) (evaluate leaf b))
  | .or a b => memoized nodes memoGeneration (.or a b)
    (evaluateOperands ternaryOr (evaluate leaf a) (evaluate leaf b))
  | .xor a b => memoized nodes memoGeneration (.xor a b)
    (evaluateOperands ternaryXor (evaluate leaf a) (evaluate leaf b))

/-! ## The worklist -/

/-- mirrors src/sec/pdr/PDREngine.cpp:5489-5502 -/
def evaluatedValue (memo : TernaryEvaluationMemo) (e : BoolExpr) :
    Except ReducerFault (Option Bool) := do
  let entry ← memo.read nodes e
  pure (if entry.generation = memoGeneration then entry.value else none)

/-- mirrors src/sec/pdr/PDREngine.cpp:5537-5546 -/
def recomputeNodeValue (memo : TernaryEvaluationMemo) :
    BoolExpr → Except ReducerFault (Option Bool)
  | .var _ => pure none
  | .not a => do
    let lhs ← evaluatedValue nodes memoGeneration memo a
    pure (ternaryNot lhs)
  | .and a b => do
    let lhs ← evaluatedValue nodes memoGeneration memo a
    let rhs ← evaluatedValue nodes memoGeneration memo b
    pure (ternaryAnd lhs rhs)
  | .or a b => do
    let lhs ← evaluatedValue nodes memoGeneration memo a
    let rhs ← evaluatedValue nodes memoGeneration memo b
    pure (ternaryOr lhs rhs)
  | .xor a b => do
    let lhs ← evaluatedValue nodes memoGeneration memo a
    let rhs ← evaluatedValue nodes memoGeneration memo b
    pure (ternaryXor lhs rhs)

/-- A memo and the nodes to recompute in it. -/
abbrev PropagationState := TernaryEvaluationMemo × List BoolExpr

def enqueueParent (state : PropagationState) (parent : BoolExpr) :
    Except ReducerFault PropagationState := do
  let entry ← state.1.read nodes parent
  if entry.generation ≠ memoGeneration ∨ entry.queuedGeneration = memoGeneration then pure state
  else
    pure (state.1.write parent { entry with queuedGeneration := memoGeneration },
      state.2 ++ [parent])

/-- mirrors src/sec/pdr/PDREngine.cpp:5548-5561 -/
def enqueueComputedParents (e : BoolExpr) (state : PropagationState) :
    Except ReducerFault PropagationState :=
  (nodes.ternaryParentNodes e).foldlM (enqueueParent nodes memoGeneration) state

/-- An unchanged value stops the propagation. -/
def updateNodeValue (e : BoolExpr) (value : Option Bool) (state : PropagationState) :
    Except ReducerFault PropagationState := do
  let entry ← state.1.read nodes e
  if entry.value = value then pure state
  else
    enqueueComputedParents nodes memoGeneration e
      (state.1.write e { entry with value := value }, state.2)

/-- The variable nodes of one local symbol: at most one, since nodes are shared.
mirrors src/sec/pdr/PDREngine.cpp:5579-5596 -/
def updateVariableNodes (value : Option Bool) (state : PropagationState) (localSymbol : Nat) :
    Except ReducerFault PropagationState :=
  if .var localSymbol ∈ nodes.exprs then do
    let entry ← state.1.read nodes (.var localSymbol)
    if entry.generation ≠ memoGeneration then pure state
    else updateNodeValue nodes memoGeneration (.var localSymbol) value state
  else pure state

/-- mirrors src/sec/pdr/PDREngine.cpp:5603-5617 -/
def drainWorklist : Nat → PropagationState → Except ReducerFault TernaryEvaluationMemo
  | _, (memo, []) => pure memo
  | 0, (_, _ :: _) => .error .outOfFuel
  | fuel + 1, (memo, e :: worklist) => do
    let entry ← memo.read nodes e
    let memo := memo.write e { entry with queuedGeneration := 0 }
    let value ← recomputeNodeValue nodes memoGeneration memo e
    let state ← updateNodeValue nodes memoGeneration e value (memo, worklist)
    drainWorklist fuel state

end Evaluate

/-! ## The reducer -/

namespace PdrTernaryModelReducer

/-- The contents of the symbol maps by their address; symbols below 2 are constants.
mirrors src/sec/pdr/PDREngine.cpp:5611-5621 -/
def mappedSymbol (maps : Nat → List (Nat × Nat)) (symbolMap : Option Nat) (s : Nat) : Option Nat :=
  if s < 2 then some s
  else match symbolMap with
    | none => some s
    | some address => (maps address).lookup s

/-- mirrors src/sec/pdr/PDREngine.cpp:1731-1765 -/
def mappedTernarySupport (maps : Nat → List (Nat × Nat)) (root : PdrTernarySimulationRoot) :
    List Nat :=
  ((sortedSymbols root.formula.getSupportVars).filterMap (mappedSymbol maps root.symbolMap)).filter
    (2 ≤ ·)

end PdrTernaryModelReducer

structure PdrTernaryModelReducer where
  cache : PdrFormulaSupportCache
  memoGeneration : Nat
  roots : List PdrTernarySimulationRoot
  assignments : Nat → Option TernaryAssignment
  changedAssignmentSymbols : List Nat := []

namespace PdrTernaryModelReducer

/-- One root of the constructor's loop. -/
def enterRoot (cache : PdrFormulaSupportCache) (root : PdrTernarySimulationRoot) :
    PdrFormulaSupportCache :=
  let nodes := cache.nodes.ternaryNodeIndex root.formula
  { cache with
    nodes := nodes
    memos := Function.update cache.memos root.symbolMap
      ((cache.memos root.symbolMap).resize nodes.exprs.length) }

/-- Cube literals first, then the other support symbols that the solver holds. -/
def initialAssignments (maps : Nat → List (Nat × Nat)) (hasSymbol : Nat → Bool)
    (model : Nat → Bool) (roots : List PdrTernarySimulationRoot) (modelCube : StateCube)
    (s : Nat) : Option TernaryAssignment :=
  match modelCube.find? (·.symbol = s) with
  | some literal => some ⟨literal.value, false⟩
  | none =>
    if hasSymbol s && roots.any fun root => decide (s ∈ mappedTernarySupport maps root) then
      some ⟨model s, false⟩
    else none

/-- mirrors src/sec/pdr/PDREngine.cpp:5318-5385 -/
def construct (maps : Nat → List (Nat × Nat)) (hasSymbol : Nat → Bool) (model : Nat → Bool)
    (roots : List PdrTernarySimulationRoot) (modelCube : StateCube)
    (cache : PdrFormulaSupportCache) : PdrTernaryModelReducer where
  cache := roots.foldl enterRoot
    { cache with ternaryEvaluationGeneration := cache.ternaryEvaluationGeneration + 1 }
  memoGeneration := cache.ternaryEvaluationGeneration + 1
  roots := roots
  assignments := initialAssignments maps hasSymbol model roots modelCube

variable (r : PdrTernaryModelReducer)

/-- mirrors src/sec/pdr/PDREngine.cpp:5478-5487 -/
def assignmentValue (s : Nat) : Option Bool :=
  if s < 2 then some (s == 1)
  else match r.assignments s with
    | none => none
    | some a => if a.unknown then none else some a.value

/-- mirrors src/sec/pdr/PDREngine.cpp:5463-5476 -/
def setAssignmentUnknown (s : Nat) (unknown : Bool) :
    Except ReducerFault PdrTernaryModelReducer :=
  match r.assignments s with
  | none => .error (.missingAssignment s)
  | some a =>
    if a.unknown = unknown then pure r
    else pure { r with
      assignments := Function.update r.assignments s (some { a with unknown := unknown })
      changedAssignmentSymbols :=
        if s ∈ r.changedAssignmentSymbols then r.changedAssignmentSymbols
        else r.changedAssignmentSymbols ++ [s] }

def setMemo (symbolMap : Option Nat) (memo : TernaryEvaluationMemo) : PdrTernaryModelReducer :=
  { r with cache := { r.cache with memos := Function.update r.cache.memos symbolMap memo } }

section Maps
variable (maps : Nat → List (Nat × Nat))

def leafValue (symbolMap : Option Nat) (s : Nat) : Option Bool :=
  (mappedSymbol maps symbolMap s).bind r.assignmentValue

/-- mirrors src/sec/pdr/PDREngine.cpp:5345-5371 -/
def localSymbolsByMappedSymbol (symbolMap : Option Nat) (changed : Nat) : List Nat :=
  sortedSymbols ((r.roots.filter (·.symbolMap = symbolMap)).foldr
    (fun root X => root.formula.getSupportVars ∪ X) ∅) |>.filter fun s =>
      decide (2 ≤ changed) && decide (mappedSymbol maps symbolMap s = some changed)

/-- The symbol maps of the roots. -/
def symbolMaps : List (Option Nat) := (r.roots.map (·.symbolMap)).dedup

def updateChangedVariables (symbolMap : Option Nat) (state : PropagationState) (changed : Nat) :
    Except ReducerFault PropagationState :=
  (r.localSymbolsByMappedSymbol maps symbolMap changed).foldlM
    (updateVariableNodes r.cache.nodes r.memoGeneration (r.assignmentValue changed)) state

def propagateMemo (fuel : Nat) (symbolMap : Option Nat) :
    Except ReducerFault TernaryEvaluationMemo := do
  let state ← r.changedAssignmentSymbols.foldlM (r.updateChangedVariables maps symbolMap)
    (r.cache.memos symbolMap, [])
  drainWorklist r.cache.nodes r.memoGeneration fuel state

/-- mirrors src/sec/pdr/PDREngine.cpp:5563-5609 -/
def propagateChangedAssignments (fuel : Nat) : Except ReducerFault PdrTernaryModelReducer :=
  if r.changedAssignmentSymbols = [] then pure r
  else do
    let r ← r.symbolMaps.foldlM (fun (r : PdrTernaryModelReducer) symbolMap => do
      let memo ← r.propagateMemo maps fuel symbolMap
      pure (r.setMemo symbolMap memo)) r
    pure { r with changedAssignmentSymbols := [] }

/-- mirrors src/sec/pdr/PDREngine.cpp:5664-5667 -/
def rootHasExpectedValue (root : PdrTernarySimulationRoot) :
    Except ReducerFault (Bool × PdrTernaryModelReducer) := do
  let (value, memo) ← evaluate r.cache.nodes r.memoGeneration (r.leafValue maps root.symbolMap)
    root.formula (r.cache.memos root.symbolMap)
  pure (value == some root.expectedValue, r.setMemo root.symbolMap memo)

def checkRoots : PdrTernaryModelReducer → List PdrTernarySimulationRoot →
    Except ReducerFault (Bool × PdrTernaryModelReducer)
  | r, [] => pure (true, r)
  | r, root :: rest => do
    let (expected, r) ← r.rootHasExpectedValue maps root
    if expected then checkRoots r rest else pure (false, r)

def rootsUsing (s : Nat) : List PdrTernarySimulationRoot :=
  r.roots.filter fun root => decide (s ∈ mappedTernarySupport maps root)

/-- mirrors src/sec/pdr/PDREngine.cpp:5669-5696 -/
def rootsHaveExpectedValues (fuel : Nat) (changedSymbol : Option Nat) :
    Except ReducerFault (Bool × PdrTernaryModelReducer) := do
  let r ← r.propagateChangedAssignments maps fuel
  match changedSymbol with
  | none => checkRoots maps r r.roots
  | some s => checkRoots maps r (r.rootsUsing maps s)

/-- One trial: the symbol is X. -/
def tryUnknown (fuel : Nat) (s : Nat) : Except ReducerFault (Bool × PdrTernaryModelReducer) := do
  let r ← r.setAssignmentUnknown s true
  r.rootsHaveExpectedValues maps fuel (some s)

def reduceLiterals (fuel : Nat) : PdrTernaryModelReducer → StateCube →
    Except ReducerFault (StateCube × PdrTernaryModelReducer)
  | r, [] => pure ([], r)
  | r, literal :: rest =>
    if (r.rootsUsing maps literal.symbol).isEmpty then reduceLiterals fuel r rest
    else do
      let (expected, r) ← r.tryUnknown maps fuel literal.symbol
      if expected then reduceLiterals fuel r rest
      else do
        let r ← r.setAssignmentUnknown literal.symbol false
        let (reduced, r) ← reduceLiterals fuel r rest
        pure (literal :: reduced, r)

/-- mirrors src/sec/pdr/PDREngine.cpp:5387-5435 -/
def reduce (fuel : Nat) (modelCube : StateCube) :
    Except ReducerFault (StateCube × PdrTernaryModelReducer) :=
  if r.roots.isEmpty then pure (modelCube, r)
  else do
    let (expected, r) ← r.rootsHaveExpectedValues maps fuel none
    if expected then reduceLiterals maps fuel r modelCube else pure (modelCube, r)

end Maps
end PdrTernaryModelReducer

open PdrTernaryModelReducer in
/-- mirrors src/sec/pdr/PDREngine.cpp:5722-5750 -/
def reduceSolvedCubeByTernarySimulation (maps : Nat → List (Nat × Nat)) (fuel : Nat)
    (hasSymbol : Nat → Bool) (model : Nat → Bool) (roots : List PdrTernarySimulationRoot)
    (modelCube : StateCube) (cache : PdrFormulaSupportCache) :
    Except ReducerFault (StateCube × PdrFormulaSupportCache) := do
  let (reduced, r) ← (construct maps hasSymbol model roots modelCube cache).reduce maps fuel
    modelCube
  pure (reduced, r.cache)

end KeplerFormal
