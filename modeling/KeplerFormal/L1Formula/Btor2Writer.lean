import KeplerFormal.Core.NodeDocument
import KeplerFormal.L1Formula.ExprTraversal

/-!
# The streaming BTOR2 writer (`src/formal/Btor2Writer.cpp`)

The writer appends one numbered line for each node and remembers what kind of node it was. A
call that is rejected has checked its arguments before it appends anything; only `expression`
may have written the nodes below the one it fails at.
-/
namespace KeplerFormal.Btor2Writer

open Core

/-- `std::string`. -/
abbrev Bytes := List UInt8

def ascii (s : String) : Bytes := s.toList.map fun c => c.toNat.toUInt8

/-! ## Document -/

inductive BinaryOp where
  | and
  | or
  | xor
  | eq
  deriving DecidableEq, Repr

inductive PropertyOp where
  | constraint
  | bad
  | output
  deriving DecidableEq, Repr

/-- What follows the number of a node. -/
inductive LineBody where
  | sort
  | input (symbol : Bytes)
  | state (symbol : Bytes)
  | const (value : Bool)
  | not (value : Nat)
  | binary (op : BinaryOp) (left right : Nat)
  | init (state value : Nat)
  | next (state value : Nat)
  | property (op : PropertyOp) (value : Nat) (symbol : Bytes)
  deriving DecidableEq, Repr

inductive DocLine where
  | node (id : Nat) (body : LineBody)
  | comment (text : Bytes)
  deriving DecidableEq, Repr

inductive NodeKind where
  | other
  | value
  | state
  | input
  deriving DecidableEq, Repr

/-! ### Text -/

def hexDigit (n : Nat) : UInt8 := (ascii "0123456789ABCDEF").getD n 0

def isPlain (c : UInt8) : Bool := 32 < c ∧ c < 127 ∧ c ≠ 59 ∧ c ≠ 37

def encodeByte (c : UInt8) : Bytes :=
  if isPlain c then [c] else [37, hexDigit (c.toNat / 16), hexDigit (c.toNat % 16)]

/-- A blank in front of every name that is not empty; all other bytes but the plain ones are
written with a percent sign.
mirrors src/formal/Btor2Writer.cpp:18-36 -/
def symbolSuffix (symbol : Bytes) : Bytes :=
  if symbol.isEmpty then [] else 32 :: symbol.flatMap encodeByte

def number (n : Nat) : Bytes := (Nat.toDigits 10 n).map fun c => c.toNat.toUInt8

def BinaryOp.text : BinaryOp → String
  | .and => "and"
  | .or => "or"
  | .xor => "xor"
  | .eq => "eq"

def PropertyOp.text : PropertyOp → String
  | .constraint => "constraint"
  | .bad => "bad"
  | .output => "output"

/-- The texts that the calls hand to `emit`; the sort of all values is node 1. -/
def LineBody.text : LineBody → Bytes
  | .sort => ascii "sort bitvec 1"
  | .input symbol => ascii "input 1" ++ symbolSuffix symbol
  | .state symbol => ascii "state 1" ++ symbolSuffix symbol
  | .const value => ascii (if value then "const 1 1" else "const 1 0")
  | .not value => ascii "not 1 " ++ number value
  | .binary op left right => ascii op.text ++ ascii " 1 " ++ number left ++ [32] ++ number right
  | .init target value => ascii "init 1 " ++ number target ++ [32] ++ number value
  | .next target value => ascii "next 1 " ++ number target ++ [32] ++ number value
  | .property op value symbol => ascii op.text ++ [32] ++ number value ++ symbolSuffix symbol

/-- One line without its end.
mirrors src/formal/Btor2Writer.cpp:38-51 and :255-265 -/
def DocLine.text : DocLine → Bytes
  | .node id body => number id ++ [32] ++ body.text
  | .comment text => ascii "; " ++ text.map fun c => if 32 ≤ c ∧ c ≠ 127 then c else 32

/-! ### Meaning -/

def nodeOf : DocLine → Option (Nat × LineBody)
  | .node id body => some (id, body)
  | .comment _ => none

def nodeLines (doc : List DocLine) : NodeDocument.Document LineBody := doc.filterMap nodeOf

def LineBody.kind : LineBody → NodeKind
  | .input _ => .input
  | .state _ => .state
  | .const _ | .not _ | .binary .. => .value
  | _ => .other

/-- The nodes whose values a line uses. -/
def LineBody.valueRefs : LineBody → List Nat
  | .not value => [value]
  | .binary _ left right => [left, right]
  | .init _ value | .next _ value | .property _ value _ => [value]
  | _ => []

def LineBody.stateRefs : LineBody → List Nat
  | .init target _ | .next target _ => [target]
  | _ => []

def BinaryOp.eval : BinaryOp → Bool → Bool → Bool
  | .and, a, b => a && b
  | .or, a, b => a || b
  | .xor, a, b => a ^^ b
  | .eq, a, b => a == b

/-- The value of one line; inputs and states have the values `leaf`. -/
def lineValue (leaf : Nat → Bool) (id : Nat) : LineBody → (Nat → Bool) → Bool
  | .input _, _ | .state _, _ => leaf id
  | .const value, _ => value
  | .not value, vals => !vals value
  | .binary op left right, vals => op.eval (vals left) (vals right)
  | _, _ => false

def docValue (doc : List DocLine) (leaf : Nat → Bool) : Nat → Bool :=
  NodeDocument.values (lineValue leaf) false (nodeLines doc)

/-! ## The calls -/

structure Writer where
  doc : List DocLine := [.node 1 .sort]
  nodes : List NodeKind := [.other, .other]
  dependsOnInput : List Bool := [false, false]
  constantFalse : Nat := 0
  constantTrue : Nat := 0
  variableNodes : List (Nat × Nat) := []
  expressions : List (BoolExpr × Nat) := []
  initialized : List Nat := []
  transitioned : List Nat := []

namespace Writer

/-- mirrors src/formal/Btor2Writer.cpp:38-51 -/
def emit (w : Writer) (body : LineBody) : Except String (Nat × Writer) :=
  if 2 ^ 63 - 1 ≤ w.nodes.length then .error "BTOR2 node ID limit exceeded"
  else
    .ok (w.nodes.length,
      { w with
        doc := w.doc ++ [.node w.nodes.length body]
        nodes := w.nodes ++ [body.kind]
        dependsOnInput := w.dependsOnInput ++ [decide (body.kind = .input)] })

/-- mirrors src/formal/Btor2Writer.cpp:53-57 -/
def requireValue (w : Writer) (node : Nat) : Except String Unit :=
  match w.nodes[node]? with
  | none | some .other => .error s!"Invalid BTOR2 value node {node}"
  | _ => .ok ()

/-- mirrors src/formal/Btor2Writer.cpp:59-63 -/
def requireState (w : Writer) (node : Nat) : Except String Unit :=
  match w.nodes[node]? with
  | some .state => .ok ()
  | _ => .error s!"Invalid BTOR2 state node {node}"

/-- mirrors src/formal/Btor2Writer.cpp:65-68 -/
def input (w : Writer) (symbol : Bytes) : Except String (Nat × Writer) := w.emit (.input symbol)

/-- mirrors src/formal/Btor2Writer.cpp:70-73 -/
def state (w : Writer) (symbol : Bytes) : Except String (Nat × Writer) := w.emit (.state symbol)

def constantOf (w : Writer) (value : Bool) : Nat :=
  if value then w.constantTrue else w.constantFalse

/-- mirrors src/formal/Btor2Writer.cpp:75-82 -/
def constant (w : Writer) (value : Bool) : Except String (Nat × Writer) :=
  if w.constantOf value ≠ 0 then .ok (w.constantOf value, w)
  else do
    let (result, w) ← w.emit (.const value)
    .ok (result, if value then { w with constantTrue := result }
      else { w with constantFalse := result })

/-- mirrors src/formal/Btor2Writer.cpp:84-95 -/
def bindVariable (w : Writer) (symbol : Nat) (node : Nat) : Except String Writer := do
  w.requireValue node
  if symbol < 2 ∨ symbol = 2 ^ 64 - 1 then
    .error s!"Cannot bind reserved BoolExpr variable {symbol}"
  else
    match w.variableNodes.lookup symbol with
    | none => .ok { w with variableNodes := (symbol, node) :: w.variableNodes }
    | some bound =>
      if bound = node then .ok w else .error s!"BoolExpr variable already bound: {symbol}"

/-- A value computed from others; it depends on inputs when one of them does. -/
def emitOperator (w : Writer) (body : LineBody) : Except String (Nat × Writer) := do
  let (result, w') ← w.emit body
  .ok (result,
    { w' with
      dependsOnInput := w'.dependsOnInput.set result
        (body.valueRefs.any fun node => w'.dependsOnInput.getD node false) })

/-- mirrors src/formal/Btor2Writer.cpp:97-104 -/
def logicalNot (w : Writer) (value : Nat) : Except String (Nat × Writer) := do
  w.requireValue value
  w.emitOperator (.not value)

/-- mirrors src/formal/Btor2Writer.cpp:106-131 -/
def binary (w : Writer) (op : BinaryOp) (left right : Nat) :
    Except String (Nat × Writer) := do
  w.requireValue left
  w.requireValue right
  w.emitOperator (.binary op left right)

/-- The entry that a node needs for its operand. -/
def expressionAt (w : Writer) (node : BoolExpr) : Except String Nat :=
  match w.expressions.lookup node with
  | some id => .ok id
  | none => .error "unordered_map::at"

/-- A node gets its entry. -/
def enter (w : Writer) (node : BoolExpr) (id : Nat) : Writer :=
  { w with expressions := (node, id) :: w.expressions }

/-- A node of an expression whose operands have entries.
mirrors src/formal/Btor2Writer.cpp:151-162 and :182-199 -/
def finishNode (node : BoolExpr) (w : Writer) : Except String Writer :=
  match node with
  | .var id =>
    if id < 2 then do
      let (result, w) ← w.constant (id = 1)
      .ok (w.enter node result)
    else
      match w.variableNodes.lookup id with
      | none => .error s!"Unbound BoolExpr variable in BTOR2 export: {id}"
      | some bound => .ok (w.enter node bound)
  | .not a => do
    let (result, w) ← w.logicalNot (← w.expressionAt a)
    .ok (w.enter node result)
  | .and a b => do
    let (result, w) ← w.binary .and (← w.expressionAt a) (← w.expressionAt b)
    .ok (w.enter node result)
  | .or a b => do
    let (result, w) ← w.binary .or (← w.expressionAt a) (← w.expressionAt b)
    .ok (w.enter node result)
  | .xor a b => do
    let (result, w) ← w.binary .xor (← w.expressionAt a) (← w.expressionAt b)
    .ok (w.enter node result)

def expressionTraversal : Traversal BoolExpr Writer String where
  children := BoolExpr.operands
  done w node := (w.expressions.lookup node).isSome
  finish node w := (finishNode node w).mapError fun e => (e, w)
  skipDone := false
  weight := BoolExpr.weight
  weight_children := BoolExpr.weight_operands

/-- The writer keeps what was written before a failure.
mirrors src/formal/Btor2Writer.cpp:133-201 -/
def expression (w : Writer) (expr : BoolExpr) : Except (String × Writer) (Nat × Writer) := do
  let w' ← expressionTraversal.visit expr w
  match w'.expressions.lookup expr with
  | some id => .ok (id, w')
  | none => .error ("unordered_map::at", w')

/-- mirrors src/formal/Btor2Writer.cpp:203-218 -/
def stateRelation (w : Writer) (body : LineBody) (op : String) (state value : Nat)
    (assigned : List Nat) : Except String (Nat × Writer) := do
  w.requireState state
  w.requireValue value
  if state ∈ assigned then .error s!"Duplicate BTOR2 {op} for state {state}" else w.emit body

/-- mirrors src/formal/Btor2Writer.cpp:220-230 -/
def init (w : Writer) (state value : Nat) : Except String (Nat × Writer) := do
  w.requireState state
  w.requireValue value
  if state ≤ value then .error "BTOR2 initialization value must precede its state"
  else if w.dependsOnInput.getD value false then
    .error "BTOR2 initialization cannot depend on inputs"
  else do
    let (result, w) ← w.stateRelation (.init state value) "init" state value w.initialized
    .ok (result, { w with initialized := state :: w.initialized })

/-- mirrors src/formal/Btor2Writer.cpp:232-234 -/
def next (w : Writer) (state value : Nat) : Except String (Nat × Writer) := do
  let (result, w) ← w.stateRelation (.next state value) "next" state value w.transitioned
  .ok (result, { w with transitioned := state :: w.transitioned })

/-- mirrors src/formal/Btor2Writer.cpp:236-253 -/
def property (w : Writer) (op : PropertyOp) (value : Nat) (symbol : Bytes) :
    Except String (Nat × Writer) := do
  w.requireValue value
  w.emit (.property op value symbol)

/-- mirrors src/formal/Btor2Writer.cpp:255-265 -/
def comment (w : Writer) (text : Bytes) : Writer := { w with doc := w.doc ++ [.comment text] }

end Writer

/-! ## Sequences of calls -/

inductive Call where
  | input (symbol : Bytes)
  | state (symbol : Bytes)
  | constant (value : Bool)
  | bindVariable (symbol : Nat) (node : Nat)
  | expression (expr : BoolExpr)
  | logicalNot (value : Nat)
  | binary (op : BinaryOp) (left right : Nat)
  | init (state value : Nat)
  | next (state value : Nat)
  | property (op : PropertyOp) (value : Nat) (symbol : Bytes)
  | comment (text : Bytes)

/-- A call that checks its arguments first leaves the writer as it is when it is rejected. -/
def orKeep (w : Writer) (run : Except String (Nat × Writer)) :
    Except (String × Writer) Writer :=
  match run with
  | .ok (_, w') => .ok w'
  | .error e => .error (e, w)

def Writer.call (w : Writer) : Call → Except (String × Writer) Writer
  | .input symbol => orKeep w (w.input symbol)
  | .state symbol => orKeep w (w.state symbol)
  | .constant value => orKeep w (w.constant value)
  | .bindVariable symbol node => orKeep w ((w.bindVariable symbol node).map fun w' => (node, w'))
  | .expression expr => (w.expression expr).map Prod.snd
  | .logicalNot value => orKeep w (w.logicalNot value)
  | .binary op left right => orKeep w (w.binary op left right)
  | .init state value => orKeep w (w.init state value)
  | .next state value => orKeep w (w.next state value)
  | .property op value symbol => orKeep w (w.property op value symbol)
  | .comment text => .ok (w.comment text)

/-- The writer after a call, accepted or not. -/
def Writer.after (w : Writer) (call : Call) : Writer :=
  match w.call call with
  | .ok w' => w'
  | .error (_, w') => w'

def runCalls (calls : List Call) : Writer := calls.foldl Writer.after {}

end KeplerFormal.Btor2Writer
