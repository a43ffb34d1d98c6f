import KeplerFormal.Core.Fallible
import KeplerFormal.L1Formula.Substitution

/-!
# Flip-flop models (`naja::NL::SNLDesignModeling`, as read by `src/sec/model`)

A flip-flop model is given by expression tables over the pins and the states of the cell.

* `evalNode`, `BooleanExpression.value`: the value of a table.
* `SequentialState.next`: the next value of a state. Clear and preset act whatever the
  enable is; otherwise the enabled state takes `nextState` and the disabled one holds.
* `buildNode`: the expression of a table over the expressions of its leaves.
* `eval_buildNode`, `mem_support_buildNode`, `buildNode_ok`: its value, its support, and
  that the construction returns for an acyclic table.
-/
namespace KeplerFormal

open Core

/-! ## Tables -/

inductive Operator where
  | Constant
  | Term
  | State
  | Not
  | And
  | Or
  | Xor
  deriving DecidableEq, Repr

/-- The value of an operator over the values of its operands. -/
def Operator.apply : Operator → List Bool → Bool
  | .Not, values => !values.headD false
  | .And, values => values.all id
  | .Or, values => values.any id
  | .Xor, values => values.foldl xor false
  | _, _ => false

/-- One row of a table; terminals, states and operands are referred to by number. -/
structure Node where
  operation : Operator
  constant : Bool
  term : Nat
  state : Nat
  operands : List Nat

/-- `isValid` is the table's own check. -/
structure BooleanExpression where
  nodes : List Node
  root : Nat
  isValid : Bool

namespace BooleanExpression
variable (e : BooleanExpression)

/-- The value of a node; the fuel is the length of the longest path below it. -/
def evalNode (pins states : Nat → Bool) : Nat → Nat → Bool
  | 0, _ => false
  | fuel + 1, nodeID =>
    match e.nodes[nodeID]? with
    | none => false
    | some node =>
      match node.operation with
      | .Constant => node.constant
      | .Term => pins node.term
      | .State => states node.state
      | operation => operation.apply (node.operands.map (evalNode pins states fuel))

def value (pins states : Nat → Bool) : Bool := e.evalNode pins states e.nodes.length e.root

/-- Every operand names a row, a negation has one operand and the other operators have one
at least. -/
structure WellFormed : Prop where
  valid : e.isValid = true
  root : e.root < e.nodes.length
  operands : ∀ node ∈ e.nodes, ∀ o ∈ node.operands, o < e.nodes.length
  arity : ∀ node ∈ e.nodes, node.operation = .Not → node.operands.length = 1
  nonempty : ∀ node ∈ e.nodes, node.operation = .And ∨ node.operation = .Or ∨
    node.operation = .Xor → node.operands ≠ []
  /-- The rows can be ordered so that operands come first. -/
  acyclic : ∃ rank : Nat → Nat, ∀ nodeID node, e.nodes[nodeID]? = some node →
    rank nodeID < e.nodes.length ∧ ∀ o ∈ node.operands, rank o < rank nodeID

end BooleanExpression

/-! ## The reference cell -/

inductive ClearPresetValue where
  | Zero
  | One
  | Hold
  | Toggle
  | Unknown
  deriving DecidableEq, Repr

structure SequentialState where
  nextState : BooleanExpression
  clear : Option BooleanExpression
  preset : Option BooleanExpression
  clearPresetValue : ClearPresetValue

/-- The value under simultaneous clear and preset. -/
def ClearPresetValue.apply (current : Bool) : ClearPresetValue → Bool
  | .Zero => false
  | .One => true
  | .Hold => current
  | .Toggle => !current
  | .Unknown => false

namespace SequentialState
variable (s : SequentialState) (value : BooleanExpression → Bool)

def cleared : Bool := (s.clear.map value).getD false

def preseted : Bool := (s.preset.map value).getD false

/-- The state after the event, for the values of the cell's tables. -/
def next (enable current : Bool) : Bool :=
  if s.cleared value then
    if s.preseted value then s.clearPresetValue.apply current else false
  else if s.preseted value then true
  else if enable then value s.nextState
  else current

/-- The enable matters only where the held and the taken value differ. -/
theorem next_enable_iff (enable current : Bool) :
    s.next value true current = s.next value enable current ↔
      (s.cleared value = false → s.preseted value = false → enable = false →
        value s.nextState = current) := by
  unfold next
  cases s.cleared value <;> cases s.preseted value <;> cases enable <;> simp

end SequentialState

/-! ## Building a table's expression -/

namespace BooleanExpression
variable (e : BooleanExpression) (term state : Nat → Except String BoolExpr)

/-- The operands are joined from left to right.
mirrors src/sec/model/SequentialDesignModel.cpp:1384-1411 -/
def joinOperands (operation : Operator) (operands : List BoolExpr) : Except String BoolExpr :=
  match operation with
  | .Not =>
    match operands with
    | [operand] => .ok (.Not operand)
    | _ => .error "Sequential NOT expression has invalid arity"
  | operation =>
    match operands with
    | [] => .error "Sequential expression has no operands"
    | first :: rest =>
      match operation with
      | .And => .ok (rest.foldl BoolExpr.And first)
      | .Or => .ok (rest.foldl BoolExpr.Or first)
      | .Xor => .ok (rest.foldl BoolExpr.Xor first)
      | _ => .error "Unsupported sequential expression operator"

/-- The source remembers finished nodes, which changes no result.
mirrors src/sec/model/SequentialDesignModel.cpp:1334-1416 (`buildNode`) -/
def buildNode : Nat → Nat → Except String BoolExpr
  | 0, _ => .error "Sequential expression operand is out of range"
  | fuel + 1, nodeID =>
    match e.nodes[nodeID]? with
    | none => .error "Sequential expression operand is out of range"
    | some node =>
      match node.operation with
      | .Constant => .ok (if node.constant then .createTrue else .createFalse)
      | .Term => term node.term
      | .State => state node.state
      | operation => node.operands.mapM (buildNode fuel) >>= joinOperands operation

/-- mirrors src/sec/model/SequentialDesignModel.cpp:1316-1418 -/
def build : Except String BoolExpr :=
  if e.isValid then e.buildNode term state e.nodes.length e.root
  else .error "Invalid Naja sequential expression"

/-! ## What the construction computes -/

theorem eval_foldl {σ : Valuation} {factory : BoolExpr → BoolExpr → BoolExpr}
    {op : Bool → Bool → Bool} (h : ∀ a b, (factory a b).eval σ = op (a.eval σ) (b.eval σ))
    (first : BoolExpr) (rest : List BoolExpr) :
    (rest.foldl factory first).eval σ = (rest.map (BoolExpr.eval σ)).foldl op (first.eval σ) := by
  induction rest generalizing first with
  | nil => rfl
  | cons a rest ih => rw [List.foldl_cons, ih, List.map_cons, List.foldl_cons, h]

theorem foldl_and (first : Bool) (rest : List Bool) :
    rest.foldl and first = (first && rest.all id) := by
  induction rest generalizing first with
  | nil => simp
  | cons a rest ih => simp [ih, Bool.and_assoc]

theorem foldl_or (first : Bool) (rest : List Bool) :
    rest.foldl or first = (first || rest.any id) := by
  induction rest generalizing first with
  | nil => simp
  | cons a rest ih => simp [ih, Bool.or_assoc]

theorem eval_joinOperands {operation : Operator} {operands : List BoolExpr} {r : BoolExpr}
    (h : joinOperands operation operands = .ok r) (σ : Valuation) :
    r.eval σ = operation.apply (operands.map (BoolExpr.eval σ)) := by
  unfold joinOperands at h
  split at h
  · split at h
    · cases h
      simp [Operator.apply]
    · cases h
  · split at h
    · cases h
    · split at h
      · cases h
        simp [Operator.apply, eval_foldl (BoolExpr.eval_And σ), foldl_and]
      · cases h
        simp [Operator.apply, eval_foldl (BoolExpr.eval_Or σ), foldl_or]
      · cases h
        simp [Operator.apply, eval_foldl (BoolExpr.eval_Xor σ)]
      · cases h

theorem joinOperands_ok {operation : Operator} {operands : List BoolExpr}
    (hop : operation = .Not ∨ operation = .And ∨ operation = .Or ∨ operation = .Xor)
    (hnot : operation = .Not → operands.length = 1)
    (hnary : operation = .And ∨ operation = .Or ∨ operation = .Xor → operands ≠ []) :
    ∃ r, joinOperands operation operands = .ok r := by
  rcases hop with rfl | rfl | rfl | rfl
  · obtain ⟨a, rfl⟩ := List.length_eq_one_iff.mp (hnot rfl)
    exact ⟨_, rfl⟩
  · obtain ⟨a, rest, rfl⟩ := List.exists_cons_of_ne_nil (hnary (by simp))
    exact ⟨_, rfl⟩
  · obtain ⟨a, rest, rfl⟩ := List.exists_cons_of_ne_nil (hnary (by simp))
    exact ⟨_, rfl⟩
  · obtain ⟨a, rest, rfl⟩ := List.exists_cons_of_ne_nil (hnary (by simp))
    exact ⟨_, rfl⟩

theorem mem_support_foldl {factory : BoolExpr → BoolExpr → BoolExpr} {s : Nat}
    (h : ∀ a b, s ∈ (factory a b).getSupportVars → s ∈ a.getSupportVars ∨ s ∈ b.getSupportVars)
    {first : BoolExpr} {rest : List BoolExpr} (hs : s ∈ (rest.foldl factory first).getSupportVars) :
    ∃ a ∈ first :: rest, s ∈ a.getSupportVars := by
  induction rest generalizing first with
  | nil => exact ⟨first, List.mem_cons_self, hs⟩
  | cons a rest ih =>
    obtain ⟨b, hb, hsb⟩ := ih hs
    rcases List.mem_cons.mp hb with rfl | hb
    · rcases h first a hsb with hfirst | ha
      · exact ⟨first, List.mem_cons_self, hfirst⟩
      · exact ⟨a, by simp, ha⟩
    · exact ⟨b, by simp [hb], hsb⟩

theorem mem_support_joinOperands {operation : Operator} {operands : List BoolExpr} {r : BoolExpr}
    (h : joinOperands operation operands = .ok r) {s : Nat} (hs : s ∈ r.getSupportVars)
    (h2 : 2 ≤ s) : ∃ a ∈ operands, s ∈ a.getSupportVars := by
  unfold joinOperands at h
  split at h
  · split at h
    · cases h
      exact ⟨_, List.mem_singleton_self _, BoolExpr.mem_support_Not hs h2⟩
    · cases h
  · split at h
    · cases h
    · split at h
      · cases h
        exact mem_support_foldl (fun a b hab => BoolExpr.mem_support_And hab h2) hs
      · cases h
        exact mem_support_foldl (fun a b hab => BoolExpr.mem_support_Or hab h2) hs
      · cases h
        exact mem_support_foldl (fun a b hab => BoolExpr.mem_support_Xor hab h2) hs
      · cases h

variable {e term state}

/-- A row of the table that is neither a constant nor a leaf. -/
theorem buildNode_operator {fuel nodeID : Nat} {node : Node} {r : BoolExpr}
    (hnode : e.nodes[nodeID]? = some node)
    (hop : node.operation = .Not ∨ node.operation = .And ∨ node.operation = .Or ∨
      node.operation = .Xor)
    (h : e.buildNode term state (fuel + 1) nodeID = .ok r) :
    ∃ operands, node.operands.mapM (e.buildNode term state fuel) = .ok operands ∧
      joinOperands node.operation operands = .ok r := by
  rw [buildNode, hnode] at h
  rcases hop with hop | hop | hop | hop <;> simp only [hop] at h ⊢ <;> exact bind_ok.mp h

theorem operator_cases (operation : Operator) :
    operation = .Constant ∨ operation = .Term ∨ operation = .State ∨
      (operation = .Not ∨ operation = .And ∨ operation = .Or ∨ operation = .Xor) := by
  cases operation <;> simp

theorem evalNode_operator {pins states : Nat → Bool} {fuel nodeID : Nat} {node : Node}
    (hnode : e.nodes[nodeID]? = some node)
    (hop : node.operation = .Not ∨ node.operation = .And ∨ node.operation = .Or ∨
      node.operation = .Xor) :
    e.evalNode pins states (fuel + 1) nodeID =
      node.operation.apply (node.operands.map (e.evalNode pins states fuel)) := by
  rw [evalNode, hnode]
  rcases hop with hop | hop | hop | hop <;> simp only [hop]

theorem eval_buildNode {σ : Valuation} {pins states : Nat → Bool}
    (hterm : ∀ t r, term t = .ok r → r.eval σ = pins t)
    (hstate : ∀ i r, state i = .ok r → r.eval σ = states i) {fuel nodeID : Nat} {r : BoolExpr}
    (h : e.buildNode term state fuel nodeID = .ok r) :
    r.eval σ = e.evalNode pins states fuel nodeID := by
  induction fuel generalizing nodeID r with
  | zero => cases h
  | succ fuel ih =>
    cases hnode : e.nodes[nodeID]? with
    | none =>
      rw [buildNode, hnode] at h
      cases h
    | some node =>
      rcases operator_cases node.operation with hop | hop | hop | hop
      · simp only [buildNode, hnode, hop] at h
        cases h
        simp only [evalNode, hnode, hop]
        cases node.constant <;> rfl
      · simp only [buildNode, hnode, hop] at h
        simp only [evalNode, hnode, hop]
        exact hterm _ _ h
      · simp only [buildNode, hnode, hop] at h
        simp only [evalNode, hnode, hop]
        exact hstate _ _ h
      · obtain ⟨operands, hoperands, hjoin⟩ := buildNode_operator hnode hop h
        rw [eval_joinOperands hjoin, evalNode_operator hnode hop,
          mapM_map_eq hoperands fun o _ b hb => ih hb]

/-- The expression reads what its leaves read. -/
theorem mem_support_buildNode {P : Nat → Prop}
    (hterm : ∀ node ∈ e.nodes, node.operation = .Term → ∀ r, term node.term = .ok r →
      ∀ s ∈ r.getSupportVars, 2 ≤ s → P s)
    (hstate : ∀ node ∈ e.nodes, node.operation = .State → ∀ r, state node.state = .ok r →
      ∀ s ∈ r.getSupportVars, 2 ≤ s → P s) {fuel nodeID : Nat} {r : BoolExpr}
    (h : e.buildNode term state fuel nodeID = .ok r) {s : Nat} (hs : s ∈ r.getSupportVars)
    (h2 : 2 ≤ s) : P s := by
  induction fuel generalizing nodeID r with
  | zero => cases h
  | succ fuel ih =>
    cases hnode : e.nodes[nodeID]? with
    | none =>
      rw [buildNode, hnode] at h
      cases h
    | some node =>
      have hmem : node ∈ e.nodes := List.mem_of_getElem? hnode
      rcases operator_cases node.operation with hop | hop | hop | hop
      · simp only [buildNode, hnode, hop] at h
        cases h
        cases hconst : node.constant <;>
          simp [hconst, BoolExpr.createTrue, BoolExpr.createFalse, BoolExpr.getSupportVars] at hs <;>
            omega
      · simp only [buildNode, hnode, hop] at h
        exact hterm node hmem hop r h s hs h2
      · simp only [buildNode, hnode, hop] at h
        exact hstate node hmem hop r h s hs h2
      · obtain ⟨operands, hoperands, hjoin⟩ := buildNode_operator hnode hop h
        obtain ⟨a, ha, hsa⟩ := mem_support_joinOperands hjoin hs h2
        exact mapM_forall (P := fun a => s ∈ a.getSupportVars → P s) hoperands
          (fun o b hb hsb => ih hb hsb) a ha hsa

/-- The construction returns on a well-formed table whose leaves have expressions. -/
theorem buildNode_ok (hwf : e.WellFormed)
    (hterm : ∀ node ∈ e.nodes, node.operation = .Term → ∃ r, term node.term = .ok r)
    (hstate : ∀ node ∈ e.nodes, node.operation = .State → ∃ r, state node.state = .ok r) :
    ∃ r, e.build term state = .ok r := by
  obtain ⟨rank, hrank⟩ := hwf.acyclic
  have hbuild : ∀ fuel nodeID, nodeID < e.nodes.length → rank nodeID < fuel →
      ∃ r, e.buildNode term state fuel nodeID = .ok r := by
    intro fuel
    induction fuel with
    | zero =>
      intro nodeID _ h
      omega
    | succ fuel ih =>
      intro nodeID hlt hfuel
      obtain ⟨node, hnode⟩ : ∃ node, e.nodes[nodeID]? = some node :=
        ⟨_, List.getElem?_eq_getElem hlt⟩
      have hmem : node ∈ e.nodes := List.mem_of_getElem? hnode
      rcases operator_cases node.operation with hop | hop | hop | hop
      · simp only [buildNode, hnode, hop]
        exact ⟨_, rfl⟩
      · simp only [buildNode, hnode, hop]
        exact hterm node hmem hop
      · simp only [buildNode, hnode, hop]
        exact hstate node hmem hop
      · obtain ⟨operands, hoperands⟩ := mapM_ok fun o ho =>
          ih o (hwf.operands node hmem o ho) (by
            have := (hrank nodeID node hnode).2 o ho
            omega)
        obtain ⟨r, hr⟩ := @joinOperands_ok _ operands hop
          (fun hnot => by rw [mapM_length hoperands, hwf.arity node hmem hnot])
          (fun hnary hnil => by
            apply hwf.nonempty node hmem hnary
            rw [← List.length_eq_zero_iff, ← mapM_length hoperands, hnil, List.length_nil])
        refine ⟨r, ?_⟩
        simp only [buildNode, hnode]
        rcases hop with hop | hop | hop | hop <;> simp only [hop] at hr ⊢ <;>
          exact bind_ok.mpr ⟨operands, hoperands, hr⟩
  unfold build
  rw [if_pos hwf.valid]
  exact hbuild _ _ hwf.root (hrank _ _ (List.getElem?_eq_getElem hwf.root)).1

end BooleanExpression

end KeplerFormal
