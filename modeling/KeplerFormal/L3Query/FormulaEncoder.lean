import KeplerFormal.Core.Memo
import KeplerFormal.Core.Tseitin
import KeplerFormal.L3Query.CraigQuery

/-!
# Clauses of transition formulas (`src/sec/imc/CraigInterpolatingModelChecker.cpp`)

Transition formulas become clauses in one of two ways: `FrameFormulaEncoder` names every node, and
`ConstantAwareFrameFormulaEncoder` first substitutes the constants of the frame, so that cones
behind a constant are never encoded. Pointer maps are association lists over formulas, stacks are
recursions that keep the map.

* `GateEncoder`: the solver and the literal of true, with the gates over two literals.
* `encode`, `encodeImpl`: the two encoders.
* `Yields`, `Encodes`: what a gate and a node have to give.
* `encode_encodes`, `encodeImpl_encodes`: a returned literal has the value of its formula.
-/
namespace KeplerFormal

open Core

/-- mirrors src/sat/SATSolverWrapper.h:111-115 -/
inductive CraigVariablePartition where
  | ALocal
  | BLocal
  | Global
  deriving DecidableEq, Repr

/-- mirrors src/sat/SATSolverWrapper.h:117-120 -/
inductive CraigClausePartition where
  | A
  | B
  deriving DecidableEq, Repr

/-- A solver with labels, and the leaf literals of one frame. -/
abbrev CraigCnf := CnfState Nat CraigVariablePartition CraigClausePartition

namespace CraigCnf

def setCraigVariablePartition (v : CraigVariablePartition) (a : CraigCnf) : CraigCnf :=
  { a with variablePartition := v }

def setCraigClausePartition (c : CraigClausePartition) (a : CraigCnf) : CraigCnf :=
  { a with clausePartition := c }

def setCraigPartitions (v : CraigVariablePartition) (c : CraigClausePartition) (a : CraigCnf) :
    CraigCnf := setCraigClausePartition c (setCraigVariablePartition v a)

/-- The literal of a leaf, new where it is missing. -/
def leaf (select : CraigCnf → CraigCnf) (symbol : Nat) (a : CraigCnf) : Lit Nat × CraigCnf :=
  match a.leafLits.lookup symbol with
  | some l => (l, a)
  | none => (select a).addLeaf symbol

/-- The symbol has a literal. -/
def Present (a : CraigCnf) (s : Nat) : Prop := (a.leafLits.lookup s).isSome = true

end CraigCnf

open CraigCnf

/-! ## Literals of nodes -/

/-- A solver, with the literal of true where there is one. -/
structure GateEncoder where
  cnf : CraigCnf
  trueLit : Option (Lit Nat) := none

namespace GateEncoder

/-- `select` sets the sides of a new variable and its clauses, or leaves them.
mirrors src/sec/kinduction/SatEncoding.cpp:438-446 -/
def getConstLit (select : CraigCnf → CraigCnf) (value : Bool) (e : GateEncoder) :
    Lit Nat × GateEncoder :=
  match e.trueLit with
  | some t => (if value then t else t.neg, e)
  | none =>
    let t := (select e.cnf).define fun t => [[t]]
    (if value then t.1 else t.1.neg, { e with cnf := t.2, trueLit := some t.1 })

def leafLit (select : CraigCnf → CraigCnf) (symbol : Nat) (e : GateEncoder) :
    Lit Nat × GateEncoder :=
  ((leaf select symbol e.cnf).1, { e with cnf := (leaf select symbol e.cnf).2 })

def gate (select : CraigCnf → CraigCnf) (q : Lit Nat → Query Nat) (e : GateEncoder) :
    Lit Nat × GateEncoder :=
  (((select e.cnf).define q).1, { e with cnf := ((select e.cnf).define q).2 })

def andClauses (l r g : Lit Nat) : Query Nat := [[g.neg, l], [g.neg, r], [g, l.neg, r.neg]]

def orClauses (l r g : Lit Nat) : Query Nat := [[l.neg, g], [r.neg, g], [g.neg, l, r]]

def xorClauses (l r g : Lit Nat) : Query Nat :=
  [[g.neg, l.neg, r.neg], [g.neg, l, r], [g, l.neg, r], [g, l, r.neg]]

/-- `isConstLit` creates the literal it compares with.
mirrors src/sec/kinduction/SatEncoding.cpp:484-498 -/
def andLit (l r : Lit Nat) (e : GateEncoder) : Lit Nat × GateEncoder :=
  if l = r then (l, e)
  else
    let t := e.getConstLit id true
    if r = t.1 then (l, t.2)
    else if l = t.1 then (r, t.2)
    else if l = r.neg ∨ l = t.1.neg ∨ r = t.1.neg then t.2.getConstLit id false
    else t.2.gate id (andClauses l r)

/-- mirrors src/sec/kinduction/SatEncoding.cpp:499-517 -/
def orLit (l r : Lit Nat) (e : GateEncoder) : Lit Nat × GateEncoder :=
  if l = r then (l, e)
  else
    let t := e.getConstLit id true
    if r = t.1.neg then (l, t.2)
    else if l = t.1.neg then (r, t.2)
    else if l = r.neg ∨ l = t.1 ∨ r = t.1 then t.2.getConstLit id true
    else t.2.gate id (orClauses l r)

/-- mirrors src/sec/kinduction/SatEncoding.cpp:518-545 -/
def xorLit (l r : Lit Nat) (e : GateEncoder) : Lit Nat × GateEncoder :=
  if l = r then e.getConstLit id false
  else if l = r.neg then e.getConstLit id true
  else
    let t := e.getConstLit id true
    if l = t.1.neg then (r, t.2)
    else if r = t.1.neg then (l, t.2)
    else if l = t.1 then (r.neg, t.2)
    else if r = t.1 then (l.neg, t.2)
    else t.2.gate id (xorClauses l r)

/-- mirrors src/sec/imc/CraigInterpolatingModelChecker.cpp:970-972 -/
def isConstLit (l : Lit Nat) (value : Bool) (e : GateEncoder) : Bool :=
  match e.trueLit with
  | some t => l == if value then t else t.neg
  | none => false

end GateEncoder

/-- The part that both encoders have. -/
structure FrameFormulaEncoder extends GateEncoder where
  nodeToLit : Memo BoolExpr (Lit Nat) := []

namespace FrameFormulaEncoder

/-- The literal of a step on the gates. -/
def step (e : FrameFormulaEncoder) (r : Lit Nat × GateEncoder) : Lit Nat × FrameFormulaEncoder :=
  (r.1, { e with toGateEncoder := r.2 })

/-- The literal of a node that was encoded before, or a new one. -/
def cached (node : BoolExpr) (compute : FrameFormulaEncoder → Lit Nat × FrameFormulaEncoder)
    (e : FrameFormulaEncoder) : Lit Nat × FrameFormulaEncoder :=
  match e.nodeToLit.lookup node with
  | some l => (l, e)
  | none =>
    ((compute e).1, { (compute e).2 with
      nodeToLit := (node, (compute e).1) :: (compute e).2.nodeToLit })

/-- mirrors src/sec/kinduction/SatEncoding.cpp:452-595 (with missing leaves created) -/
def encode : BoolExpr → FrameFormulaEncoder → Lit Nat × FrameFormulaEncoder
  | .var id => cached (.var id) fun e =>
    match id with
    | 0 => e.step (e.getConstLit (fun a => a) false)
    | 1 => e.step (e.getConstLit (fun a => a) true)
    | symbol + 2 => e.step (e.leafLit (fun a => a) (symbol + 2))
  | .not a => cached (.not a) fun e => ((encode a e).1.neg, (encode a e).2)
  | .and a b => cached (.and a b) fun e =>
    let l := encode a e
    let r := encode b l.2
    r.2.step (r.2.andLit l.1 r.1)
  | .or a b => cached (.or a b) fun e =>
    let l := encode a e
    let r := encode b l.2
    r.2.step (r.2.orLit l.1 r.1)
  | .xor a b => cached (.xor a b) fun e =>
    let l := encode a e
    let r := encode b l.2
    r.2.step (r.2.xorLit l.1 r.1)

end FrameFormulaEncoder

/-! ## Constants of nodes -/

/-- mirrors src/sec/imc/CraigInterpolatingModelChecker.cpp:1048-1059 -/
def andConstant : Option Bool → Option Bool → Option Bool
  | some false, _ => some false
  | _, some false => some false
  | some true, right => right
  | left, some true => left
  | none, none => none

/-- mirrors src/sec/imc/CraigInterpolatingModelChecker.cpp:1060-1071 -/
def orConstant : Option Bool → Option Bool → Option Bool
  | some true, _ => some true
  | _, some true => some true
  | some false, right => right
  | left, some false => left
  | none, none => none

def xorConstant : Option Bool → Option Bool → Option Bool
  | some x, some y => some (x != y)
  | _, _ => none

section Constants
variable (constants : List (Nat × Bool))

def symbolConstant : Nat → Option Bool
  | 0 => some false
  | 1 => some true
  | symbol + 2 => constants.lookup (symbol + 2)

/-- The value that a node has whatever the other leaves are, where local rules find one. -/
def constantValue : BoolExpr → Option Bool
  | .var id => symbolConstant constants id
  | .not a => (constantValue a).map (! ·)
  | .and a b => andConstant (constantValue a) (constantValue b)
  | .or a b => orConstant (constantValue a) (constantValue b)
  | .xor a b => xorConstant (constantValue a) (constantValue b)

/-- mirrors src/sec/imc/CraigInterpolatingModelChecker.cpp:987-1088 -/
def assignedConstantValue :
    BoolExpr → Memo BoolExpr (Option Bool) → Option Bool × Memo BoolExpr (Option Bool)
  | .var id, memo => memo.remember (.var id) fun memo => (symbolConstant constants id, memo)
  | .not a, memo => memo.remember (.not a) fun memo =>
    let l := assignedConstantValue a memo
    (l.1.map (! ·), l.2)
  | .and a b, memo => memo.remember (.and a b) fun memo =>
    let l := assignedConstantValue a memo
    let r := assignedConstantValue b l.2
    (andConstant l.1 r.1, r.2)
  | .or a b, memo => memo.remember (.or a b) fun memo =>
    let l := assignedConstantValue a memo
    let r := assignedConstantValue b l.2
    (orConstant l.1 r.1, r.2)
  | .xor a b, memo => memo.remember (.xor a b) fun memo =>
    let l := assignedConstantValue a memo
    let r := assignedConstantValue b l.2
    (xorConstant l.1 r.1, r.2)

end Constants

/-! ## The constant-aware encoder -/

structure ConstantAwareFrameFormulaEncoder where
  base : FrameFormulaEncoder
  constantValueByNode : Memo BoolExpr (Option Bool) := []

namespace ConstantAwareFrameFormulaEncoder
variable (v : CraigVariablePartition) (c : CraigClausePartition) (constants : List (Nat × Bool))

/-- mirrors src/sec/imc/CraigInterpolatingModelChecker.cpp:962-968 -/
def constLit (value : Bool) (e : GateEncoder) : Lit Nat × GateEncoder :=
  e.getConstLit (setCraigPartitions v c) value

def gate (q : Lit Nat → Query Nat) (e : GateEncoder) : Lit Nat × GateEncoder :=
  e.gate (setCraigPartitions v c) q

/-- mirrors src/sec/imc/CraigInterpolatingModelChecker.cpp:1159-1174 -/
def andLit (l r : Lit Nat) (e : GateEncoder) : Lit Nat × GateEncoder :=
  if e.isConstLit l false then constLit v c false e
  else if e.isConstLit l true then (r, e)
  else if l = r ∨ e.isConstLit r true then (l, e)
  else if l = r.neg ∨ e.isConstLit r false then constLit v c false e
  else gate v c (GateEncoder.andClauses l r) e

/-- mirrors src/sec/imc/CraigInterpolatingModelChecker.cpp:1175-1190 -/
def orLit (l r : Lit Nat) (e : GateEncoder) : Lit Nat × GateEncoder :=
  if e.isConstLit l true then constLit v c true e
  else if e.isConstLit l false then (r, e)
  else if l = r ∨ e.isConstLit r false then (l, e)
  else if l = r.neg ∨ e.isConstLit r true then constLit v c true e
  else gate v c (GateEncoder.orClauses l r) e

/-- mirrors src/sec/imc/CraigInterpolatingModelChecker.cpp:1191-1212 -/
def xorLit (l r : Lit Nat) (e : GateEncoder) : Lit Nat × GateEncoder :=
  if e.isConstLit l false then (r, e)
  else if e.isConstLit l true then (r.neg, e)
  else if l = r then constLit v c false e
  else if l = r.neg then constLit v c true e
  else if e.isConstLit r false then (l, e)
  else if e.isConstLit r true then (l.neg, e)
  else gate v c (GateEncoder.xorClauses l r) e

/-- The literal of a step on the gates. -/
def step (e : ConstantAwareFrameFormulaEncoder) (r : Lit Nat × GateEncoder) :
    Lit Nat × ConstantAwareFrameFormulaEncoder :=
  (r.1, { e with base := (e.base.step r).2 })

/-- A node that was encoded before, a node with a constant, or a new one. -/
def visit (node : BoolExpr)
    (compute : ConstantAwareFrameFormulaEncoder → Lit Nat × ConstantAwareFrameFormulaEncoder)
    (e : ConstantAwareFrameFormulaEncoder) : Lit Nat × ConstantAwareFrameFormulaEncoder :=
  match e.base.nodeToLit.lookup node with
  | some l => (l, e)
  | none =>
    let value := assignedConstantValue constants node e.constantValueByNode
    let e := { e with constantValueByNode := value.2 }
    let r := match value.1 with
      | some b => e.step (constLit v c b e.base.toGateEncoder)
      | none => compute e
    (r.1, { r.2 with base := { r.2.base with nodeToLit := (node, r.1) :: r.2.base.nodeToLit } })

/-- mirrors src/sec/imc/CraigInterpolatingModelChecker.cpp:1090-1223 -/
def encodeImpl :
    BoolExpr → ConstantAwareFrameFormulaEncoder → Lit Nat × ConstantAwareFrameFormulaEncoder
  | .var id => visit v c constants (.var id) fun e =>
    e.step <| match symbolConstant constants id with
      | some b => constLit v c b e.base.toGateEncoder
      | none => e.base.leafLit (setCraigVariablePartition v) id
  | .not a => visit v c constants (.not a) fun e => ((encodeImpl a e).1.neg, (encodeImpl a e).2)
  | .and a b => visit v c constants (.and a b) fun e =>
    let l := encodeImpl a e
    let r := encodeImpl b l.2
    r.2.step (andLit v c l.1 r.1 r.2.base.toGateEncoder)
  | .or a b => visit v c constants (.or a b) fun e =>
    let l := encodeImpl a e
    let r := encodeImpl b l.2
    r.2.step (orLit v c l.1 r.1 r.2.base.toGateEncoder)
  | .xor a b => visit v c constants (.xor a b) fun e =>
    let l := encodeImpl a e
    let r := encodeImpl b l.2
    r.2.step (xorLit v c l.1 r.1 r.2.base.toGateEncoder)

end ConstantAwareFrameFormulaEncoder

/-! ## Values of literals -/

theorem CraigCnf.setCraigPartitions_eq {v : CraigVariablePartition} {c : CraigClausePartition}
    {a : CraigCnf} (h : CnfState.Wf v c a) : setCraigPartitions v c a = a := by
  obtain ⟨hv, hc, -, -⟩ := h
  subst hv hc
  rfl

theorem CraigCnf.setCraigVariablePartition_eq {v : CraigVariablePartition}
    {c : CraigClausePartition} {a : CraigCnf} (h : CnfState.Wf v c a) :
    setCraigVariablePartition v a = a := by
  obtain ⟨hv, -, -, -⟩ := h
  subst hv
  rfl

section Literals
variable {v : CraigVariablePartition} {c : CraigClausePartition}

/-- What holds of the gates between two of them. -/
structure GateInv (v : CraigVariablePartition) (c : CraigClausePartition) (e : GateEncoder) :
    Prop where
  wf : CnfState.Wf v c e.cnf
  trueLit : ∀ t, e.trueLit = some t → e.cnf.Denotes t fun _ => true

/-- A step that adds variables and clauses, but no leaf. -/
structure Yields (v : CraigVariablePartition) (c : CraigClausePartition) (e : GateEncoder)
    (r : Lit Nat × GateEncoder) (f : Valuation → Bool) : Prop where
  inv : GateInv v c r.2
  extends_ : CnfState.Extends v c e.cnf r.2.cnf fun _ _ => True
  denotes : r.2.cnf.Denotes r.1 f
  sameLeaves : r.2.cnf.leafLits = e.cnf.leafLits

variable {e : GateEncoder} {f g : Valuation → Bool} {l r : Lit Nat}

theorem GateInv.mono (h : GateInv v c e) {cnf : CraigCnf} {P : Valuation → (Nat → Bool) → Prop}
    (hcnf : CnfState.Extends v c e.cnf cnf P) : GateInv v c { e with cnf := cnf } where
  wf := hcnf.wf
  trueLit := fun t ht => (h.trueLit t ht).mono hcnf

theorem Yields.of_denotes (h : GateInv v c e) (hl : e.cnf.Denotes l f) : Yields v c e (l, e) f :=
  ⟨h, CnfState.Extends.refl h.wf, hl, rfl⟩

theorem Yields.trans {p q : Lit Nat × GateEncoder} (hp : Yields v c e p f)
    (hq : Yields v c p.2 q g) : Yields v c e q g :=
  ⟨hq.inv, hp.extends_.trans_true hq.extends_, hq.denotes, hq.sameLeaves.trans hp.sameLeaves⟩

theorem Yields.congr {p : Lit Nat × GateEncoder} (hp : Yields v c e p f)
    (h : ∀ σ ν, p.2.cnf.Models σ ν → f σ = g σ) : Yields v c e p g :=
  ⟨hp.inv, hp.extends_, hp.denotes.congr h, hp.sameLeaves⟩

/-- A defined literal with the value that its clauses give it. -/
theorem Yields.define (h : GateInv v c e) {q : Lit Nat → Query Nat}
    (hbound : CnfState.Bounded (e.cnf.vars + 1) (q ⟨e.cnf.vars, true⟩))
    (hq : ∀ σ ν, e.cnf.Models σ ν →
      (evalQuery ν (q ⟨e.cnf.vars, true⟩) = true ↔ ν e.cnf.vars = f σ)) :
    Yields v c e ((e.cnf.define q).1, { e with cnf := (e.cnf.define q).2 }) f := by
  obtain ⟨hextends, hdenotes⟩ := CnfState.define_spec h.wf hbound hq
  exact ⟨h.mono hextends, hextends, hdenotes, rfl⟩

section Gates
variable {select : CraigCnf → CraigCnf} (hselect : ∀ a, CnfState.Wf v c a → select a = a)
include hselect

theorem getConstLit_yields (h : GateInv v c e) (value : Bool) :
    Yields v c e (e.getConstLit select value) fun _ => value := by
  have hsign : ∀ {a : CraigCnf} {t : Lit Nat}, a.Denotes t (fun _ => true) →
      a.Denotes (if value then t else t.neg) fun _ => value := by
    intro a t ht
    cases value with
    | true => exact ht
    | false => exact ht.neg
  unfold GateEncoder.getConstLit
  split
  · rename_i t ht
    exact .of_denotes h (hsign (h.trueLit t ht))
  · rw [hselect _ h.wf]
    have hnew : Yields v c e ((e.cnf.define fun t => [[t]]).1,
        { e with cnf := (e.cnf.define fun t => [[t]]).2 }) fun _ => true := by
      refine .define h ?_ ?_
      · simp [CnfState.Bounded]
      · simp
    refine ⟨⟨hnew.inv.wf, ?_⟩, hnew.extends_, hsign hnew.denotes, rfl⟩
    intro t ht
    cases ht
    exact hnew.denotes

/-- A gate over two literals, given by clauses that say what it is. -/
theorem gate_yields (h : GateInv v c e) {op : Bool → Bool → Bool}
    {q : Lit Nat → Query Nat} (hl : e.cnf.Denotes l f) (hr : e.cnf.Denotes r g)
    (hbound : ∀ n g, l.atom < n → r.atom < n → g.atom < n → CnfState.Bounded n (q g))
    (hq : ∀ ν g, evalQuery ν (q g) = (evalLit ν g == op (evalLit ν l) (evalLit ν r))) :
    Yields v c e (e.gate select q) fun σ => op (f σ) (g σ) := by
  unfold GateEncoder.gate
  rw [hselect _ h.wf]
  refine .define h ?_ ?_
  · have hlt := hl.lt
    have hrt := hr.lt
    exact hbound _ _ (by omega) (by omega) (by simp)
  · intro σ ν ha
    rw [hq, hl.value σ ν ha, hr.value σ ν ha, evalLit_mk_true, beq_iff_eq]

theorem andGate_yields (h : GateInv v c e) (hl : e.cnf.Denotes l f)
    (hr : e.cnf.Denotes r g) :
    Yields v c e (e.gate select (GateEncoder.andClauses l r))
      fun σ => f σ && g σ := by
  refine gate_yields hselect h hl hr (fun n g hl hr hg => ?_) fun ν g => ?_
  · simp [CnfState.Bounded, GateEncoder.andClauses, Lit.neg, hl, hr, hg]
  · simp only [GateEncoder.andClauses, evalQuery_cons, evalQuery_nil, evalClause,
      List.any_cons, List.any_nil, evalLit_neg]
    cases evalLit ν l <;> cases evalLit ν r <;> cases evalLit ν g <;> rfl

theorem orGate_yields (h : GateInv v c e) (hl : e.cnf.Denotes l f)
    (hr : e.cnf.Denotes r g) :
    Yields v c e (e.gate select (GateEncoder.orClauses l r))
      fun σ => f σ || g σ := by
  refine gate_yields hselect h hl hr (fun n g hl hr hg => ?_) fun ν g => ?_
  · simp [CnfState.Bounded, GateEncoder.orClauses, Lit.neg, hl, hr, hg]
  · simp only [GateEncoder.orClauses, evalQuery_cons, evalQuery_nil, evalClause,
      List.any_cons, List.any_nil, evalLit_neg]
    cases evalLit ν l <;> cases evalLit ν r <;> cases evalLit ν g <;> rfl

theorem xorGate_yields (h : GateInv v c e) (hl : e.cnf.Denotes l f)
    (hr : e.cnf.Denotes r g) :
    Yields v c e (e.gate select (GateEncoder.xorClauses l r))
      fun σ => f σ ^^ g σ := by
  refine gate_yields hselect h hl hr (fun n g hl hr hg => ?_) fun ν g => ?_
  · simp [CnfState.Bounded, GateEncoder.xorClauses, Lit.neg, hl, hr, hg]
  · simp only [GateEncoder.xorClauses, evalQuery_cons, evalQuery_nil, evalClause,
      List.any_cons, List.any_nil, evalLit_neg]
    cases evalLit ν l <;> cases evalLit ν r <;> cases evalLit ν g <;> rfl

end Gates

/-- A literal keeps its value through a step. -/
theorem Yields.keep {p : Lit Nat × GateEncoder} (hp : Yields v c e p f)
    (hl : e.cnf.Denotes l g) : p.2.cnf.Denotes l g := hl.mono hp.extends_

/-- Equal literals have equal values. -/
theorem value_of_eq {a : CraigCnf} (hl : a.Denotes l f) (hr : a.Denotes r g) (h : l = r)
    {σ : Valuation} {ν : Nat → Bool} (ha : a.Models σ ν) : f σ = g σ := by
  subst h
  rw [← hl.value σ ν ha, hr.value σ ν ha]

theorem id_select (a : CraigCnf) (_ : CnfState.Wf v c a) : id a = a := rfl

theorem andLit_yields (h : GateInv v c e) (hl : e.cnf.Denotes l f)
    (hr : e.cnf.Denotes r g) : Yields v c e (e.andLit l r) fun σ => f σ && g σ := by
  unfold GateEncoder.andLit
  split
  · rename_i heq
    refine (Yields.of_denotes h hl).congr fun σ ν ha => ?_
    rw [← value_of_eq hl hr heq ha, Bool.and_self]
  · have ht := getConstLit_yields id_select h true
    have hl' := ht.keep hl
    have hr' := ht.keep hr
    refine ht.trans ?_
    dsimp only
    split
    · rename_i heq
      refine (Yields.of_denotes ht.inv hl').congr fun σ ν ha => ?_
      rw [value_of_eq hr' ht.denotes heq ha, Bool.and_true]
    · split
      · rename_i heq
        refine (Yields.of_denotes ht.inv hr').congr fun σ ν ha => ?_
        rw [value_of_eq hl' ht.denotes heq ha, Bool.true_and]
      · split
        · rename_i hfalse
          refine (getConstLit_yields id_select ht.inv false).congr fun σ ν ha => ?_
          have ha' := (getConstLit_yields id_select ht.inv false).extends_.models ha
          obtain heq | heq | heq := hfalse
          · rw [value_of_eq hl' hr'.neg heq ha', Bool.not_and_self]
          · rw [value_of_eq hl' ht.denotes.neg heq ha']
            rfl
          · rw [value_of_eq hr' ht.denotes.neg heq ha', Bool.not_true, Bool.and_false]
        · exact andGate_yields id_select ht.inv hl' hr'

theorem orLit_yields (h : GateInv v c e) (hl : e.cnf.Denotes l f)
    (hr : e.cnf.Denotes r g) : Yields v c e (e.orLit l r) fun σ => f σ || g σ := by
  unfold GateEncoder.orLit
  split
  · rename_i heq
    refine (Yields.of_denotes h hl).congr fun σ ν ha => ?_
    rw [← value_of_eq hl hr heq ha, Bool.or_self]
  · have ht := getConstLit_yields id_select h true
    have hl' := ht.keep hl
    have hr' := ht.keep hr
    refine ht.trans ?_
    dsimp only
    split
    · rename_i heq
      refine (Yields.of_denotes ht.inv hl').congr fun σ ν ha => ?_
      rw [value_of_eq hr' ht.denotes.neg heq ha, Bool.not_true, Bool.or_false]
    · split
      · rename_i heq
        refine (Yields.of_denotes ht.inv hr').congr fun σ ν ha => ?_
        rw [value_of_eq hl' ht.denotes.neg heq ha]
        rfl
      · split
        · rename_i htrue
          refine (getConstLit_yields id_select ht.inv true).congr fun σ ν ha => ?_
          have ha' := (getConstLit_yields id_select ht.inv true).extends_.models ha
          obtain heq | heq | heq := htrue
          · rw [value_of_eq hl' hr'.neg heq ha', Bool.not_or_self]
          · rw [value_of_eq hl' ht.denotes heq ha', Bool.true_or]
          · rw [value_of_eq hr' ht.denotes heq ha', Bool.or_true]
        · exact orGate_yields id_select ht.inv hl' hr'

theorem xorLit_yields (h : GateInv v c e) (hl : e.cnf.Denotes l f)
    (hr : e.cnf.Denotes r g) : Yields v c e (e.xorLit l r) fun σ => f σ ^^ g σ := by
  unfold GateEncoder.xorLit
  split
  · rename_i heq
    refine (getConstLit_yields id_select h false).congr fun σ ν ha => ?_
    rw [value_of_eq hl hr heq ((getConstLit_yields id_select h false).extends_.models ha),
      Bool.xor_self]
  · split
    · rename_i heq
      refine (getConstLit_yields id_select h true).congr fun σ ν ha => ?_
      rw [value_of_eq hl hr.neg heq ((getConstLit_yields id_select h true).extends_.models ha),
        Bool.not_xor_self]
    · have ht := getConstLit_yields id_select h true
      have hl' := ht.keep hl
      have hr' := ht.keep hr
      refine ht.trans ?_
      dsimp only
      split
      · rename_i heq
        refine (Yields.of_denotes ht.inv hr').congr fun σ ν ha => ?_
        rw [value_of_eq hl' ht.denotes.neg heq ha, Bool.not_true, Bool.false_xor]
      · split
        · rename_i heq
          refine (Yields.of_denotes ht.inv hl').congr fun σ ν ha => ?_
          rw [value_of_eq hr' ht.denotes.neg heq ha, Bool.not_true, Bool.xor_false]
        · split
          · rename_i heq
            refine (Yields.of_denotes ht.inv hr'.neg).congr fun σ ν ha => ?_
            rw [value_of_eq hl' ht.denotes heq ha, Bool.true_xor]
          · split
            · rename_i heq
              refine (Yields.of_denotes ht.inv hl'.neg).congr fun σ ν ha => ?_
              rw [value_of_eq hr' ht.denotes heq ha, Bool.xor_true]
            · exact xorGate_yields id_select ht.inv hl' hr'

end Literals

/-! ## Values of literals, with constants -/

namespace ConstantAwareFrameFormulaEncoder
variable {v : CraigVariablePartition} {c : CraigClausePartition}
  {e : GateEncoder} {f g : Valuation → Bool} {l r : Lit Nat}

theorem denotes_of_isConstLit (h : GateInv v c e) {value : Bool}
    (hl : e.isConstLit l value = true) : e.cnf.Denotes l fun _ => value := by
  unfold GateEncoder.isConstLit at hl
  split at hl
  · rename_i t ht
    rw [beq_iff_eq] at hl
    rw [hl]
    cases value with
    | true => exact h.trueLit t ht
    | false => exact (h.trueLit t ht).neg
  · cases hl

theorem value_of_isConstLit (h : GateInv v c e) (hl : e.cnf.Denotes l f)
    {value : Bool} (hconst : e.isConstLit l value = true) {σ : Valuation} {ν : Nat → Bool}
    (ha : e.cnf.Models σ ν) : f σ = value :=
  value_of_eq hl (denotes_of_isConstLit h hconst) rfl ha

theorem constLit_yields (h : GateInv v c e) (value : Bool) :
    Yields v c e (constLit v c value e) fun _ => value :=
  getConstLit_yields (fun _ => setCraigPartitions_eq) h value

theorem constLit_yields_of (h : GateInv v c e) {value : Bool}
    (hf : ∀ σ ν, e.cnf.Models σ ν → f σ = value) :
    Yields v c e (constLit v c value e) f :=
  (constLit_yields h value).congr fun σ ν ha =>
    (hf σ ν ((constLit_yields h value).extends_.models ha)).symm

theorem andLit_yields (h : GateInv v c e) (hl : e.cnf.Denotes l f)
    (hr : e.cnf.Denotes r g) : Yields v c e (andLit v c l r e) fun σ => f σ && g σ := by
  unfold andLit
  split
  · rename_i hconst
    refine constLit_yields_of h fun σ ν ha => ?_
    rw [value_of_isConstLit h hl hconst ha, Bool.false_and]
  · split
    · rename_i hconst
      refine (Yields.of_denotes h hr).congr fun σ ν ha => ?_
      rw [value_of_isConstLit h hl hconst ha, Bool.true_and]
    · split
      · rename_i hsame
        refine (Yields.of_denotes h hl).congr fun σ ν ha => ?_
        obtain heq | hconst := hsame
        · rw [← value_of_eq hl hr heq ha, Bool.and_self]
        · rw [value_of_isConstLit h hr hconst ha, Bool.and_true]
      · split
        · rename_i hfalse
          refine constLit_yields_of h fun σ ν ha => ?_
          obtain heq | hconst := hfalse
          · rw [value_of_eq hl hr.neg heq ha, Bool.not_and_self]
          · rw [value_of_isConstLit h hr hconst ha, Bool.and_false]
        · exact andGate_yields (fun _ => setCraigPartitions_eq) h hl hr

theorem orLit_yields (h : GateInv v c e) (hl : e.cnf.Denotes l f)
    (hr : e.cnf.Denotes r g) : Yields v c e (orLit v c l r e) fun σ => f σ || g σ := by
  unfold orLit
  split
  · rename_i hconst
    refine constLit_yields_of h fun σ ν ha => ?_
    rw [value_of_isConstLit h hl hconst ha, Bool.true_or]
  · split
    · rename_i hconst
      refine (Yields.of_denotes h hr).congr fun σ ν ha => ?_
      rw [value_of_isConstLit h hl hconst ha, Bool.false_or]
    · split
      · rename_i hsame
        refine (Yields.of_denotes h hl).congr fun σ ν ha => ?_
        obtain heq | hconst := hsame
        · rw [← value_of_eq hl hr heq ha, Bool.or_self]
        · rw [value_of_isConstLit h hr hconst ha, Bool.or_false]
      · split
        · rename_i htrue
          refine constLit_yields_of h fun σ ν ha => ?_
          obtain heq | hconst := htrue
          · rw [value_of_eq hl hr.neg heq ha, Bool.not_or_self]
          · rw [value_of_isConstLit h hr hconst ha, Bool.or_true]
        · exact orGate_yields (fun _ => setCraigPartitions_eq) h hl hr

theorem xorLit_yields (h : GateInv v c e) (hl : e.cnf.Denotes l f)
    (hr : e.cnf.Denotes r g) : Yields v c e (xorLit v c l r e) fun σ => f σ ^^ g σ := by
  unfold xorLit
  split
  · rename_i hconst
    refine (Yields.of_denotes h hr).congr fun σ ν ha => ?_
    rw [value_of_isConstLit h hl hconst ha, Bool.false_xor]
  · split
    · rename_i hconst
      refine (Yields.of_denotes h hr.neg).congr fun σ ν ha => ?_
      rw [value_of_isConstLit h hl hconst ha, Bool.true_xor]
    · split
      · rename_i heq
        refine constLit_yields_of h fun σ ν ha => ?_
        rw [value_of_eq hl hr heq ha, Bool.xor_self]
      · split
        · rename_i heq
          refine constLit_yields_of h fun σ ν ha => ?_
          rw [value_of_eq hl hr.neg heq ha, Bool.not_xor_self]
        · split
          · rename_i hconst
            refine (Yields.of_denotes h hl).congr fun σ ν ha => ?_
            rw [value_of_isConstLit h hr hconst ha, Bool.xor_false]
          · split
            · rename_i hconst
              refine (Yields.of_denotes h hl.neg).congr fun σ ν ha => ?_
              rw [value_of_isConstLit h hr hconst ha, Bool.xor_true]
            · exact xorGate_yields (fun _ => setCraigPartitions_eq) h hl hr

end ConstantAwareFrameFormulaEncoder

/-! ## Constants of nodes are their values -/

section Constants
variable (constants : List (Nat × Bool))

theorem assignedConstantValue_computes (node : BoolExpr) {memo : Memo BoolExpr (Option Bool)}
    (h : memo.Valid (constantValue constants)) :
    Memo.Computes (constantValue constants) node (assignedConstantValue constants node memo) := by
  induction node generalizing memo with
  | var id => exact h.remember ⟨rfl, h⟩
  | not a iha =>
    refine h.remember ⟨?_, (iha h).2⟩
    dsimp only
    rw [(iha h).1]
    rfl
  | and a b iha ihb | or a b iha ihb | xor a b iha ihb =>
    refine h.remember ⟨?_, (ihb (iha h).2).2⟩
    dsimp only
    rw [(iha h).1, (ihb (iha h).2).1]
    rfl

theorem andConstant_value {l r : Option Bool} {x y value : Bool} (hl : ∀ b, l = some b → x = b)
    (hr : ∀ b, r = some b → y = b) (h : andConstant l r = some value) : (x && y) = value := by
  unfold andConstant at h
  split at h
  · rw [hl false rfl, Bool.false_and]
    exact Option.some.inj h
  · rw [hr false rfl, Bool.and_false]
    exact Option.some.inj h
  · rw [hl true rfl, Bool.true_and]
    exact hr value h
  · rw [hr true rfl, Bool.and_true]
    exact hl value h
  · cases h

theorem orConstant_value {l r : Option Bool} {x y value : Bool} (hl : ∀ b, l = some b → x = b)
    (hr : ∀ b, r = some b → y = b) (h : orConstant l r = some value) : (x || y) = value := by
  unfold orConstant at h
  split at h
  · rw [hl true rfl, Bool.true_or]
    exact Option.some.inj h
  · rw [hr true rfl, Bool.or_true]
    exact Option.some.inj h
  · rw [hl false rfl, Bool.false_or]
    exact hr value h
  · rw [hr false rfl, Bool.or_false]
    exact hl value h
  · cases h

theorem xorConstant_value {l r : Option Bool} {x y value : Bool} (hl : ∀ b, l = some b → x = b)
    (hr : ∀ b, r = some b → y = b) (h : xorConstant l r = some value) : (x ^^ y) = value := by
  unfold xorConstant at h
  split at h
  · rename_i b b'
    rw [hl b rfl, hr b' rfl, ← Option.some.inj h]
  · cases h

theorem eval_assign_symbol (id : Nat) (σ : Valuation) :
    ((BoolExpr.var id).assign constants).eval σ =
      (symbolConstant constants id).getD (σ id) := by
  obtain rfl | rfl | ⟨n, rfl⟩ : id = 0 ∨ id = 1 ∨ ∃ n, id = n + 2 := by
    by_cases h : id < 2
    · omega
    · exact .inr (.inr ⟨id - 2, by omega⟩)
  · rfl
  · rfl
  · have hsymbol : symbolConstant constants (n + 2) = constants.lookup (n + 2) := rfl
    rw [hsymbol]
    unfold BoolExpr.assign
    cases constants.lookup (n + 2) with
    | none => rfl
    | some b => cases b <;> rfl

variable {constants}

theorem eval_assign_of_constantValue {node : BoolExpr} {value : Bool}
    (h : constantValue constants node = some value) (σ : Valuation) :
    (node.assign constants).eval σ = value := by
  induction node generalizing value with
  | var id =>
    rw [constantValue] at h
    rw [eval_assign_symbol, h]
    rfl
  | not a iha =>
    rw [constantValue, Option.map_eq_some_iff] at h
    obtain ⟨b, hb, rfl⟩ := h
    exact congrArg (! ·) (iha hb)
  | and a b iha ihb => exact andConstant_value (fun _ h => iha h) (fun _ h => ihb h) h
  | or a b iha ihb => exact orConstant_value (fun _ h => iha h) (fun _ h => ihb h) h
  | xor a b iha ihb => exact xorConstant_value (fun _ h => iha h) (fun _ h => ihb h) h

end Constants

/-! ## Encoding a node -/

/-- A symbol of the formula that is no constant. -/
def BoolExpr.Reads (node : BoolExpr) (s : Nat) : Prop := 2 ≤ s ∧ s ∈ node.getSupportVars

section Nodes
variable {v : CraigVariablePartition} {c : CraigClausePartition}
  {val : BoolExpr → Valuation → Bool} {needs : BoolExpr → Nat → Prop}
  {e : FrameFormulaEncoder} {node : BoolExpr}

/-- What holds of an encoder between two nodes: a cached literal has the value `val` of its node,
and the symbols that the node `needs` are leaves. -/
structure EncoderInv (v : CraigVariablePartition) (c : CraigClausePartition)
    (val : BoolExpr → Valuation → Bool) (needs : BoolExpr → Nat → Prop) (e : FrameFormulaEncoder) :
    Prop extends GateInv v c e.toGateEncoder where
  nodes : ∀ node l, e.nodeToLit.lookup node = some l → e.cnf.Denotes l (val node)
  leaves : ∀ node l, e.nodeToLit.lookup node = some l → ∀ s, needs node s → Present e.cnf s

/-- What encoding a node has to give; new leaves are symbols of the node. -/
structure Encodes (v : CraigVariablePartition) (c : CraigClausePartition)
    (val : BoolExpr → Valuation → Bool) (needs : BoolExpr → Nat → Prop) (e : FrameFormulaEncoder)
    (node : BoolExpr) (r : Lit Nat × FrameFormulaEncoder) : Prop where
  inv : EncoderInv v c val needs r.2
  extends_ : CnfState.Extends v c e.cnf r.2.cnf fun _ _ => True
  denotes : r.2.cnf.Denotes r.1 (val node)
  needed : ∀ s, needs node s → Present r.2.cnf s
  added : ∀ s, Present r.2.cnf s → Present e.cnf s ∨ node.Reads s

theorem present_of_extends {a b : CraigCnf} {P : Valuation → (Nat → Bool) → Prop}
    (h : CnfState.Extends v c a b P) {s : Nat} (hs : Present a s) : Present b s := by
  obtain ⟨l, hl⟩ := Option.isSome_iff_exists.mp hs
  exact Option.isSome_iff_exists.mpr ⟨l, h.leaves s l hl⟩

/-- The nodes keep their literals while the solver grows. -/
theorem EncoderInv.extend (h : EncoderInv v c val needs e) {gates : GateEncoder}
    (hgates : GateInv v c gates) {P : Valuation → (Nat → Bool) → Prop}
    (hcnf : CnfState.Extends v c e.cnf gates.cnf P) :
    EncoderInv v c val needs { e with toGateEncoder := gates } where
  toGateInv := hgates
  nodes := fun node l hl => (h.nodes node l hl).mono hcnf
  leaves := fun node l hl s hs => present_of_extends hcnf (h.leaves node l hl s hs)

theorem Yields.encodes {r : Lit Nat × GateEncoder} {f : Valuation → Bool}
    (h : Yields v c e.toGateEncoder r f) (he : EncoderInv v c val needs e)
    (hf : ∀ σ, f σ = val node σ) (hneeds : ∀ s, needs node s → Present e.cnf s) :
    Encodes v c val needs e node (e.step r) where
  inv := he.extend h.inv h.extends_
  extends_ := h.extends_
  denotes := h.denotes.congr fun σ _ _ => hf σ
  needed := fun s hs => present_of_extends h.extends_ (hneeds s hs)
  added := fun s hs => .inl (by
    change Present r.2.cnf s at hs
    unfold Present at hs ⊢
    rwa [h.sameLeaves] at hs)

/-- The literal of a leaf has the value of its symbol. -/
theorem leaf_spec {select : CraigCnf → CraigCnf} (hselect : ∀ a, CnfState.Wf v c a → select a = a)
    {a : CraigCnf} (hwf : CnfState.Wf v c a) (symbol : Nat) :
    CnfState.Extends v c a (leaf select symbol a).2 (fun _ _ => True) ∧
      (leaf select symbol a).2.Denotes (leaf select symbol a).1 (fun σ => σ symbol) ∧
      ∀ s, Present (leaf select symbol a).2 s ↔ s = symbol ∨ Present a s := by
  unfold leaf
  split
  · rename_i l hl
    refine ⟨CnfState.Extends.refl hwf, ⟨hwf.leaves symbol l hl, fun σ ν ha => ha.leaves symbol l hl⟩,
      fun s => ⟨.inr, fun h => h.elim (fun hsame => ?_) fun hold => hold⟩⟩
    rw [hsame]
    exact Option.isSome_iff_exists.mpr ⟨l, hl⟩
  · rename_i hnone
    rw [hselect _ hwf]
    obtain ⟨hextends, hdenotes⟩ := CnfState.addLeaf_spec hwf hnone
    refine ⟨hextends, hdenotes, fun s => ?_⟩
    unfold Present CnfState.addLeaf
    rw [List.lookup_cons]
    by_cases hsame : s = symbol
    · simp [hsame]
    · simp [hsame, beq_false_of_ne hsame]

theorem leafLit_encodes {select : CraigCnf → CraigCnf}
    (hselect : ∀ a, CnfState.Wf v c a → select a = a) (h : EncoderInv v c val needs e) {id : Nat}
    (hid : 2 ≤ id) (hval : ∀ σ, val (.var id) σ = σ id) (hneeds : ∀ s, needs (.var id) s → s = id) :
    Encodes v c val needs e (.var id) (e.step (e.leafLit select id)) := by
  obtain ⟨hextends, hdenotes, hpresent⟩ := leaf_spec hselect h.wf id
  refine ⟨h.extend (h.toGateInv.mono hextends) hextends, hextends,
    hdenotes.congr fun σ _ _ => (hval σ).symm, ?_, ?_⟩
  · exact fun s hs => (hpresent s).mpr (.inl (hneeds s hs))
  · intro s hs
    obtain rfl | hold := (hpresent s).mp hs
    · exact .inr ⟨hid, by simp [BoolExpr.getSupportVars]⟩
    · exact .inl hold

/-- The node is remembered with the literal that it got. -/
theorem Encodes.remember {r : Lit Nat × FrameFormulaEncoder}
    (h : Encodes v c val needs e node r) :
    Encodes v c val needs e node
      (r.1, { r.2 with nodeToLit := (node, r.1) :: r.2.nodeToLit }) := by
  have hlookup : ∀ other l, ((node, r.1) :: r.2.nodeToLit).lookup other = some l →
      (other = node ∧ l = r.1) ∨ r.2.nodeToLit.lookup other = some l := by
    intro other l hl
    rw [List.lookup_cons] at hl
    by_cases hsame : other = node
    · simp only [hsame, beq_self_eq_true, Option.some.injEq] at hl
      exact .inl ⟨hsame, hl.symm⟩
    · rw [beq_false_of_ne hsame] at hl
      exact .inr hl
  refine ⟨⟨h.inv.toGateInv, ?_, ?_⟩, h.extends_, h.denotes, h.needed, h.added⟩
  · intro other l hl
    obtain ⟨rfl, rfl⟩ | hold := hlookup other l hl
    · exact h.denotes
    · exact h.inv.nodes other l hold
  · intro other l hl
    obtain ⟨rfl, -⟩ | hold := hlookup other l hl
    · exact h.needed
    · exact h.inv.leaves other l hold

theorem encodes_of_lookup (h : EncoderInv v c val needs e) {l : Lit Nat}
    (hl : e.nodeToLit.lookup node = some l) : Encodes v c val needs e node (l, e) :=
  ⟨h, CnfState.Extends.refl h.wf, h.nodes node l hl, h.leaves node l hl, fun _ hs => .inl hs⟩

theorem cached_encodes {compute : FrameFormulaEncoder → Lit Nat × FrameFormulaEncoder}
    (h : EncoderInv v c val needs e) (hcompute : Encodes v c val needs e node (compute e)) :
    Encodes v c val needs e node (e.cached node compute) := by
  unfold FrameFormulaEncoder.cached
  split
  · rename_i l hl
    exact encodes_of_lookup h hl
  · exact hcompute.remember

/-- A node over one encoded operand. -/
theorem Encodes.unary {a : BoolExpr} {p : Lit Nat × FrameFormulaEncoder} {r : Lit Nat × GateEncoder}
    (ha : Encodes v c val needs e a p) (hr : Yields v c p.2.toGateEncoder r (val node))
    (hreads : ∀ s, a.Reads s → node.Reads s) (hneeds : ∀ s, needs node s → Present p.2.cnf s) :
    Encodes v c val needs e node (p.2.step r) where
  inv := ha.inv.extend hr.inv hr.extends_
  extends_ := ha.extends_.trans_true hr.extends_
  denotes := hr.denotes
  needed := fun s hs => present_of_extends hr.extends_ (hneeds s hs)
  added := fun s hs => by
    change Present r.2.cnf s at hs
    unfold Present at hs
    rw [hr.sameLeaves] at hs
    exact (ha.added s hs).imp_right (hreads s)

/-- A node over two encoded operands. -/
theorem Encodes.binary {a b : BoolExpr} {p q : Lit Nat × FrameFormulaEncoder}
    {r : Lit Nat × GateEncoder} (ha : Encodes v c val needs e a p)
    (hb : Encodes v c val needs p.2 b q) (hr : Yields v c q.2.toGateEncoder r (val node))
    (hreadsA : ∀ s, a.Reads s → node.Reads s) (hreadsB : ∀ s, b.Reads s → node.Reads s)
    (hneeds : ∀ s, needs node s → Present q.2.cnf s) :
    Encodes v c val needs e node (q.2.step r) where
  inv := hb.inv.extend hr.inv hr.extends_
  extends_ := (ha.extends_.trans_true hb.extends_).trans_true hr.extends_
  denotes := hr.denotes
  needed := fun s hs => present_of_extends hr.extends_ (hneeds s hs)
  added := fun s hs => by
    change Present r.2.cnf s at hs
    unfold Present at hs
    rw [hr.sameLeaves] at hs
    obtain hold | hreads := hb.added s hs
    · exact (ha.added s hold).imp_right (hreadsA s)
    · exact .inr (hreadsB s hreads)

end Nodes

theorem BoolExpr.reads_binary {op : BoolExpr → BoolExpr → BoolExpr} {a b : BoolExpr}
    (hop : (op a b).getSupportVars = a.getSupportVars ∪ b.getSupportVars) (s : Nat) :
    (op a b).Reads s ↔ a.Reads s ∨ b.Reads s := by
  unfold BoolExpr.Reads
  rw [hop, Finset.mem_union, ← and_or_left]

/-- A node over two encoded operands, whose symbols are leaves by now. -/
theorem Encodes.binary_reads {v : CraigVariablePartition} {c : CraigClausePartition}
    {val : BoolExpr → Valuation → Bool} {e : FrameFormulaEncoder}
    {op : BoolExpr → BoolExpr → BoolExpr} {a b : BoolExpr} {p q : Lit Nat × FrameFormulaEncoder}
    {r : Lit Nat × GateEncoder}
    (hop : (op a b).getSupportVars = a.getSupportVars ∪ b.getSupportVars)
    (ha : Encodes v c val BoolExpr.Reads e a p) (hb : Encodes v c val BoolExpr.Reads p.2 b q)
    (hr : Yields v c q.2.toGateEncoder r (val (op a b))) :
    Encodes v c val BoolExpr.Reads e (op a b) (q.2.step r) := by
  refine ha.binary hb hr (fun s hs => (BoolExpr.reads_binary hop s).mpr (.inl hs))
    (fun s hs => (BoolExpr.reads_binary hop s).mpr (.inr hs)) fun s hs => ?_
  obtain hs | hs := (BoolExpr.reads_binary hop s).mp hs
  · exact present_of_extends hb.extends_ (ha.needed s hs)
  · exact hb.needed s hs

/-- The value of a node without constants. -/
def plainValue (node : BoolExpr) (σ : Valuation) : Bool := node.eval σ

/-- The encoder without constants: literals have the values of their nodes, and every symbol of an
encoded node is a leaf. -/
theorem encode_encodes {v : CraigVariablePartition} {c : CraigClausePartition} (node : BoolExpr)
    {e : FrameFormulaEncoder} (h : EncoderInv v c plainValue BoolExpr.Reads e) :
    Encodes v c plainValue BoolExpr.Reads e node (FrameFormulaEncoder.encode node e) := by
  induction node generalizing e with
  | var id =>
    refine cached_encodes h ?_
    obtain rfl | rfl | ⟨n, rfl⟩ : id = 0 ∨ id = 1 ∨ ∃ n, id = n + 2 := by
      by_cases h : id < 2
      · omega
      · exact .inr (.inr ⟨id - 2, by omega⟩)
    · refine (getConstLit_yields id_select h.toGateInv false).encodes h (fun _ => rfl)
        fun s hs => ?_
      have hs0 : s = 0 := by simpa [BoolExpr.getSupportVars] using hs.2
      exact absurd hs.1 (by omega)
    · refine (getConstLit_yields id_select h.toGateInv true).encodes h (fun _ => rfl)
        fun s hs => ?_
      have hs1 : s = 1 := by simpa [BoolExpr.getSupportVars] using hs.2
      exact absurd hs.1 (by omega)
    · refine leafLit_encodes id_select h (by omega) (fun _ => rfl) fun s hs => ?_
      simpa [BoolExpr.getSupportVars] using hs.2
  | not a iha =>
    refine cached_encodes h ?_
    have ha := iha h
    exact ha.unary (.of_denotes ha.inv.toGateInv ha.denotes.neg) (fun s hs => hs) ha.needed
  | and a b iha ihb =>
    refine cached_encodes h ?_
    have ha := iha h
    have hb := ihb ha.inv
    exact ha.binary_reads rfl hb
      (andLit_yields hb.inv.toGateInv (ha.denotes.mono hb.extends_) hb.denotes)
  | or a b iha ihb =>
    refine cached_encodes h ?_
    have ha := iha h
    have hb := ihb ha.inv
    exact ha.binary_reads rfl hb
      (orLit_yields hb.inv.toGateInv (ha.denotes.mono hb.extends_) hb.denotes)
  | xor a b iha ihb =>
    refine cached_encodes h ?_
    have ha := iha h
    have hb := ihb ha.inv
    exact ha.binary_reads rfl hb
      (xorLit_yields hb.inv.toGateInv (ha.denotes.mono hb.extends_) hb.denotes)

/-! ## Encoding a node, with constants -/

namespace ConstantAwareFrameFormulaEncoder
variable {v : CraigVariablePartition} {c : CraigClausePartition} {constants : List (Nat × Bool)}

/-- The value of a node with the constants substituted. -/
def assignedValue (constants : List (Nat × Bool)) (node : BoolExpr) (σ : Valuation) : Bool :=
  (node.assign constants).eval σ

/-- No node needs its symbols as leaves. -/
def needsNothing (_ : BoolExpr) (_ : Nat) : Prop := False

structure AwareInv (v : CraigVariablePartition) (c : CraigClausePartition)
    (constants : List (Nat × Bool)) (e : ConstantAwareFrameFormulaEncoder) : Prop where
  base : EncoderInv v c (assignedValue constants) needsNothing e.base
  constantValues : e.constantValueByNode.Valid (constantValue constants)

structure AwareEncodes (v : CraigVariablePartition) (c : CraigClausePartition)
    (constants : List (Nat × Bool)) (e : ConstantAwareFrameFormulaEncoder) (node : BoolExpr)
    (r : Lit Nat × ConstantAwareFrameFormulaEncoder) : Prop where
  base : Encodes v c (assignedValue constants) needsNothing e.base node (r.1, r.2.base)
  constantValues : r.2.constantValueByNode.Valid (constantValue constants)

theorem AwareEncodes.inv {e : ConstantAwareFrameFormulaEncoder} {node : BoolExpr}
    {r : Lit Nat × ConstantAwareFrameFormulaEncoder} (h : AwareEncodes v c constants e node r) :
    AwareInv v c constants r.2 := ⟨h.base.inv, h.constantValues⟩

theorem visit_encodes {e : ConstantAwareFrameFormulaEncoder} {node : BoolExpr}
    {compute : ConstantAwareFrameFormulaEncoder → Lit Nat × ConstantAwareFrameFormulaEncoder}
    (h : AwareInv v c constants e)
    (hcompute : ∀ e', AwareInv v c constants e' →
      AwareEncodes v c constants e' node (compute e')) :
    AwareEncodes v c constants e node (visit v c constants node compute e) := by
  unfold visit
  split
  · rename_i l hl
    exact ⟨encodes_of_lookup h.base hl, h.constantValues⟩
  · have hvalue := assignedConstantValue_computes constants node h.constantValues
    dsimp only
    rw [hvalue.1]
    split
    · rename_i b hb
      have hconst : Encodes v c (assignedValue constants) needsNothing e.base node _ :=
        (constLit_yields h.base.toGateInv b).encodes h.base
          (fun σ => (eval_assign_of_constantValue hb σ).symm) fun _ hs => hs.elim
      exact ⟨hconst.remember, hvalue.2⟩
    · have hnew := hcompute
        ⟨e.base, (assignedConstantValue constants node e.constantValueByNode).2⟩
        ⟨h.base, hvalue.2⟩
      exact ⟨hnew.base.remember, hnew.constantValues⟩

/-- The constant-aware encoder: literals have the values of their nodes with the constants
substituted. -/
theorem encodeImpl_encodes (node : BoolExpr) {e : ConstantAwareFrameFormulaEncoder}
    (h : AwareInv v c constants e) :
    AwareEncodes v c constants e node (encodeImpl v c constants node e) := by
  induction node generalizing e with
  | var id =>
    refine visit_encodes h fun e' he' => ⟨?_, he'.constantValues⟩
    have hvalue := eval_assign_symbol constants id
    cases hsymbol : symbolConstant constants id with
    | some b =>
      refine (constLit_yields he'.base.toGateInv b).encodes he'.base (fun σ => ?_)
        fun _ hs => hs.elim
      rw [assignedValue, hvalue σ, hsymbol]
      rfl
    | none =>
      have hid : 2 ≤ id := by
        by_contra hlt
        obtain rfl | rfl : id = 0 ∨ id = 1 := by omega
        · cases hsymbol
        · cases hsymbol
      refine leafLit_encodes (fun _ => setCraigVariablePartition_eq) he'.base hid (fun σ => ?_)
        fun _ hs => hs.elim
      rw [assignedValue, hvalue σ, hsymbol]
      rfl
  | not a iha =>
    refine visit_encodes h fun e' he' => ?_
    have ha := iha he'
    exact ⟨ha.base.unary (.of_denotes ha.base.inv.toGateInv ha.base.denotes.neg) (fun s hs => hs)
      fun _ hs => hs.elim, ha.constantValues⟩
  | and a b iha ihb =>
    refine visit_encodes h fun e' he' => ?_
    have ha := iha he'
    have hb := ihb ha.inv
    have hr := andLit_yields hb.base.inv.toGateInv (ha.base.denotes.mono hb.base.extends_)
      hb.base.denotes
    exact ⟨ha.base.binary hb.base hr (fun s hs => (BoolExpr.reads_binary rfl s).mpr (.inl hs))
      (fun s hs => (BoolExpr.reads_binary rfl s).mpr (.inr hs)) fun _ hs => hs.elim,
      hb.constantValues⟩
  | or a b iha ihb =>
    refine visit_encodes h fun e' he' => ?_
    have ha := iha he'
    have hb := ihb ha.inv
    have hr := orLit_yields hb.base.inv.toGateInv (ha.base.denotes.mono hb.base.extends_)
      hb.base.denotes
    exact ⟨ha.base.binary hb.base hr (fun s hs => (BoolExpr.reads_binary rfl s).mpr (.inl hs))
      (fun s hs => (BoolExpr.reads_binary rfl s).mpr (.inr hs)) fun _ hs => hs.elim,
      hb.constantValues⟩
  | xor a b iha ihb =>
    refine visit_encodes h fun e' he' => ?_
    have ha := iha he'
    have hb := ihb ha.inv
    have hr := xorLit_yields hb.base.inv.toGateInv (ha.base.denotes.mono hb.base.extends_)
      hb.base.denotes
    exact ⟨ha.base.binary hb.base hr (fun s hs => (BoolExpr.reads_binary rfl s).mpr (.inl hs))
      (fun s hs => (BoolExpr.reads_binary rfl s).mpr (.inr hs)) fun _ hs => hs.elim,
      hb.constantValues⟩

end ConstantAwareFrameFormulaEncoder

end KeplerFormal
