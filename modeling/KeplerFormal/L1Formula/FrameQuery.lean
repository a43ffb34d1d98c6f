import Mathlib.Data.List.Dedup
import Mathlib.Data.List.Sublists
import KeplerFormal.Core.SatQuery
import KeplerFormal.L1Formula.BoolExpr

/-!
# Queries over time frames (`src/sec/kinduction/SatEncoding.cpp`)

`FrameVariableStore` gives every symbol one literal per frame and
`FrameFormulaEncoder` gives every formula of a frame a literal that is forced to
the formula's value. A literal of the model is such a formula literal, or the
difference literal of `addSimplePathConstraint`; a model of a query is a trace.

* `encode`, `getLiteral`, `createXorLiteral`: the three kinds of literal.
* `addSimplePathConstraint`: every two frames differ in some state symbol.
* `evalAtom_congr`: an atom depends on its own (frame, symbol) leaves only.
* `exhaustiveSolver`: a solver that decides every query by enumeration.
-/
namespace KeplerFormal

open Core

/-- One valuation per time frame. -/
abbrev Trace := Nat → Valuation

inductive FrameAtom where
  /-- the literal of a formula in a frame -/
  | formula (frame : Nat) (expr : BoolExpr)
  /-- the literal of `createXorLiteral` over one symbol in two frames -/
  | differs (symbol i j : Nat)
  deriving DecidableEq, Repr

abbrev FrameLit := Lit FrameAtom
abbrev FrameClause := Clause FrameAtom
abbrev FrameQuery := Query FrameAtom

def evalAtom (τ : Trace) : FrameAtom → Bool
  | .formula frame expr => expr.eval (τ frame)
  | .differs symbol i j => (BoolExpr.var symbol).eval (τ i) ^^ (BoolExpr.var symbol).eval (τ j)

/-- mirrors src/sec/kinduction/SatEncoding.cpp:529-569 -/
def encode (frame : Nat) (expr : BoolExpr) : FrameLit := ⟨.formula frame expr, true⟩

/-- mirrors src/sec/kinduction/SatEncoding.cpp:122-130 -/
def getLiteral (symbol frame : Nat) : FrameLit := encode frame (.var symbol)

/-- The literal of a symbol or its negation, as `value ? lit : -lit`. -/
def assignmentLiteral (frame : Nat) (a : Nat × Bool) : FrameLit :=
  if a.2 then getLiteral a.1 frame else (getLiteral a.1 frame).neg

/-- mirrors src/sec/kinduction/SatEncoding.cpp:595-598 -/
def addLiteralEquivalence (lhs rhs : FrameLit) : FrameQuery := litEquivalence lhs rhs

/-- mirrors src/sec/kinduction/SatEncoding.cpp:600-607 -/
def createXorLiteral (symbol i j : Nat) : FrameLit := ⟨.differs symbol i j, true⟩

/-- The frame pairs `i < j` below `numFrames`, in the order of the two loops. -/
def framePairs (numFrames : Nat) : List (Nat × Nat) :=
  (List.range numFrames).flatMap fun i =>
    ((List.range numFrames).filter (i < ·)).map fun j => (i, j)

/-- mirrors src/sec/kinduction/SatEncoding.cpp:616-643 (`firstFrame = 0`) -/
def addSimplePathConstraint (stateSymbols : List Nat) (numFrames : Nat) : FrameQuery :=
  if stateSymbols = [] then []
  else (framePairs numFrames).map fun p => stateSymbols.map fun s => createXorLiteral s p.1 p.2

@[simp] theorem evalLit_encode (τ : Trace) (frame : Nat) (e : BoolExpr) :
    evalLit (evalAtom τ) (encode frame e) = e.eval (τ frame) := by
  simp [encode, evalAtom]

@[simp] theorem evalLit_getLiteral (τ : Trace) (symbol frame : Nat) :
    evalLit (evalAtom τ) (getLiteral symbol frame) = (BoolExpr.var symbol).eval (τ frame) := by
  simp [getLiteral]

@[simp] theorem evalLit_assignmentLiteral (τ : Trace) (frame : Nat) (a : Nat × Bool) :
    evalLit (evalAtom τ) (assignmentLiteral frame a) =
      ((BoolExpr.var a.1).eval (τ frame) == a.2) := by
  cases h : a.2 <;> simp [assignmentLiteral, h]

@[simp] theorem evalQuery_addLiteralEquivalence (τ : Trace) (l r : FrameLit) :
    evalQuery (evalAtom τ) (addLiteralEquivalence l r) =
      (evalLit (evalAtom τ) l == evalLit (evalAtom τ) r) :=
  eval_litEquivalence _ l r

theorem mem_framePairs {n i j : Nat} : (i, j) ∈ framePairs n ↔ i < j ∧ j < n := by
  simp only [framePairs, List.mem_flatMap, List.mem_range, List.mem_map, List.mem_filter,
    decide_eq_true_eq, Prod.mk.injEq]
  constructor
  · rintro ⟨a, _, b, ⟨hb, hab⟩, rfl, rfl⟩
    exact ⟨hab, hb⟩
  · rintro ⟨hij, hj⟩
    exact ⟨i, by omega, j, ⟨hj, hij⟩, rfl, rfl⟩

/-- The constraint holds exactly when no two frames agree on all the symbols. -/
theorem evalQuery_addSimplePathConstraint {τ : Trace} {symbols : List Nat} {n : Nat}
    (hne : symbols ≠ []) :
    evalQuery (evalAtom τ) (addSimplePathConstraint symbols n) = true ↔
      ∀ i j, i < j → j < n → ∃ s ∈ symbols,
        (BoolExpr.var s).eval (τ i) ≠ (BoolExpr.var s).eval (τ j) := by
  simp only [addSimplePathConstraint, hne, if_false, evalQuery_map]
  constructor
  · intro h i j hij hj
    have hc := h (i, j) (mem_framePairs.mpr ⟨hij, hj⟩)
    rw [evalClause_iff] at hc
    obtain ⟨l, hl, heval⟩ := hc
    obtain ⟨s, hs, rfl⟩ := List.mem_map.mp hl
    exact ⟨s, hs, by simpa [createXorLiteral, evalAtom] using heval⟩
  · rintro h ⟨i, j⟩ hp
    obtain ⟨hij, hj⟩ := mem_framePairs.mp hp
    obtain ⟨s, hs, hne⟩ := h i j hij hj
    rw [evalClause_iff]
    exact ⟨createXorLiteral s i j, List.mem_map.mpr ⟨s, hs, rfl⟩,
      by simpa [createXorLiteral, evalAtom] using hne⟩

/-! ## Leaves -/

def BoolExpr.leaves : BoolExpr → List Nat
  | .var id => [id]
  | .and a b => a.leaves ++ b.leaves
  | .or a b => a.leaves ++ b.leaves
  | .not a => a.leaves
  | .xor a b => a.leaves ++ b.leaves

theorem BoolExpr.mem_leaves {e : BoolExpr} {s : Nat} : s ∈ e.leaves ↔ s ∈ e.getSupportVars := by
  induction e with
  | var id => simp [leaves, getSupportVars]
  | and a b iha ihb => simp [leaves, getSupportVars, iha, ihb]
  | or a b iha ihb => simp [leaves, getSupportVars, iha, ihb]
  | not a ih => simp [leaves, getSupportVars, ih]
  | xor a b iha ihb => simp [leaves, getSupportVars, iha, ihb]

def FrameAtom.leaves : FrameAtom → List (Nat × Nat)
  | .formula frame expr => expr.leaves.map fun s => (frame, s)
  | .differs symbol i j => [(i, symbol), (j, symbol)]

theorem evalAtom_congr {τ υ : Trace} {a : FrameAtom}
    (h : ∀ p ∈ a.leaves, 2 ≤ p.2 → τ p.1 p.2 = υ p.1 p.2) : evalAtom τ a = evalAtom υ a := by
  cases a with
  | formula frame e =>
    refine BoolExpr.eval_congr fun s hs h2 => h (frame, s) ?_ h2
    exact List.mem_map.mpr ⟨s, BoolExpr.mem_leaves.mpr hs, rfl⟩
  | differs s i j =>
    have hi : (BoolExpr.var s).eval (τ i) = (BoolExpr.var s).eval (υ i) := by
      refine BoolExpr.eval_congr fun t ht h2 => ?_
      rw [BoolExpr.getSupportVars, Finset.mem_singleton] at ht
      subst ht
      exact h (i, t) (by simp [FrameAtom.leaves]) h2
    have hj : (BoolExpr.var s).eval (τ j) = (BoolExpr.var s).eval (υ j) := by
      refine BoolExpr.eval_congr fun t ht h2 => ?_
      rw [BoolExpr.getSupportVars, Finset.mem_singleton] at ht
      subst ht
      exact h (j, t) (by simp [FrameAtom.leaves]) h2
    simp only [evalAtom, hi, hj]

/-! ## Enumeration -/

def queryLeaves (q : FrameQuery) (as : List FrameLit) : List (Nat × Nat) :=
  (((q.flatten ++ as).flatMap (·.atom.leaves)).filter fun p => 2 ≤ p.2).dedup

/-- The trace that is true exactly at the listed leaves. -/
def traceOf (trueLeaves : List (Nat × Nat)) : Trace := fun f s => (f, s) ∈ trueLeaves

def enumerateTraces (q : FrameQuery) (as : List FrameLit) : List Trace :=
  (queryLeaves q as).sublists.map traceOf

theorem enumerateTraces_covers (q : FrameQuery) (as : List FrameLit) (τ : Trace) :
    ∃ υ ∈ enumerateTraces q as, evalQuery (evalAtom υ) q = evalQuery (evalAtom τ) q ∧
      ∀ a ∈ as, evalLit (evalAtom υ) a = evalLit (evalAtom τ) a := by
  let kept := (queryLeaves q as).filter fun p => τ p.1 p.2
  have hatom : ∀ l ∈ q.flatten ++ as, evalAtom (traceOf kept) l.atom = evalAtom τ l.atom := by
    intro l hl
    refine evalAtom_congr fun p hp h2 => ?_
    have hmem : p ∈ queryLeaves q as := by
      simp only [queryLeaves, List.mem_dedup, List.mem_filter, List.mem_flatMap,
        decide_eq_true_eq]
      exact ⟨⟨l, hl, hp⟩, h2⟩
    cases hτ : τ p.1 p.2 <;> simp [traceOf, kept, hmem, hτ]
  refine ⟨traceOf kept, ?_, ?_, ?_⟩
  · exact List.mem_map.mpr ⟨kept, List.mem_sublists.mpr List.filter_sublist, rfl⟩
  · refine evalQuery_congr fun c hc l hl => hatom l ?_
    exact List.mem_append_left _ (List.mem_flatten.mpr ⟨c, hc, hl⟩)
  · intro a ha
    exact evalLit_congr (hatom a (List.mem_append_right _ ha))

/-- mirrors src/config/Config.h (`SolverType`) -/
inductive SolverType where
  | kissat
  | glucose
  | cadical
  deriving DecidableEq, Repr

abbrev FrameSolver (σ : Type) := SatSolver σ evalAtom

def exhaustiveSolver : FrameSolver Unit := exhaustive enumerateTraces enumerateTraces_covers

theorem exhaustiveSolver_decides : exhaustiveSolver.Decides := exhaustive_decides _ _

end KeplerFormal
