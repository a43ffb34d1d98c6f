import KeplerFormal.L1Formula.BoolExpr

/-!
# Rewriting the leaves of an expression (`src/clocks/SecClockModel.cpp`)

The passes that rewrite expressions share one rule for the inner nodes: a node whose
operands changed is rebuilt by its factory, any other node is kept.

* `rebuilt`, `rebuiltNot`: that rule.
* `substitute`: every variable is replaced by an expression, all at once.
* `eval_substitute`, `mem_support_substitute`: the value and the support of the result.
* `simplifyWhenChanged`: the final pass of the callers.
* `override`: the valuation with some variables fixed.
-/
namespace KeplerFormal

namespace BoolExpr

/-! ## Inner nodes -/

/-- A node whose operands changed is rebuilt by its factory, any other is kept. -/
def rebuilt (node factory : BoolExpr → BoolExpr → BoolExpr) (a b left right : BoolExpr) :
    BoolExpr :=
  if left = a ∧ right = b then node a b else factory left right

def rebuiltNot (a left : BoolExpr) : BoolExpr := if left = a then .not a else Not left

theorem eval_rebuilt {σ : Valuation} {node factory : BoolExpr → BoolExpr → BoolExpr}
    {op : Bool → Bool → Bool} (hfactory : ∀ a b, (factory a b).eval σ = op (a.eval σ) (b.eval σ))
    (hnode : ∀ a b, (node a b).eval σ = op (a.eval σ) (b.eval σ)) (a b left right : BoolExpr) :
    (rebuilt node factory a b left right).eval σ = op (left.eval σ) (right.eval σ) := by
  unfold rebuilt
  split
  · rename_i hsame
    obtain ⟨rfl, rfl⟩ := hsame
    exact hnode _ _
  · exact hfactory _ _

@[simp] theorem eval_rebuiltNot (σ : Valuation) (a left : BoolExpr) :
    (rebuiltNot a left).eval σ = !left.eval σ := by
  unfold rebuiltNot
  split
  · rename_i hsame
    rw [hsame]
    rfl
  · exact eval_Not σ left

@[simp] theorem eval_rebuilt_and (σ : Valuation) (a b left right : BoolExpr) :
    (rebuilt .and And a b left right).eval σ = (left.eval σ && right.eval σ) :=
  eval_rebuilt (eval_And σ) (fun _ _ => rfl) a b left right

@[simp] theorem eval_rebuilt_or (σ : Valuation) (a b left right : BoolExpr) :
    (rebuilt .or Or a b left right).eval σ = (left.eval σ || right.eval σ) :=
  eval_rebuilt (eval_Or σ) (fun _ _ => rfl) a b left right

@[simp] theorem eval_rebuilt_xor (σ : Valuation) (a b left right : BoolExpr) :
    (rebuilt .xor Xor a b left right).eval σ = (left.eval σ ^^ right.eval σ) :=
  eval_rebuilt (eval_Xor σ) (fun _ _ => rfl) a b left right

theorem mem_support_rebuiltNot {a left : BoolExpr} {s : Nat}
    (hs : s ∈ (rebuiltNot a left).getSupportVars) (h2 : 2 ≤ s) : s ∈ left.getSupportVars := by
  unfold rebuiltNot at hs
  split at hs
  · rename_i hsame
    rw [hsame]
    exact hs
  · exact mem_support_Not hs h2

theorem mem_support_rebuilt {node factory : BoolExpr → BoolExpr → BoolExpr}
    {a b left right : BoolExpr} {s : Nat}
    (hnode : (node a b).getSupportVars = a.getSupportVars ∪ b.getSupportVars)
    (hfactory : s ∈ (factory left right).getSupportVars →
      s ∈ left.getSupportVars ∨ s ∈ right.getSupportVars)
    (hs : s ∈ (rebuilt node factory a b left right).getSupportVars) :
    s ∈ left.getSupportVars ∨ s ∈ right.getSupportVars := by
  unfold rebuilt at hs
  split at hs
  · rename_i hsame
    rw [hsame.1, hsame.2, ← Finset.mem_union, ← hnode]
    exact hs
  · exact hfactory hs

/-- One rewritten operand of a binary node. -/
theorem mem_support_rebuilt_and {a b left right : BoolExpr} {s : Nat}
    (hs : s ∈ (rebuilt .and And a b left right).getSupportVars) (h2 : 2 ≤ s) :
    s ∈ left.getSupportVars ∨ s ∈ right.getSupportVars :=
  mem_support_rebuilt rfl (fun h => mem_support_And h h2) hs

theorem mem_support_rebuilt_or {a b left right : BoolExpr} {s : Nat}
    (hs : s ∈ (rebuilt .or Or a b left right).getSupportVars) (h2 : 2 ≤ s) :
    s ∈ left.getSupportVars ∨ s ∈ right.getSupportVars :=
  mem_support_rebuilt rfl (fun h => mem_support_Or h h2) hs

theorem mem_support_rebuilt_xor {a b left right : BoolExpr} {s : Nat}
    (hs : s ∈ (rebuilt .xor Xor a b left right).getSupportVars) (h2 : 2 ≤ s) :
    s ∈ left.getSupportVars ∨ s ∈ right.getSupportVars :=
  mem_support_rebuilt rfl (fun h => mem_support_Xor h h2) hs

/-! ## Substitution -/

/-- Every variable is replaced at once; the replacements are not rewritten again. -/
def substitute (f : Nat → BoolExpr) : BoolExpr → BoolExpr
  | .var id => f id
  | .not a => rebuiltNot a (a.substitute f)
  | .and a b => rebuilt .and And a b (a.substitute f) (b.substitute f)
  | .or a b => rebuilt .or Or a b (a.substitute f) (b.substitute f)
  | .xor a b => rebuilt .xor Xor a b (a.substitute f) (b.substitute f)

/-- A substitution that keeps the values of the constants evaluates the replacements first. -/
theorem eval_substitute_of_constants {f : Nat → BoolExpr} {σ : Valuation}
    (hconst : ∀ s < 2, (f s).eval σ = (BoolExpr.var s).eval σ) (e : BoolExpr) :
    (e.substitute f).eval σ = e.eval fun s => (f s).eval σ := by
  induction e with
  | var id =>
    match id with
    | 0 => exact hconst 0 (by omega)
    | 1 => exact hconst 1 (by omega)
    | n + 2 => rfl
  | not a ih => simp [substitute, eval, ih]
  | and a b iha ihb => simp [substitute, eval, iha, ihb]
  | or a b iha ihb => simp [substitute, eval, iha, ihb]
  | xor a b iha ihb => simp [substitute, eval, iha, ihb]

theorem eval_substitute {f : Nat → BoolExpr} (hconst : ∀ s < 2, f s = .var s) (σ : Valuation)
    (e : BoolExpr) : (e.substitute f).eval σ = e.eval fun s => (f s).eval σ :=
  eval_substitute_of_constants (fun s hs => by rw [hconst s hs]) e

theorem mem_support_substitute {f : Nat → BoolExpr} {e : BoolExpr} {s : Nat}
    (hs : s ∈ (e.substitute f).getSupportVars) (h2 : 2 ≤ s) :
    ∃ x ∈ e.getSupportVars, s ∈ (f x).getSupportVars := by
  induction e with
  | var id => exact ⟨id, Finset.mem_singleton_self id, hs⟩
  | not a ih => exact ih (mem_support_rebuiltNot hs h2)
  | and a b iha ihb =>
    rcases mem_support_rebuilt_and hs h2 with h | h
    · obtain ⟨x, hx, hsx⟩ := iha h
      exact ⟨x, Finset.mem_union_left _ hx, hsx⟩
    · obtain ⟨x, hx, hsx⟩ := ihb h
      exact ⟨x, Finset.mem_union_right _ hx, hsx⟩
  | or a b iha ihb =>
    rcases mem_support_rebuilt_or hs h2 with h | h
    · obtain ⟨x, hx, hsx⟩ := iha h
      exact ⟨x, Finset.mem_union_left _ hx, hsx⟩
    · obtain ⟨x, hx, hsx⟩ := ihb h
      exact ⟨x, Finset.mem_union_right _ hx, hsx⟩
  | xor a b iha ihb =>
    rcases mem_support_rebuilt_xor hs h2 with h | h
    · obtain ⟨x, hx, hsx⟩ := iha h
      exact ⟨x, Finset.mem_union_left _ hx, hsx⟩
    · obtain ⟨x, hx, hsx⟩ := ihb h
      exact ⟨x, Finset.mem_union_right _ hx, hsx⟩

/-- Variables that the substitution leaves alone do not change the expression. -/
theorem substitute_eq_self {f : Nat → BoolExpr} {e : BoolExpr}
    (h : ∀ s ∈ e.getSupportVars, f s = .var s) : e.substitute f = e := by
  induction e with
  | var id => exact h id (Finset.mem_singleton_self id)
  | not a ih => simp [substitute, rebuiltNot, ih h]
  | and a b iha ihb =>
    simp [substitute, rebuilt, iha fun s hs => h s (Finset.mem_union_left _ hs),
      ihb fun s hs => h s (Finset.mem_union_right _ hs)]
  | or a b iha ihb =>
    simp [substitute, rebuilt, iha fun s hs => h s (Finset.mem_union_left _ hs),
      ihb fun s hs => h s (Finset.mem_union_right _ hs)]
  | xor a b iha ihb =>
    simp [substitute, rebuilt, iha fun s hs => h s (Finset.mem_union_left _ hs),
      ihb fun s hs => h s (Finset.mem_union_right _ hs)]

/-! ## The final pass -/

/-- mirrors src/clocks/SecClockModel.cpp:19-21 -/
def simplifyWhenChanged (original changed : BoolExpr) : BoolExpr :=
  if changed = original then original else changed.simplify

@[simp] theorem eval_simplifyWhenChanged (σ : Valuation) (original changed : BoolExpr) :
    (simplifyWhenChanged original changed).eval σ = changed.eval σ := by
  unfold simplifyWhenChanged
  split
  · rename_i hsame
    rw [hsame]
  · exact eval_simplify σ changed

theorem mem_support_simplifyWhenChanged {original changed : BoolExpr} {s : Nat}
    (hs : s ∈ (simplifyWhenChanged original changed).getSupportVars) (h2 : 2 ≤ s) :
    s ∈ changed.getSupportVars := by
  unfold simplifyWhenChanged at hs
  split at hs
  · rename_i hsame
    rw [hsame]
    exact hs
  · exact mem_support_simplify hs h2

end BoolExpr

/-! ## Fixed variables -/

/-- The variables of `X` take their value from `v`, all others from `σ`. -/
def override (X : Finset Nat) (v σ : Valuation) : Valuation := fun s => if s ∈ X then v s else σ s

theorem override_of_mem {X : Finset Nat} {v σ : Valuation} {s : Nat} (h : s ∈ X) :
    override X v σ s = v s := if_pos h

theorem override_of_not_mem {X : Finset Nat} {v σ : Valuation} {s : Nat} (h : s ∉ X) :
    override X v σ s = σ s := if_neg h

/-- An expression that does not mention the fixed variables keeps its value. -/
theorem BoolExpr.eval_override {X : Finset Nat} {v σ : Valuation} {e : BoolExpr}
    (h : ∀ s ∈ e.getSupportVars, s ∉ X) : e.eval (override X v σ) = e.eval σ :=
  BoolExpr.eval_congr fun s hs _ => override_of_not_mem (h s hs)

end KeplerFormal
