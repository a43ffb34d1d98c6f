import KeplerFormal.Core.Expansion
import KeplerFormal.L1Formula.FactoryBuilt

/-!
# The loops of `BoolExpr::simplify` (`src/formal/BoolExpr.cpp`)

`simplify` orders the nodes of an expression with a stack of its own and then rebuilds them
through the factories, with the rebuilt operands from a memo. Nodes are interned, so a node is
its expression.

* `simplifyNode_eq`: the checks before a factory call are the factory's own.
* `rebuild_order`: every visit of a node rebuilds it from rebuilt operands.
* `simplifyLoop_eq`: the loops compute the recursive `simplify`.
* `simplifyLoop_exact`: the value, the visits, and expressions made by the factories.
-/
namespace KeplerFormal

open Core

namespace BoolExpr

/-- mirrors src/formal/BoolExpr.cpp:551-556 -/
def isConstFalse (e : BoolExpr) : Bool := e = .var 0

def isConstTrue (e : BoolExpr) : Bool := e = .var 1

def expansion : Expansion BoolExpr where
  children := operands
  weight := weight
  weight_children n := Nat.lt_of_succ_le (weight_operands n)

/-- The expanded nodes and the order of the visits.
mirrors src/formal/BoolExpr.cpp:566-588 -/
def simplifyOrder (e : BoolExpr) : List BoolExpr × List BoolExpr := expansion.run [e] [] []

/-- `memo.count(x) ? memo[x] : x` -/
def remembered (memo : List (BoolExpr × BoolExpr)) (x : BoolExpr) : BoolExpr :=
  (memo.lookup x).getD x

/-- mirrors src/formal/BoolExpr.cpp:592-598 -/
def simplifyNot (a : BoolExpr) : BoolExpr :=
  if a.isConstFalse then .var 1
  else if a.isConstTrue then .var 0
  else
    match a with
    | .not b => b
    | a => Not a

/-- mirrors src/formal/BoolExpr.cpp:600-615 -/
def simplifyAnd (a b : BoolExpr) : BoolExpr :=
  if a.isConstFalse || b.isConstFalse then .var 0
  else if a.isConstTrue then b
  else if b.isConstTrue then a
  else if a = b then a
  else if a = .not b ∨ b = .not a then .var 0
  else And a b

/-- mirrors src/formal/BoolExpr.cpp:616-630 -/
def simplifyOr (a b : BoolExpr) : BoolExpr :=
  if a.isConstTrue || b.isConstTrue then .var 1
  else if a.isConstFalse then b
  else if b.isConstFalse then a
  else if a = b then a
  else if a = .not b ∨ b = .not a then .var 1
  else Or a b

/-- mirrors src/formal/BoolExpr.cpp:631-642 -/
def simplifyXor (a b : BoolExpr) : BoolExpr :=
  if a.isConstFalse then b
  else if b.isConstFalse then a
  else if a.isConstTrue then Not b
  else if b.isConstTrue then Not a
  else if a = b then .var 0
  else Xor a b

/-- The `switch` on one node of the order. -/
def simplifyNode (memo : List (BoolExpr × BoolExpr)) : BoolExpr → BoolExpr
  | .not l => simplifyNot (remembered memo l)
  | .and l r => simplifyAnd (remembered memo l) (remembered memo r)
  | .or l r => simplifyOr (remembered memo l) (remembered memo r)
  | .xor l r => simplifyXor (remembered memo l) (remembered memo r)
  | .var id => .var id

/-- The memo after some visits. -/
def rebuild (order : List BoolExpr) : List (BoolExpr × BoolExpr) :=
  order.foldl (fun memo node => (node, simplifyNode memo node) :: memo) []

/-- mirrors src/formal/BoolExpr.cpp:558-650 -/
def simplifyLoop (e : BoolExpr) : BoolExpr :=
  match e with
  | .var id => .var id
  | e => remembered (rebuild (simplifyOrder e).2) e

/-! ## One visit -/

@[simp] theorem isConstFalse_iff {a : BoolExpr} : a.isConstFalse = true ↔ a = .var 0 := by
  simp [isConstFalse]

@[simp] theorem isConstTrue_iff {a : BoolExpr} : a.isConstTrue = true ↔ a = .var 1 := by
  simp [isConstTrue]

theorem simplifyNot_eq (a : BoolExpr) : simplifyNot a = Not a := by
  unfold simplifyNot
  split
  · next h =>
    rw [isConstFalse_iff.1 h]
    rfl
  · split
    · next h =>
      rw [isConstTrue_iff.1 h]
      rfl
    · split <;> rfl

theorem simplifyAnd_eq (a b : BoolExpr) : simplifyAnd a b = And a b := by
  unfold simplifyAnd And
  simp only [Bool.or_eq_true, isConstFalse_iff, isConstTrue_iff]
  split_ifs <;> rfl

theorem simplifyOr_eq (a b : BoolExpr) : simplifyOr a b = Or a b := by
  unfold simplifyOr Or
  simp only [Bool.or_eq_true, isConstFalse_iff, isConstTrue_iff]
  split_ifs <;> rfl

theorem simplifyXor_eq (a b : BoolExpr) : simplifyXor a b = Xor a b := by
  unfold simplifyXor Xor
  simp only [isConstFalse_iff, isConstTrue_iff]
  split_ifs <;> rfl

/-- A visit with rebuilt operands at hand rebuilds the node. -/
theorem simplifyNode_eq {memo : List (BoolExpr × BoolExpr)} {n : BoolExpr}
    (h : ∀ c ∈ n.operands, remembered memo c = c.simplify) : simplifyNode memo n = n.simplify := by
  cases n with
  | var id => rfl
  | not l => rw [simplifyNode, simplifyNot_eq, h l (by simp [operands]), simplify]
  | and l r =>
    rw [simplifyNode, simplifyAnd_eq, h l (by simp [operands]), h r (by simp [operands]), simplify]
  | or l r =>
    rw [simplifyNode, simplifyOr_eq, h l (by simp [operands]), h r (by simp [operands]), simplify]
  | xor l r =>
    rw [simplifyNode, simplifyXor_eq, h l (by simp [operands]), h r (by simp [operands]), simplify]

/-! ## All visits -/

theorem rebuild_concat (order : List BoolExpr) (n : BoolExpr) :
    rebuild (order ++ [n]) = (n, simplifyNode (rebuild order) n) :: rebuild order := by
  simp [rebuild]

/-- The memo holds the rebuilt nodes of the visits so far. -/
theorem remembered_rebuild {order : List BoolExpr} (h : expansion.Ordered order) {n : BoolExpr}
    (hn : n ∈ order) : remembered (rebuild order) n = n.simplify := by
  induction order using List.reverseRecOn generalizing n with
  | nil => cases hn
  | append_singleton order m ih =>
    have hbefore : expansion.Ordered order := fun pre x post hsplit =>
      h pre x (post ++ [m]) (by rw [hsplit, List.append_assoc, List.cons_append])
    have hvisit : simplifyNode (rebuild order) m = m.simplify :=
      simplifyNode_eq fun c hc => ih hbefore (h order m [] rfl c hc)
    rw [rebuild_concat, remembered, List.lookup_cons]
    by_cases hnm : n = m
    · subst hnm
      simp [hvisit]
    · have hold : n ∈ order := by
        rcases List.mem_append.1 hn with hn | hn
        · exact hn
        · exact absurd (List.mem_singleton.1 hn) hnm
      rw [beq_false_of_ne hnm]
      exact ih hbefore hold

/-- Every visit of a node, also a repeated one, gives the same result. -/
theorem rebuild_order {e : BoolExpr} {pre post : List BoolExpr} {n : BoolExpr}
    (h : (simplifyOrder e).2 = pre ++ n :: post) : simplifyNode (rebuild pre) n = n.simplify := by
  have hordered := Expansion.order_children expansion [e]
  have hpre : expansion.Ordered pre := fun pre' x post' hsplit =>
    hordered pre' x (post' ++ n :: post) (by
      rw [← List.cons_append, ← List.append_assoc, ← hsplit]
      exact h)
  exact simplifyNode_eq fun c hc => remembered_rebuild hpre (hordered pre n post h c hc)

theorem simplifyLoop_eq (e : BoolExpr) : simplifyLoop e = e.simplify := by
  have hroot : e ∈ (simplifyOrder e).2 :=
    (Expansion.mem_order expansion [e] e).2 ((Expansion.mem_seen expansion [e] e).2
      ⟨e, List.mem_singleton_self e, Relation.ReflTransGen.refl⟩)
  have hrest := remembered_rebuild (Expansion.order_children expansion [e]) hroot
  cases e with
  | var id => rfl
  | not l => exact hrest
  | and l r => exact hrest
  | or l r => exact hrest
  | xor l r => exact hrest

theorem simplify_of_rebuilds {e : BoolExpr} (h : e.Rebuilds) : e.simplify = e := by
  induction e with
  | var id => rfl
  | not a ih => rw [simplify, ih h.2, h.1]
  | and a b iha ihb => rw [simplify, iha h.2.1, ihb h.2.2, h.1]
  | or a b iha ihb => rw [simplify, iha h.2.1, ihb h.2.2, h.1]
  | xor a b iha ihb => rw [simplify, iha h.2.1, ihb h.2.2, h.1]

/-- The value is kept. Every node is expanded once and visited once for every edge that leads to
it, always with the same result, and expressions made by the factories are given back. -/
theorem simplifyLoop_exact (e : BoolExpr) :
    (∀ σ, (simplifyLoop e).eval σ = e.eval σ) ∧
      (simplifyOrder e).1.Nodup ∧
      (∀ n, n ∈ (simplifyOrder e).1 ↔ HasNode e n) ∧
      (∀ n, (simplifyOrder e).2.count n
        = [e].count n + ((simplifyOrder e).1.map fun m => m.operands.count n).sum) ∧
      (∀ pre n post, (simplifyOrder e).2 = pre ++ n :: post →
        simplifyNode (rebuild pre) n = n.simplify) ∧
      (Built e → simplifyLoop e = e) := by
  refine ⟨fun σ => ?_, Expansion.seen_nodup expansion [e], fun n => ?_,
    Expansion.count_order expansion [e], fun _ _ _ => rebuild_order, fun h => ?_⟩
  · rw [simplifyLoop_eq, eval_simplify]
  · refine (Expansion.mem_seen expansion [e] n).trans ?_
    simp only [List.mem_singleton, exists_eq_left]
    exact Iff.rfl
  · rw [simplifyLoop_eq, simplify_of_rebuilds h.rebuilds]

/-- A shared variable is visited for each of its two edges. -/
theorem simplify_visits_twice :
    ¬ ∀ e n : BoolExpr, HasNode e n → (simplifyOrder e).2.count n = 1 := by
  intro h
  have hshared : HasNode (.or (.not (.var 2)) (.and (.var 2) (.var 3))) (.var 2) :=
    mem_support_iff_hasNode.1 (by decide)
  have hcount := h _ _ hshared
  simp [simplifyOrder, Expansion.run, expansion, operands] at hcount

end BoolExpr
end KeplerFormal
