import Mathlib.Algebra.Ring.Nat
import Mathlib.Algebra.BigOperators.Group.Finset.Basic
import Mathlib.Algebra.Order.BigOperators.Group.Finset
import Mathlib.Logic.Function.Basic

/-!
# Incremental evaluation

Every node has a value that depends on the values of its children. A table of values
is kept up to date by recomputing one node at a time: a node is pending when its value
may differ from what its children say.

* `Equations`: children, a rank that decreases towards them, and the step function.
* `Settled`: all nodes of a set that are not pending satisfy their equation;
  `Settled.update` recomputes a node and makes its parents pending.
* `Settled.unique`: with nothing pending the table holds the values of the equations.
* `load`: a weight that a node outlives; it pays for the parents that the node may make
  pending, so recomputing pending nodes comes to an end.
-/
namespace KeplerFormal.Core

universe u v
variable {α : Type u} {β : Type v}

structure Equations (α : Type u) (β : Type v) where
  children : α → List α
  rank : α → Nat
  step : (α → β) → α → β
  rank_lt : ∀ a, ∀ c ∈ children a, rank c < rank a
  step_congr : ∀ v w a, (∀ c ∈ children a, v c = w c) → step v a = step w a

namespace Equations
variable (E : Equations α β)

/-- The set holds the children of its nodes. -/
def Closed (known : α → Prop) : Prop := ∀ a, known a → ∀ c ∈ E.children a, known c

def Settled (known pending : α → Prop) (v : α → β) : Prop :=
  ∀ a, known a → ¬ pending a → v a = E.step v a

/-- The values of all nodes. -/
def Solves (w : α → β) : Prop := ∀ a, w a = E.step w a

variable {E} {known pending : α → Prop} {v : α → β}

theorem Settled.mono {more : α → Prop} (h : E.Settled known pending v)
    (hmore : ∀ a, known a → pending a → more a) : E.Settled known more v :=
  fun a ha hnot => h a ha fun hpending => hnot (hmore a ha hpending)

/-- By induction on the rank. -/
theorem Settled.unique (hclosed : E.Closed known) (h : E.Settled known (fun _ => False) v)
    {w : α → β} (hw : E.Solves w) : ∀ a, known a → v a = w a := by
  have hrank : ∀ n a, E.rank a < n → known a → v a = w a := by
    intro n
    induction n with
    | zero => exact fun a hlt => absurd hlt (Nat.not_lt_zero _)
    | succ n ih =>
      intro a hlt ha
      rw [h a ha id, hw a]
      apply E.step_congr
      intro c hc
      have hsmaller := E.rank_lt a c hc
      exact ih c (by omega) (hclosed a ha c hc)
  exact fun a ha => hrank _ a (Nat.lt_succ_self _) ha

/-- Recomputing a node settles it; its parents are pending if its value changed. -/
theorem Settled.update [DecidableEq α] (h : E.Settled known pending v) (n : α) :
    E.Settled known (fun a => (pending a ∧ a ≠ n) ∨ (v n ≠ E.step v n ∧ n ∈ E.children a))
      (Function.update v n (E.step v n)) := by
  intro a ha hnot
  by_cases hsame : v n = E.step v n
  · rw [← hsame, Function.update_eq_self]
    by_cases han : a = n
    · rw [han]
      exact hsame
    · exact h a ha fun hpending => hnot (.inl ⟨hpending, han⟩)
  · have hchild : n ∉ E.children a := fun hc => hnot (.inr ⟨hsame, hc⟩)
    have hkept : E.step (Function.update v n (E.step v n)) a = E.step v a := by
      apply E.step_congr
      intro c hc
      have hcn : c ≠ n := fun hcn => hchild (hcn.subst hc)
      exact Function.update_of_ne hcn _ _
    rw [hkept]
    by_cases han : a = n
    · rw [han, Function.update_self]
    · rw [Function.update_of_ne han]
      exact h a ha fun hpending => hnot (.inl ⟨hpending, han⟩)

/-! ## Termination -/

section Load
variable (parents : α → List α)

/-- What a node may set in motion within `n` levels of parents. -/
def weight : Nat → α → Nat
  | 0, _ => 1
  | n + 1, a => 1 + ((parents a).map (weight n)).sum

theorem weight_le_succ (n : Nat) (a : α) : weight parents n a ≤ weight parents (n + 1) a := by
  induction n generalizing a with
  | zero => exact Nat.le_add_right 1 _
  | succ n ih => exact Nat.add_le_add_left (List.sum_le_sum fun p _ => ih p) 1

theorem weight_mono {n m : Nat} (h : n ≤ m) (a : α) : weight parents n a ≤ weight parents m a := by
  induction h with
  | refl => exact Nat.le_refl _
  | step _ ih => exact ih.trans (weight_le_succ parents _ a)

variable (E) (bound : Nat)

/-- The weight of a node when no rank exceeds `bound`. -/
def load (a : α) : Nat := weight parents (bound - E.rank a) a

variable {E} {parents bound}

/-- A node pays for itself and for its parents. -/
theorem parents_load_lt (a : α)
    (hparents : ∀ p ∈ parents a, E.rank a < E.rank p ∧ E.rank p ≤ bound) :
    ((parents a).map (E.load parents bound)).sum < E.load parents bound a := by
  unfold load
  cases hlevel : bound - E.rank a with
  | zero =>
    have hnone : parents a = [] := by
      apply List.eq_nil_iff_forall_not_mem.mpr
      intro p hp
      have hrank := hparents p hp
      omega
    rw [hnone]
    exact Nat.zero_lt_one
  | succ n =>
    have hle : ((parents a).map fun p => weight parents (bound - E.rank p) p).sum ≤
        ((parents a).map (weight parents n)).sum := by
      apply List.sum_le_sum
      intro p hp
      have hrank := hparents p hp
      exact weight_mono parents (by omega) p
    exact Nat.lt_of_le_of_lt hle (Nat.lt_add_of_pos_left Nat.zero_lt_one)

theorem sum_load_le [DecidableEq α] {queue nodes : List α} (hnodup : queue.Nodup)
    (hsub : queue ⊆ nodes) :
    (queue.map (E.load parents bound)).sum ≤ ∑ a ∈ nodes.toFinset, E.load parents bound a := by
  rw [← List.sum_toFinset _ hnodup]
  apply Finset.sum_le_sum_of_subset
  intro a ha
  exact List.mem_toFinset.mpr (hsub (List.mem_toFinset.mp ha))

end Load

end Equations
end KeplerFormal.Core
