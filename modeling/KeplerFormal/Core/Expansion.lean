import Mathlib.Algebra.Ring.Nat
import Mathlib.Algebra.Order.Group.Nat
import Mathlib.Algebra.BigOperators.Group.List.Basic
import Mathlib.Logic.Relation

/-!
# Orders by a single expansion

A stack of nodes is unfolded: a node that is met for the first time is put back below its
children, and a node that is met again leaves the stack for the order. So a node is expanded
once, but a shared node enters the order once for every edge that leads to it.

* `Expansion.run`: the loop.
* `Expansion.order_children`: in the order the children of a node stand before it.
* `Expansion.count_order`: how often a node stands in the order.
-/
namespace KeplerFormal.Core

universe u

structure Expansion (α : Type u) where
  children : α → List α
  weight : α → Nat
  weight_children : ∀ n, ((children n).map weight).sum + 1 < weight n

namespace Expansion
variable {α : Type u} [DecidableEq α] (t : Expansion α)

/-- What the stack still costs: a node that was expanded only has to leave it. -/
def cost (seen : List α) (n : α) : Nat := if n ∈ seen then 1 else t.weight n

theorem cost_le (seen : List α) (n : α) : t.cost seen n ≤ t.weight n := by
  have hweight := t.weight_children n
  unfold cost
  split <;> omega

theorem cost_cons_le (seen : List α) (m n : α) : t.cost (m :: seen) n ≤ t.cost seen n := by
  have hweight := t.weight_children n
  by_cases h : n ∈ seen
  · simp [cost, h]
  · unfold cost
    rw [if_neg h]
    split <;> omega

theorem sum_le {f g : α → Nat} (h : ∀ n, f n ≤ g n) (as : List α) :
    (as.map f).sum ≤ (as.map g).sum := by
  induction as with
  | nil => exact Nat.le_refl _
  | cons a as ih =>
    have ha := h a
    simp only [List.map_cons, List.sum_cons]
    omega

/-- The loop: the stack, the nodes that were expanded and the order so far. -/
def run : List α → List α → List α → List α × List α
  | [], seen, order => (seen, order)
  | n :: stack, seen, order =>
    if n ∈ seen then run stack seen (order ++ [n])
    else run (t.children n ++ n :: stack) (n :: seen) order
termination_by stack seen => (stack.map (t.cost seen)).sum
decreasing_by
  · rename_i hmem
    rw [List.map_cons, List.sum_cons, cost, if_pos hmem]
    omega
  · rename_i hmem
    have hweight := t.weight_children n
    have hchildren := sum_le (t.cost_le (n :: seen)) (t.children n)
    have hstack := sum_le (t.cost_cons_le seen n) stack
    have hself : t.cost (n :: seen) n = 1 := if_pos List.mem_cons_self
    have hbefore : t.cost seen n = t.weight n := if_neg hmem
    simp only [List.map_append, List.map_cons, List.sum_append, List.sum_cons]
    omega

variable {t}

/-- The order so far ends at nodes whose children stand before them. -/
def Ordered (t : Expansion α) (order : List α) : Prop :=
  ∀ pre n post, order = pre ++ n :: post → ∀ c ∈ t.children n, c ∈ pre

/-- An expanded node that has not left the stack waits for smaller nodes above it, its children
among them. -/
structure Inv (t : Expansion α) (roots stack seen order : List α) : Prop where
  ordered : Ordered t order
  finished : ∀ n ∈ order, n ∈ seen
  waiting : ∀ n ∈ seen, n ∉ order → ∃ pre post, stack = pre ++ n :: post ∧
    (∀ x ∈ pre, t.weight x < t.weight n) ∧ ∀ c ∈ t.children n, c ∈ order ∨ c ∈ pre
  nodup : seen.Nodup
  counts : ∀ n, order.count n + stack.count n
    = roots.count n + (seen.map fun m => (t.children m).count n).sum

theorem weight_child {n c : α} (hc : c ∈ t.children n) : t.weight c < t.weight n := by
  have hweight := t.weight_children n
  have hle : t.weight c ≤ ((t.children n).map t.weight).sum := by
    generalize t.children n = cs at hc
    induction cs with
    | nil => cases hc
    | cons d cs ih =>
      rw [List.map_cons, List.sum_cons]
      rcases List.mem_cons.1 hc with rfl | hc
      · omega
      · have hrest := ih hc
        omega
  omega

variable {roots stack seen order : List α} {n : α}

theorem Inv.append (h : Inv t roots (n :: stack) seen order) (hn : n ∈ seen) :
    Inv t roots stack seen (order ++ [n]) := by
  have hdone : ∀ c ∈ t.children n, c ∈ order := by
    intro c hc
    by_cases hin : n ∈ order
    · obtain ⟨pre, post, hsplit⟩ := List.append_of_mem hin
      rw [hsplit]
      exact List.mem_append_left _ (h.ordered pre n post hsplit c hc)
    · obtain ⟨pre, post, hsplit, hsmall, hchildren⟩ := h.waiting n hn hin
      cases pre with
      | nil => exact (hchildren c hc).resolve_right List.not_mem_nil
      | cons x pre =>
        obtain rfl : n = x := (List.cons.inj hsplit).1
        exact absurd (hsmall n List.mem_cons_self) (Nat.lt_irrefl _)
  refine ⟨?_, ?_, ?_, h.nodup, ?_⟩
  · intro pre m post hsplit c hc
    rcases List.append_eq_append_iff.1 hsplit with ⟨as, hpre, hpost⟩ | ⟨as, horder, hpost⟩
    · cases as with
      | nil =>
        obtain ⟨rfl, -⟩ := List.cons.inj hpost
        rw [hpre, List.append_nil]
        exact hdone c hc
      | cons a as =>
        have hlen := congrArg List.length hpost
        simp at hlen
    · cases as with
      | nil =>
        obtain ⟨rfl, -⟩ := List.cons.inj hpost
        rw [List.append_nil] at horder
        exact horder ▸ hdone c hc
      | cons a as =>
        obtain ⟨rfl, -⟩ := List.cons.inj hpost
        exact h.ordered pre m as horder c hc
  · intro m hm
    rcases List.mem_append.1 hm with hm | hm
    · exact h.finished m hm
    · rw [List.mem_singleton.1 hm]
      exact hn
  · intro m hm hout
    rw [List.mem_append, not_or, List.mem_singleton] at hout
    obtain ⟨pre, post, hsplit, hsmall, hchildren⟩ := h.waiting m hm hout.1
    cases pre with
    | nil => exact absurd (List.cons.inj hsplit).1.symm hout.2
    | cons x pre =>
      obtain ⟨rfl, hrest⟩ := List.cons.inj hsplit
      refine ⟨pre, post, hrest, fun y hy => hsmall y (List.mem_cons_of_mem _ hy), fun c hc => ?_⟩
      rcases hchildren c hc with hc | hc
      · exact Or.inl (List.mem_append_left _ hc)
      · rcases List.mem_cons.1 hc with rfl | hc
        · exact Or.inl (List.mem_append_right _ (List.mem_singleton_self _))
        · exact Or.inr hc
  · intro m
    have hcounts := h.counts m
    rw [List.count_append, List.count_singleton]
    rw [List.count_cons] at hcounts
    omega

theorem Inv.expand (h : Inv t roots (n :: stack) seen order) (hn : n ∉ seen) :
    Inv t roots (t.children n ++ n :: stack) (n :: seen) order := by
  refine ⟨h.ordered, fun m hm => List.mem_cons_of_mem _ (h.finished m hm), ?_,
    List.nodup_cons.2 ⟨hn, h.nodup⟩, ?_⟩
  · intro m hm hout
    rcases List.mem_cons.1 hm with rfl | hm
    · exact ⟨t.children m, stack, rfl, fun x hx => weight_child hx, fun c hc => Or.inr hc⟩
    · obtain ⟨pre, post, hsplit, hsmall, hchildren⟩ := h.waiting m hm hout
      cases pre with
      | nil =>
        obtain ⟨rfl, -⟩ := List.cons.inj hsplit
        exact absurd hm hn
      | cons x pre =>
        obtain ⟨rfl, hrest⟩ := List.cons.inj hsplit
        have htop := hsmall n List.mem_cons_self
        refine ⟨t.children n ++ n :: pre, post, by rw [hrest, List.append_assoc]; rfl, ?_,
          fun c hc => (hchildren c hc).imp id (List.mem_append_right _)⟩
        intro y hy
        rcases List.mem_append.1 hy with hy | hy
        · exact (weight_child hy).trans htop
        · exact hsmall y hy
  · intro m
    have hcounts := h.counts m
    rw [List.count_append, List.map_cons, List.sum_cons]
    omega

theorem Inv.run (h : Inv t roots stack seen order) :
    Inv t roots [] (t.run stack seen order).1 (t.run stack seen order).2 ∧
      (∀ m ∈ stack, m ∈ (t.run stack seen order).1) ∧
      ∀ m ∈ seen, m ∈ (t.run stack seen order).1 := by
  induction stack, seen, order using Expansion.run.induct (t := t) with
  | case1 seen order =>
    rw [Expansion.run]
    exact ⟨h, by simp, fun _ hm => hm⟩
  | case2 n stack seen order hn ih =>
    rw [Expansion.run, if_pos hn]
    obtain ⟨hinv, hstack, hseen⟩ := ih (h.append hn)
    refine ⟨hinv, fun m hm => ?_, hseen⟩
    rcases List.mem_cons.1 hm with rfl | hm
    · exact hseen m hn
    · exact hstack m hm
  | case3 n stack seen order hn ih =>
    rw [Expansion.run, if_neg hn]
    obtain ⟨hinv, hstack, hseen⟩ := ih (h.expand hn)
    exact ⟨hinv, fun m hm => hstack m (List.mem_append_right _ hm),
      fun m hm => hseen m (List.mem_cons_of_mem _ hm)⟩

/-- Expanded nodes are met on the way from the roots. -/
theorem reached_run {P : α → Prop} (hP : ∀ n, P n → ∀ c ∈ t.children n, P c)
    (hstack : ∀ n ∈ stack, P n) (hseen : ∀ n ∈ seen, P n) :
    ∀ n ∈ (t.run stack seen order).1, P n := by
  induction stack, seen, order using Expansion.run.induct (t := t) with
  | case1 seen order =>
    rw [Expansion.run]
    exact hseen
  | case2 n stack seen order hn ih =>
    rw [Expansion.run, if_pos hn]
    exact ih (fun m hm => hstack m (List.mem_cons_of_mem _ hm)) hseen
  | case3 n stack seen order hn ih =>
    rw [Expansion.run, if_neg hn]
    have hself := hstack n List.mem_cons_self
    refine ih (fun m hm => ?_) fun m hm => ?_
    · rcases List.mem_append.1 hm with hm | hm
      · exact hP n hself m hm
      · exact hstack m hm
    · rcases List.mem_cons.1 hm with rfl | hm
      · exact hself
      · exact hseen m hm

theorem inv_start (t : Expansion α) (roots : List α) : Inv t roots roots [] [] where
  ordered pre n post hsplit := by
    have hlen := congrArg List.length hsplit
    simp at hlen
  finished := by simp
  waiting := by simp
  nodup := List.nodup_nil
  counts := by simp

/-- In the order the children of a node stand before it. -/
theorem order_children (t : Expansion α) (roots : List α) : Ordered t (t.run roots [] []).2 :=
  (inv_start t roots).run.1.ordered

theorem seen_nodup (t : Expansion α) (roots : List α) : (t.run roots [] []).1.Nodup :=
  (inv_start t roots).run.1.nodup

/-- The order holds the expanded nodes. -/
theorem mem_order (t : Expansion α) (roots : List α) (n : α) :
    n ∈ (t.run roots [] []).2 ↔ n ∈ (t.run roots [] []).1 := by
  have hinv := (inv_start t roots).run.1
  refine ⟨hinv.finished n, fun hn => ?_⟩
  by_contra hout
  obtain ⟨pre, post, hsplit, -⟩ := hinv.waiting n hn hout
  have hlen := congrArg List.length hsplit
  simp at hlen

/-- These are the nodes below the roots. -/
theorem mem_seen (t : Expansion α) (roots : List α) (n : α) :
    n ∈ (t.run roots [] []).1 ↔
      ∃ r ∈ roots, Relation.ReflTransGen (fun a c => c ∈ t.children a) r n := by
  constructor
  · refine reached_run (P := fun n => ∃ r ∈ roots,
      Relation.ReflTransGen (fun a c => c ∈ t.children a) r n) ?_ ?_ (by simp) n
    · rintro m ⟨r, hr, hreach⟩ c hc
      exact ⟨r, hr, hreach.tail hc⟩
    · exact fun r hr => ⟨r, hr, Relation.ReflTransGen.refl⟩
  · rintro ⟨r, hr, hreach⟩
    induction hreach with
    | refl => exact (inv_start t roots).run.2.1 r hr
    | tail _ hc ih =>
      obtain ⟨pre, post, hsplit⟩ := List.append_of_mem ((mem_order t roots _).2 ih)
      rw [← mem_order, hsplit]
      exact List.mem_append_left _ (order_children t roots pre _ post hsplit _ hc)

/-- A node stands in the order as often as roots and edges lead to it. -/
theorem count_order (t : Expansion α) (roots : List α) (n : α) :
    (t.run roots [] []).2.count n
      = roots.count n + ((t.run roots [] []).1.map fun m => (t.children m).count n).sum := by
  have hcounts := (inv_start t roots).run.1.counts n
  rwa [List.count_nil, Nat.add_zero] at hcounts

end Expansion
end KeplerFormal.Core
