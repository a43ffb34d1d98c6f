import Mathlib.Algebra.Ring.Nat
import Mathlib.Algebra.Order.BigOperators.Group.List
import Mathlib.Algebra.Order.Group.Nat
import Mathlib.Logic.Relation

/-!
# Postorder traversal with an explicit stack

A traversal keeps a stack of nodes, each with a mark that says whether its children were
pushed. A node that is done is dropped; one without children, or with the mark, is finished;
any other is pushed again with the mark, below its children. A failure leaves the state in
which the failing step left it.

* `Traversal.run`: the loop; every step makes the stack lighter.
* `Traversal.run_spec`: a rule for the whole loop from one about finishing a node whose
  children are done. Either everything on the stack is done, or a node that was reached
  failed.
* `Traversal.visit_spec`: the same for a single root.
-/
namespace KeplerFormal.Core

universe u v w

structure Traversal (α : Type u) (S : Type v) (ε : Type w) where
  children : α → List α
  done : S → α → Bool
  finish : α → S → Except (ε × S) S
  /-- Whether children that are done are left out when the others are pushed. -/
  skipDone : Bool
  weight : α → Nat
  weight_children : ∀ n, ((children n).map weight).sum + 2 ≤ weight n

namespace Traversal
variable {α : Type u} {S : Type v} {ε : Type w} (t : Traversal α S ε)

def Reaches : α → α → Prop := Relation.ReflTransGen fun n c => c ∈ t.children n

/-- The children that are pushed, the first one on top. -/
def pushed (s : S) (n : α) : List (α × Bool) :=
  ((t.children n).filter fun c => !(t.skipDone && t.done s c)).map fun c => (c, false)

def stackWeight (stack : List (α × Bool)) : Nat :=
  (stack.map fun item => if item.2 then 1 else t.weight item.1).sum

theorem stackWeight_cons (item : α × Bool) (stack : List (α × Bool)) :
    t.stackWeight (item :: stack) =
      (if item.2 then 1 else t.weight item.1) + t.stackWeight stack := by
  rw [stackWeight, List.map_cons, List.sum_cons, stackWeight]

theorem weight_pos (n : α) : 2 ≤ t.weight n := by
  have h := t.weight_children n
  omega

theorem stackWeight_tail_lt (n : α) (visited : Bool) (rest : List (α × Bool)) :
    t.stackWeight rest < t.stackWeight ((n, visited) :: rest) := by
  have hpos := t.weight_pos n
  rw [stackWeight_cons]
  cases visited
  · change _ < t.weight n + _
    omega
  · change _ < 1 + _
    omega

theorem stackWeight_pushed (s : S) (n : α) (rest : List (α × Bool)) :
    t.stackWeight (t.pushed s n ++ (n, true) :: rest) < t.weight n + t.stackWeight rest := by
  have hchildren := t.weight_children n
  have hpushed : t.stackWeight (t.pushed s n) ≤ ((t.children n).map t.weight).sum := by
    unfold pushed stackWeight
    rw [List.map_map]
    exact List.Sublist.sum_le_sum (List.filter_sublist.map _) fun _ _ => Nat.zero_le _
  have happend : t.stackWeight (t.pushed s n ++ (n, true) :: rest) =
      t.stackWeight (t.pushed s n) + (1 + t.stackWeight rest) := by
    simp [stackWeight]
  omega

/-- The loop, until the stack is empty. -/
def run : List (α × Bool) → S → Except (ε × S) S
  | [], s => .ok s
  | (n, visited) :: rest, s =>
    if t.done s n then run rest s
    else if visited ∨ (t.children n).isEmpty then
      match t.finish n s with
      | .ok s' => run rest s'
      | .error failure => .error failure
    else run (t.pushed s n ++ (n, true) :: rest) s
termination_by stack _ => t.stackWeight stack
decreasing_by
  · exact t.stackWeight_tail_lt n visited rest
  · exact t.stackWeight_tail_lt n visited rest
  · rename_i hinner
    have hunmarked : visited = false := (Bool.not_eq_true _).mp (not_or.mp hinner).1
    have h := t.stackWeight_pushed s n rest
    rw [stackWeight_cons]
    simpa [hunmarked] using h

/-- A traversal from one root. -/
def visit (root : α) (s : S) : Except (ε × S) S := t.run [(root, false)] s

/-! ## The invariant of the stack -/

/-- Every node that was pushed a second time has its other children above it. -/
def Settled (s : S) : List α → List (α × Bool) → Prop
  | _, [] => True
  | above, (n, visited) :: rest =>
    (visited = true → ∀ c ∈ t.children n, t.done s c = true ∨ c ∈ above) ∧
      Settled s (n :: above) rest

variable {t}

theorem Settled.mono {s s' : S} {above above' : List α} {stack : List (α × Bool)}
    (h : t.Settled s above stack) (hdone : ∀ x, t.done s x = true → t.done s' x = true)
    (habove : ∀ x ∈ above, t.done s' x = true ∨ x ∈ above') : t.Settled s' above' stack := by
  induction stack generalizing above above' with
  | nil => trivial
  | cons item rest ih =>
    obtain ⟨n, visited⟩ := item
    obtain ⟨hhead, hrest⟩ := h
    refine ⟨fun hv c hc => ?_, ih hrest fun x hx => ?_⟩
    · rcases hhead hv c hc with hd | ha
      · exact .inl (hdone c hd)
      · exact habove c ha
    · rcases List.mem_cons.mp hx with rfl | ha
      · exact .inr List.mem_cons_self
      · exact (habove x ha).imp_right (List.mem_cons_of_mem _)

theorem Settled.pushed_append {s : S} {above : List α} {fresh stack : List (α × Bool)}
    (hfresh : ∀ item ∈ fresh, item.2 = false)
    (h : t.Settled s ((fresh.map Prod.fst).reverse ++ above) stack) :
    t.Settled s above (fresh ++ stack) := by
  induction fresh generalizing above with
  | nil => exact h
  | cons item fresh ih =>
    obtain ⟨n, visited⟩ := item
    refine ⟨fun hv => ?_, ih (fun i hi => hfresh i (List.mem_cons_of_mem _ hi)) ?_⟩
    · have hfalse := hfresh (n, visited) List.mem_cons_self
      rw [show visited = false from hfalse] at hv
      exact absurd hv Bool.false_ne_true
    · simpa using h

theorem mem_pushed {s : S} {n c : α} (hc : c ∈ t.children n) :
    t.done s c = true ∨ (c, false) ∈ t.pushed s n := by
  by_cases hd : t.done s c = true
  · exact .inl hd
  · refine .inr (List.mem_map.mpr ⟨c, List.mem_filter.mpr ⟨hc, ?_⟩, rfl⟩)
    simp [hd]

theorem of_mem_pushed {s : S} {n : α} {item : α × Bool} (h : item ∈ t.pushed s n) :
    item.1 ∈ t.children n ∧ item.2 = false := by
  obtain ⟨c, hc, rfl⟩ := List.mem_map.mp h
  exact ⟨List.mem_of_mem_filter hc, rfl⟩

/-! ## The rule -/

/-- What finishing a node has to give: the node is done and the invariant kept, or a
failure that `Bad` describes. -/
def Finishes (t : Traversal α S ε) (I : S → Prop) (Bad : α → ε → Prop) (n : α) (s : S) : Prop :=
  (∃ s', t.finish n s = .ok s' ∧ I s' ∧ t.done s' n = true ∧
    ∀ x, t.done s x = true → t.done s' x = true) ∨
  (∃ e s', t.finish n s = .error (e, s') ∧ I s' ∧ Bad n e)

/-- A node that is finished has its children done. -/
theorem Settled.children_done {s : S} {n : α} {visited : Bool} {rest : List (α × Bool)}
    (h : t.Settled s [] ((n, visited) :: rest)) (hready : visited ∨ (t.children n).isEmpty) :
    ∀ c ∈ t.children n, t.done s c = true := by
  intro c hc
  rcases hready with hv | hleaf
  · exact (h.1 hv c hc).resolve_right List.not_mem_nil
  · rw [List.isEmpty_iff.mp hleaf] at hc
    exact absurd hc List.not_mem_nil

theorem run_spec {I : S → Prop} {Bad : α → ε → Prop} {roots : List α}
    (hfinish : ∀ n s, (∃ r ∈ roots, t.Reaches r n) → I s → t.done s n = false →
      (∀ c ∈ t.children n, t.done s c = true) → t.Finishes I Bad n s)
    (stack : List (α × Bool)) (s : S) (hI : I s)
    (hroots : ∀ item ∈ stack, ∃ r ∈ roots, t.Reaches r item.1)
    (hsettled : t.Settled s [] stack) :
    (∃ s', t.run stack s = .ok s' ∧ I s' ∧ (∀ item ∈ stack, t.done s' item.1 = true) ∧
      ∀ x, t.done s x = true → t.done s' x = true) ∨
    (∃ e s' n, t.run stack s = .error (e, s') ∧ I s' ∧ Bad n e ∧ ∃ r ∈ roots, t.Reaches r n) := by
  induction stack, s using Traversal.run.induct (t := t) with
  | case1 s => exact .inl ⟨s, by rw [run], hI, fun _ h => absurd h List.not_mem_nil, fun _ h => h⟩
  | case2 n visited rest s hdone ih =>
    rw [run, if_pos hdone]
    have hnext := ih hI (fun item hitem => hroots item (List.mem_cons_of_mem _ hitem))
      (hsettled.2.mono (fun _ h => h) fun x hx => .inl (by
        rw [List.mem_singleton.mp hx]; exact hdone))
    rcases hnext with ⟨s', hrun, hI', hall, hmono⟩ | hfail
    · refine .inl ⟨s', hrun, hI', fun item hitem => ?_, hmono⟩
      rcases List.mem_cons.mp hitem with rfl | hrest
      · exact hmono _ hdone
      · exact hall item hrest
    · exact .inr hfail
  | case3 n visited rest s hdone hready s₁ hfinished ih =>
    rw [run, if_neg hdone, if_pos hready, hfinished]
    have hstep := hfinish n s (hroots _ List.mem_cons_self) hI ((Bool.not_eq_true _).mp hdone)
      (hsettled.children_done hready)
    rcases hstep with ⟨s₂, hok, hI₁, hn, hmono₁⟩ | ⟨e, s₂, herror, -⟩
    · rw [hfinished] at hok
      obtain rfl := Except.ok.inj hok
      have hnext := ih hI₁ (fun item hitem => hroots item (List.mem_cons_of_mem _ hitem))
        (hsettled.2.mono hmono₁ fun x hx => .inl (by rw [List.mem_singleton.mp hx]; exact hn))
      rcases hnext with ⟨s', hrun, hI', hall, hmono⟩ | hfail
      · refine .inl ⟨s', hrun, hI', fun item hitem => ?_, fun x hx => hmono x (hmono₁ x hx)⟩
        rcases List.mem_cons.mp hitem with rfl | hrest
        · exact hmono _ hn
        · exact hall item hrest
      · exact .inr hfail
    · rw [hfinished] at herror
      cases herror
  | case4 n visited rest s hdone hready failure hfinished =>
    rw [run, if_neg hdone, if_pos hready, hfinished]
    have hstep := hfinish n s (hroots _ List.mem_cons_self) hI ((Bool.not_eq_true _).mp hdone)
      (hsettled.children_done hready)
    rcases hstep with ⟨s₂, hok, -⟩ | ⟨e, s₂, herror, hI₂, hbad⟩
    · rw [hfinished] at hok
      cases hok
    · rw [hfinished] at herror
      exact .inr ⟨e, s₂, n, herror, hI₂, hbad, hroots _ List.mem_cons_self⟩
  | case5 n visited rest s hdone hinner ih =>
    rw [run, if_neg hdone, if_neg hinner]
    have hreach := hroots _ List.mem_cons_self
    have hnext := ih hI ?_ ?_
    · rcases hnext with ⟨s', hrun, hI', hall, hmono⟩ | hfail
      · refine .inl ⟨s', hrun, hI', fun item hitem => ?_, hmono⟩
        rcases List.mem_cons.mp hitem with rfl | hrest
        · exact hall (n, true) (List.mem_append_right _ List.mem_cons_self)
        · exact hall item (List.mem_append_right _ (List.mem_cons_of_mem _ hrest))
      · exact .inr hfail
    · intro item hitem
      rcases List.mem_append.mp hitem with hnew | hold
      · obtain ⟨r, hr, hpath⟩ := hreach
        exact ⟨r, hr, hpath.tail (of_mem_pushed hnew).1⟩
      · rcases List.mem_cons.mp hold with rfl | hrest
        · exact hreach
        · exact hroots item (List.mem_cons_of_mem _ hrest)
    · refine Settled.pushed_append (fun item hitem => (of_mem_pushed hitem).2)
        ⟨fun _ c hc => ?_, ?_⟩
      · rw [List.append_nil, List.mem_reverse]
        exact (mem_pushed hc).imp_right fun h => List.mem_map_of_mem (f := Prod.fst) h
      · refine hsettled.2.mono (fun _ h => h) fun x hx => .inr ?_
        rw [List.mem_singleton.mp hx]
        exact List.mem_cons_self

/-- From one root: it is done, or a node that it reaches failed. -/
theorem visit_spec {I : S → Prop} {Bad : α → ε → Prop} {root : α}
    (hfinish : ∀ n s, t.Reaches root n → I s → t.done s n = false →
      (∀ c ∈ t.children n, t.done s c = true) → t.Finishes I Bad n s) {s : S} (hI : I s) :
    (∃ s', t.visit root s = .ok s' ∧ I s' ∧ t.done s' root = true ∧
      ∀ x, t.done s x = true → t.done s' x = true) ∨
    (∃ e s' n, t.visit root s = .error (e, s') ∧ I s' ∧ Bad n e ∧ t.Reaches root n) := by
  have hrun := @run_spec _ _ _ t I Bad [root]
    (fun n s ⟨r, hr, hpath⟩ => hfinish n s (List.mem_singleton.mp hr ▸ hpath)) [(root, false)] s hI
    (fun item hitem => ⟨root, List.mem_singleton_self _, by
      rw [List.mem_singleton.mp hitem]; exact .refl⟩)
    ⟨fun h => absurd h Bool.false_ne_true, trivial⟩
  rcases hrun with ⟨s', hok, hI', hall, hmono⟩ | ⟨e, s', n, herror, hI', hbad, r, hr, hpath⟩
  · exact .inl ⟨s', hok, hI', hall _ List.mem_cons_self, hmono⟩
  · exact .inr ⟨e, s', n, herror, hI', hbad, List.mem_singleton.mp hr ▸ hpath⟩

end Traversal
end KeplerFormal.Core
