import Mathlib.Algebra.Ring.Nat
import Mathlib.Algebra.Order.Group.Nat
import Mathlib.Algebra.BigOperators.Group.List.Basic
import Mathlib.Logic.Relation

/-!
# Sweeps

A sweep visits every node below some roots once, a node before its children. Unlike a
postorder traversal it needs no marks: the nodes that were met are remembered in a list.

* `Sweep.run`: the loop.
* `Sweep.run_closed`: after a sweep every node below the roots has had its visit.
* `Sweep.run_collects`: where a visit adds what its node gives, the sweep adds what all nodes
  below the roots give, and it fails when one of them has nothing to give.
-/
namespace KeplerFormal.Core

universe u v w x

structure Sweep (α : Type u) (S : Type v) (ε : Type w) where
  children : α → List α
  visit : α → S → Except ε S
  weight : α → Nat
  weight_children : ∀ n, ((children n).map weight).sum < weight n

namespace Sweep
variable {α : Type u} {S : Type v} {ε : Type w} (t : Sweep α S ε)

def Reaches : α → α → Prop := Relation.ReflTransGen fun n c => c ∈ t.children n

variable [DecidableEq α]

/-- The loop, with the nodes it has met; a failure leaves the state as it was. -/
def run : List α → List α → S → Except (ε × S) S
  | [], _, s => .ok s
  | n :: rest, met, s =>
    if n ∈ met then run rest met s
    else
      match t.visit n s with
      | .ok s' => run (t.children n ++ rest) (n :: met) s'
      | .error e => .error (e, s)
termination_by stack => (stack.map t.weight).sum
decreasing_by
  · have hchildren := t.weight_children n
    rw [List.map_cons, List.sum_cons]
    omega
  · have hchildren := t.weight_children n
    rw [List.map_append, List.sum_append, List.map_cons, List.sum_cons]
    omega

variable {t}

/-- Where a visit has an effect that later visits keep, every node below the roots has had it. -/
theorem run_closed {P : α → S → Prop}
    (hvisit : ∀ n s s', t.visit n s = .ok s' → P n s' ∧ ∀ m, P m s → P m s')
    {stack met : List α} {s s' : S} (hrun : t.run stack met s = .ok s')
    (hmet : ∀ n ∈ met, P n s ∧ ∀ c ∈ t.children n, c ∈ met ∨ c ∈ stack) :
    ∃ all : List α, (∀ n ∈ met, n ∈ all) ∧ (∀ n ∈ stack, n ∈ all) ∧
      ∀ n ∈ all, P n s' ∧ ∀ c ∈ t.children n, c ∈ all := by
  induction stack, met, s using Sweep.run.induct (t := t) with
  | case1 met s =>
    rw [run] at hrun
    obtain rfl := Except.ok.inj hrun
    refine ⟨met, fun _ h => h, fun _ h => absurd h List.not_mem_nil, fun n hn => ?_⟩
    exact ⟨(hmet n hn).1, fun c hc => ((hmet n hn).2 c hc).resolve_right List.not_mem_nil⟩
  | case2 n rest met s hn ih =>
    rw [run, if_pos hn] at hrun
    obtain ⟨all, hall, hstack, hclosed⟩ := ih hrun fun m hm => by
      refine ⟨(hmet m hm).1, fun c hc => ?_⟩
      rcases (hmet m hm).2 c hc with hc | hc
      · exact .inl hc
      · rcases List.mem_cons.mp hc with rfl | hc
        · exact .inl hn
        · exact .inr hc
    exact ⟨all, hall, List.forall_mem_cons.mpr ⟨hall n hn, hstack⟩, hclosed⟩
  | case3 n rest met s hn s₁ hstep ih =>
    rw [run, if_neg hn, hstep] at hrun
    obtain ⟨hnow, hkeep⟩ := hvisit n s s₁ hstep
    obtain ⟨all, hall, hstack, hclosed⟩ := ih hrun (List.forall_mem_cons.mpr
      ⟨⟨hnow, fun c hc => .inr (List.mem_append_left _ hc)⟩, fun m hm => by
        refine ⟨hkeep m (hmet m hm).1, fun c hc => ?_⟩
        rcases (hmet m hm).2 c hc with hc | hc
        · exact .inl (List.mem_cons_of_mem _ hc)
        · rcases List.mem_cons.mp hc with rfl | hc
          · exact .inl List.mem_cons_self
          · exact .inr (List.mem_append_right _ hc)⟩)
    refine ⟨all, fun m hm => hall m (List.mem_cons_of_mem _ hm),
      List.forall_mem_cons.mpr ⟨hall n List.mem_cons_self, fun m hm => ?_⟩, hclosed⟩
    exact hstack m (List.mem_append_right _ hm)
  | case4 n rest met s hn e hstep =>
    rw [run, if_neg hn, hstep] at hrun
    cases hrun

theorem run_reaches {P : α → S → Prop}
    (hvisit : ∀ n s s', t.visit n s = .ok s' → P n s' ∧ ∀ m, P m s → P m s')
    {roots : List α} {s s' : S} (hrun : t.run roots [] s = .ok s') {r n : α} (hr : r ∈ roots)
    (hn : t.Reaches r n) : P n s' := by
  obtain ⟨all, -, hstack, hclosed⟩ := run_closed hvisit hrun
    fun n hn => absurd hn List.not_mem_nil
  have hall : n ∈ all := by
    induction hn with
    | refl => exact hstack r hr
    | tail _ hc ih => exact (hclosed _ ih).2 _ hc
  exact (hclosed n hall).1

/-- What visits below the roots keep, the sweep keeps; it fails at one of these. -/
theorem run_keeps {I : S → Prop} {roots : List α}
    (hvisit : ∀ n s s', (∃ r ∈ roots, t.Reaches r n) → I s → t.visit n s = .ok s' → I s')
    (stack met : List α) (s : S) (hI : I s)
    (hroots : ∀ n ∈ stack, ∃ r ∈ roots, t.Reaches r n) :
    (∃ s', t.run stack met s = .ok s' ∧ I s') ∨
    ∃ e s' n, t.run stack met s = .error (e, s') ∧ I s' ∧ t.visit n s' = .error e ∧
      ∃ r ∈ roots, t.Reaches r n := by
  induction stack, met, s using Sweep.run.induct (t := t) with
  | case1 met s => exact .inl ⟨s, by rw [run], hI⟩
  | case2 n rest met s hn ih =>
    rw [run, if_pos hn]
    exact ih hI fun m hm => hroots m (List.mem_cons_of_mem _ hm)
  | case3 n rest met s hn s₁ hstep ih =>
    rw [run, if_neg hn, hstep]
    have hreach := hroots n List.mem_cons_self
    refine ih (hvisit n s s₁ hreach hI hstep) fun m hm => ?_
    rcases List.mem_append.mp hm with hm | hm
    · obtain ⟨r, hr, hpath⟩ := hreach
      exact ⟨r, hr, hpath.tail hm⟩
    · exact hroots m (List.mem_cons_of_mem _ hm)
  | case4 n rest met s hn e hstep =>
    rw [run, if_neg hn, hstep]
    exact .inr ⟨e, s, n, rfl, hI, hstep, hroots n List.mem_cons_self⟩

/-- Where a visit adds what its node gives, or fails when it has nothing to give. -/
theorem run_collects {β : Type x} {Has : S → β → Prop} {gives : α → Option (List β)}
    (hok : ∀ n s s', t.visit n s = .ok s' →
      ∃ xs, gives n = some xs ∧ ∀ x, Has s' x ↔ Has s x ∨ x ∈ xs)
    (herror : ∀ n s e, t.visit n s = .error e → gives n = none) (roots : List α) (s : S) :
    (∃ s', t.run roots [] s = .ok s' ∧
      (∀ r ∈ roots, ∀ n, t.Reaches r n → (gives n).isSome) ∧
      ∀ x, Has s' x ↔ Has s x ∨
        ∃ r ∈ roots, ∃ n, t.Reaches r n ∧ ∃ xs, gives n = some xs ∧ x ∈ xs) ∨
    ∃ e s', t.run roots [] s = .error (e, s') ∧
      ∃ r ∈ roots, ∃ n, t.Reaches r n ∧ gives n = none := by
  have hkeeps := @run_keeps _ _ _ t _ (fun s' => ∀ x, Has s' x → Has s x ∨
      ∃ r ∈ roots, ∃ n, t.Reaches r n ∧ ∃ xs, gives n = some xs ∧ x ∈ xs) roots
    (fun n s₁ s₂ ⟨r, hr, hpath⟩ hI hstep x hx => by
      obtain ⟨xs, hgives, hhas⟩ := hok n s₁ s₂ hstep
      rcases (hhas x).mp hx with hx | hx
      · exact hI x hx
      · exact .inr ⟨r, hr, n, hpath, xs, hgives, hx⟩)
    roots [] s (fun _ hx => .inl hx) fun r hr => ⟨r, hr, .refl⟩
  rcases hkeeps with ⟨s', hrun, hsound⟩ | ⟨e, s', n, hrun, -, hstep, r, hr, hpath⟩
  · refine .inl ⟨s', hrun, fun r hr n hpath => ?_, fun x => ⟨hsound x, fun hx => ?_⟩⟩
    · refine run_reaches (P := fun n _ => (gives n).isSome = true) (fun m s₁ s₂ hstep => ?_)
        hrun hr hpath
      obtain ⟨xs, hgives, -⟩ := hok m s₁ s₂ hstep
      exact ⟨by rw [hgives]; rfl, fun _ h => h⟩
    · rcases hx with hx | ⟨r, hr, n, hpath, xs, hgives, hx⟩
      · have hstill := @run_keeps _ _ _ t _ (fun s' => Has s' x) roots
          (fun m s₁ s₂ _ hI hstep => by
            obtain ⟨ys, -, hhas⟩ := hok m s₁ s₂ hstep
            exact (hhas x).mpr (.inl hI))
          roots [] s hx fun r hr => ⟨r, hr, .refl⟩
        rcases hstill with ⟨s₂, hrun₂, hhas⟩ | ⟨e, s₂, m, hrun₂, -⟩
        · rw [hrun] at hrun₂
          rw [Except.ok.inj hrun₂]
          exact hhas
        · rw [hrun] at hrun₂
          cases hrun₂
      · refine run_reaches (P := fun n s' => ∀ ys, gives n = some ys → ∀ x ∈ ys, Has s' x)
          (fun m s₁ s₂ hstep => ?_) hrun hr hpath xs hgives x hx
        obtain ⟨ys, hys, hhas⟩ := hok m s₁ s₂ hstep
        refine ⟨fun zs hzs z hz => (hhas z).mpr (.inr ?_), fun k hk zs hzs z hz =>
          (hhas z).mpr (.inl (hk zs hzs z hz))⟩
        rw [hys] at hzs
        rw [Option.some.inj hzs]
        exact hz
  · exact .inr ⟨e, s', hrun, r, hr, n, hpath, herror n s' e hstep⟩

end Sweep
end KeplerFormal.Core
