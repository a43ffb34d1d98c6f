import Mathlib.Data.Finset.Basic
import Mathlib.Data.Finset.Union
import Mathlib.Data.Finset.Image

/-!
# Closing a finite set under pairs

A list of pairs is read as an undirected graph. `closePairs` adds to a set
everything its pairs lead to; `addPartners` is a single left-to-right pass.

* `subset_closePairs`, `closePairs_induction`: the closure adds nothing but partners.
* `subset_addPartners`, `addPartners_induction`: what a single pass promises.
-/
namespace KeplerFormal.Core

universe u
variable {α : Type u} [DecidableEq α]

def Touches (X : Finset α) (p : α × α) : Prop := p.1 ∈ X ∨ p.2 ∈ X

instance (X : Finset α) (p : α × α) : Decidable (Touches X p) :=
  inferInstanceAs (Decidable (p.1 ∈ X ∨ p.2 ∈ X))

def endpoints (pairs : List (α × α)) : Finset α :=
  (pairs.map Prod.fst).toFinset ∪ (pairs.map Prod.snd).toFinset

/-- One layer of the walk per unit of fuel: the pairs that touch the set are used
up and their ends join it. -/
def closePairs : Nat → List (α × α) → Finset α → Finset α
  | 0, _, X => X
  | n + 1, pairs, X =>
    if pairs.filter (Touches X) = [] then X
    else closePairs n (pairs.filter (¬ Touches X ·)) (X ∪ endpoints (pairs.filter (Touches X)))

def addPartners (pairs : List (α × α)) (X : Finset α) : Finset α :=
  pairs.foldl (fun X p => if Touches X p then insert p.1 (insert p.2 X) else X) X

theorem subset_closePairs (n : Nat) (pairs : List (α × α)) (X : Finset α) :
    X ⊆ closePairs n pairs X := by
  induction n generalizing pairs X with
  | zero => exact Finset.Subset.refl X
  | succ n ih =>
    unfold closePairs
    split
    · exact Finset.Subset.refl X
    · exact Finset.subset_union_left.trans (ih _ _)

/-- Whatever holds on the set and does not tell the ends of a pair apart holds on
the closure. -/
theorem closePairs_induction {P : α → Prop} {n : Nat} {pairs : List (α × α)} {X : Finset α}
    (hX : ∀ s ∈ X, P s) (hP : ∀ p ∈ pairs, P p.1 ↔ P p.2) : ∀ s ∈ closePairs n pairs X, P s := by
  induction n generalizing pairs X with
  | zero => exact hX
  | succ n ih =>
    unfold closePairs
    split
    · exact hX
    · refine ih (fun s hs => ?_) fun p hp => hP p (List.mem_of_mem_filter hp)
      simp only [endpoints, Finset.mem_union, List.mem_toFinset, List.mem_map, List.mem_filter,
        decide_eq_true_eq] at hs
      rcases hs with hs | ⟨p, ⟨hp, ht⟩, rfl⟩ | ⟨p, ⟨hp, ht⟩, rfl⟩
      · exact hX s hs
      · exact ht.elim (fun h => hX _ h) fun h => (hP p hp).mpr (hX _ h)
      · exact ht.elim (fun h => (hP p hp).mp (hX _ h)) fun h => hX _ h

theorem subset_addPartners (pairs : List (α × α)) (X : Finset α) : X ⊆ addPartners pairs X := by
  induction pairs generalizing X with
  | nil => exact Finset.Subset.refl X
  | cons p ps ih =>
    simp only [addPartners, List.foldl_cons] at ih ⊢
    split
    · exact ((Finset.subset_insert _ _).trans (Finset.subset_insert _ _)).trans (ih _)
    · exact ih X

theorem addPartners_induction {P : α → Prop} {pairs : List (α × α)} {X : Finset α}
    (hX : ∀ s ∈ X, P s) (hP : ∀ p ∈ pairs, P p.1 ↔ P p.2) : ∀ s ∈ addPartners pairs X, P s := by
  induction pairs generalizing X with
  | nil => exact hX
  | cons p ps ih =>
    have hps : ∀ q ∈ ps, P q.1 ↔ P q.2 := fun q hq => hP q (by simp [hq])
    simp only [addPartners, List.foldl_cons] at ih ⊢
    split
    · rename_i ht
      have h1 : P p.1 := ht.elim (fun h => hX _ h) fun h => (hP p (by simp)).mpr (hX _ h)
      refine ih (fun s hs => ?_) hps
      rcases Finset.mem_insert.mp hs with rfl | hs
      · exact h1
      · rcases Finset.mem_insert.mp hs with rfl | hs
        · exact (hP p (by simp)).mp h1
        · exact hX s hs
    · exact ih hX hps

end KeplerFormal.Core
