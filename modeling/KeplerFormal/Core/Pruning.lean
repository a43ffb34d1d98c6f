import Mathlib.Data.List.Basic
import KeplerFormal.Core.Runs

/-!
# Pruning a candidate list to a fixpoint

Candidates are checked one after the other against everything still in the list,
failures leave at once, and passes repeat until one removes nothing. What stays is
closed: every survivor passes the check against all the survivors.

* `prunePass_sublist`, `prune_sublist`: pruning only removes.
* `prune_checked`: with one pass per candidate and one more, the result is closed.
* `reachable_prune`: survivors of an induction check hold in every reachable state.
-/
namespace KeplerFormal.Core

universe u v w
variable {α : Type u} (check : List α → α → Bool)

/-- One pass over the second list; the first holds the survivors so far. The flag
says that something left. -/
def prunePass : List α → List α → List α × Bool
  | kept, [] => (kept, false)
  | kept, x :: xs =>
    if check (kept ++ x :: xs) x then prunePass (kept ++ [x]) xs
    else ((prunePass kept xs).1, true)

def prune : Nat → List α → List α
  | 0, xs => xs
  | fuel + 1, xs =>
    if (prunePass check [] xs).2 then prune fuel (prunePass check [] xs).1
    else (prunePass check [] xs).1

variable {check}

theorem prunePass_sublist (kept xs : List α) :
    (prunePass check kept xs).1.Sublist (kept ++ xs) := by
  induction xs generalizing kept with
  | nil => simp [prunePass]
  | cons x xs ih =>
    unfold prunePass
    split
    · simpa using ih (kept ++ [x])
    · exact (ih kept).trans ((List.sublist_cons_self x xs).append_left kept)

/-- A pass without removal changes nothing and has checked everything. -/
theorem prunePass_unchanged {kept xs : List α} (h : (prunePass check kept xs).2 = false) :
    (prunePass check kept xs).1 = kept ++ xs ∧ ∀ x ∈ xs, check (kept ++ xs) x = true := by
  induction xs generalizing kept with
  | nil => simp [prunePass]
  | cons x xs ih =>
    unfold prunePass at h ⊢
    split at h
    · rename_i hx
      obtain ⟨heq, hall⟩ := ih h
      rw [if_pos hx]
      refine ⟨by simpa using heq, fun y hy => ?_⟩
      rcases List.mem_cons.mp hy with rfl | hy
      · exact hx
      · simpa using hall y hy
    · simp at h

/-- A pass with a removal makes the list shorter. -/
theorem length_prunePass_lt {kept xs : List α} (h : (prunePass check kept xs).2 = true) :
    (prunePass check kept xs).1.length < (kept ++ xs).length := by
  induction xs generalizing kept with
  | nil => simp [prunePass] at h
  | cons x xs ih =>
    unfold prunePass at h ⊢
    split at h
    · rename_i hx
      rw [if_pos hx]
      have hlt := ih h
      simp only [List.length_append, List.length_cons, List.length_nil] at hlt ⊢
      omega
    · rename_i hx
      rw [if_neg hx]
      have hle := (@prunePass_sublist _ check kept xs).length_le
      simp only [List.length_append, List.length_cons] at hle ⊢
      omega

theorem prune_sublist (fuel : Nat) (xs : List α) : (prune check fuel xs).Sublist xs := by
  induction fuel generalizing xs with
  | zero => exact List.Sublist.refl xs
  | succ fuel ih =>
    have hpass : (prunePass check [] xs).1.Sublist xs := prunePass_sublist [] xs
    unfold prune
    split
    · exact (ih _).trans hpass
    · exact hpass

theorem prune_checked {fuel : Nat} {xs : List α} (h : xs.length < fuel) :
    ∀ x ∈ prune check fuel xs, check (prune check fuel xs) x = true := by
  induction fuel generalizing xs with
  | zero => omega
  | succ fuel ih =>
    unfold prune
    split
    · rename_i hchanged
      have hlt := length_prunePass_lt hchanged
      rw [List.nil_append] at hlt
      exact ih (by omega)
    · rename_i hsame
      obtain ⟨heq, hall⟩ := prunePass_unchanged (Bool.not_eq_true _ ▸ hsame)
      rw [List.nil_append] at heq hall
      rw [heq]
      exact hall

/-- Candidates that hold initially and whose check proves one step under the current
candidates and a known invariant `P`. -/
theorem reachable_prune {S : Type v} {L : Type w} {T : LTS S L} {P : S → Prop}
    {holds : α → S → Prop} {xs : List α} {fuel : Nat} (hfuel : xs.length < fuel)
    (hP : T.Inductive P) (hinit : ∀ c ∈ xs, ∀ s, T.init s → holds c s)
    (hstep : ∀ cs c s l s', check cs c = true → P s → P s' → (∀ d ∈ cs, holds d s) →
      T.step s l s' → holds c s') {s : S} (hs : T.Reachable s) :
    ∀ c ∈ prune check fuel xs, holds c s := by
  have hinductive := hP.of_steps (Q := fun s => ∀ c ∈ prune check fuel xs, holds c s)
    (fun s hs c hc => hinit c ((prune_sublist fuel xs).subset hc) s hs)
    (fun s l s' hs hall hst c hc =>
      hstep _ c s l s' (prune_checked hfuel c hc) hs (hP.step s l s' hs hst) hall hst)
  exact (hinductive.reachable hs).2

end KeplerFormal.Core
