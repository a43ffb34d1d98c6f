import Mathlib.Data.List.Basic
import Mathlib.Tactic.SplitIfs

/-!
# Contiguous intervals

`Tiles a tiles b`: the intervals of the list are nonempty, start at `a`, follow one
another without a gap and end at `b`.

* `Tiles.bounds`, `Tiles.covers`: each interval lies in `[a, b)`, and together they
  cover it.
* `inRange`, `Tiles.countP_inRange`: a number of `[a, b)` is in exactly one of them.
* `Tiles.flatMap_slice`: a list is cut along them without loss.
-/
namespace KeplerFormal.Core

def inRange (t : Nat × Nat) (i : Nat) : Bool := decide (t.1 ≤ i) && decide (i < t.2)

@[simp] theorem inRange_eq_true {t : Nat × Nat} {i : Nat} :
    inRange t i = true ↔ t.1 ≤ i ∧ i < t.2 := by simp [inRange]

inductive Tiles : Nat → List (Nat × Nat) → Nat → Prop where
  | nil (a : Nat) : Tiles a [] a
  | cons {a m b : Nat} {tiles : List (Nat × Nat)} (h : a < m) (htail : Tiles m tiles b) :
      Tiles a ((a, m) :: tiles) b

namespace Tiles
variable {a b : Nat} {tiles : List (Nat × Nat)}

theorem le (h : Tiles a tiles b) : a ≤ b := by
  induction h with
  | nil => exact Nat.le_refl _
  | cons h _ ih => omega

theorem bounds (h : Tiles a tiles b) {t : Nat × Nat} (ht : t ∈ tiles) :
    a ≤ t.1 ∧ t.1 < t.2 ∧ t.2 ≤ b := by
  induction h with
  | nil => cases ht
  | cons h htail ih =>
    have hle := htail.le
    cases ht with
    | head => exact ⟨Nat.le_refl _, h, hle⟩
    | tail _ ht =>
      have hbounds := ih ht
      omega

theorem covers (h : Tiles a tiles b) {i : Nat} (ha : a ≤ i) (hb : i < b) :
    ∃ t ∈ tiles, t.1 ≤ i ∧ i < t.2 := by
  induction h with
  | nil => omega
  | @cons a m b tiles h htail ih =>
    by_cases hi : i < m
    · exact ⟨(a, m), List.mem_cons_self, ha, hi⟩
    · obtain ⟨t, ht, hmem⟩ := ih (Nat.not_lt.mp hi) hb
      exact ⟨t, List.mem_cons_of_mem _ ht, hmem⟩

theorem countP_inRange (h : Tiles a tiles b) (i : Nat) :
    tiles.countP (inRange · i) = if a ≤ i ∧ i < b then 1 else 0 := by
  induction h with
  | nil => simp
  | @cons a m b tiles h htail ih =>
    have hle := htail.le
    rw [List.countP_cons, ih]
    simp only [inRange_eq_true]
    split_ifs <;> omega

/-- The slices of a list along the intervals make up the slice of the whole range. -/
theorem flatMap_slice {α : Type*} (h : Tiles a tiles b) (l : List α) :
    tiles.flatMap (fun t => (l.drop t.1).take (t.2 - t.1)) = (l.drop a).take (b - a) := by
  induction h with
  | nil a => simp
  | @cons a m b tiles h htail ih =>
    have hle := htail.le
    have hsplit : b - a = (m - a) + (b - m) := by omega
    have hdrop : (l.drop a).drop (m - a) = l.drop m := by
      rw [List.drop_drop]
      congr 1
      omega
    rw [List.flatMap_cons, ih, hsplit, List.take_add, hdrop]

end Tiles

/-- An interval has what its two parts have. -/
theorem countP_inRange_split {a m b : Nat} (ham : a ≤ m) (hmb : m ≤ b) (i : Nat) :
    [(a, m), (m, b)].countP (inRange · i) = [(a, b)].countP (inRange · i) := by
  simp only [List.countP_cons, List.countP_nil, inRange_eq_true, Nat.zero_add]
  split_ifs <;> omega

end KeplerFormal.Core
