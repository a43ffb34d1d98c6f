import KeplerFormal.Core.Tiling

/-!
# Greedy packing of a range

`pack` cuts `[0, n)` into intervals from left to right. An interval grows while the
admission test accepts the next number, with what the interval has collected so far; an
interval that admits nothing takes one number all the same.

* `tiles_pack`: the intervals follow one another and cover `[0, n)`, for every test.
* `admitted_of_mem_pack`: every number of an interval but its first one passed the test.
-/
namespace KeplerFormal.Core

universe u
variable {α : Type u}

/-- What the numbers of `[a, b)` add to `start`, from left to right. -/
def collect (add : α → Nat → α) (start : α) (a b : Nat) : α :=
  (List.range' a (b - a)).foldl add start

theorem collect_self (add : α → Nat → α) (start : α) (a : Nat) :
    collect add start a a = start := by
  simp [collect]

theorem collect_succ (add : α → Nat → α) (start : α) {a b : Nat} (h : a ≤ b) :
    collect add start a (b + 1) = add (collect add start a b) b := by
  obtain ⟨k, rfl⟩ := Nat.exists_eq_add_of_le h
  unfold collect
  rw [Nat.add_assoc, Nat.add_sub_cancel_left, Nat.add_sub_cancel_left,
    ← List.range'_append_1, List.foldl_append]
  simp

section Pack
variable (n : Nat) (admits : Nat → Nat → α → Bool) (add : α → Nat → α) (start : α)

/-- Where the interval that begins at `first` ends. -/
def packEnd (first : Nat) : Nat → Nat → α → Nat
  | 0, stop, _ => stop
  | fuel + 1, stop, acc =>
    if stop < n ∧ admits first stop acc = true then
      packEnd first fuel (stop + 1) (add acc stop)
    else stop

/-- Every interval takes a number, so `fuel` is their number. -/
def packFrom : Nat → Nat → List (Nat × Nat)
  | 0, _ => []
  | fuel + 1, first =>
    if first < n then
      let stop := packEnd n admits add first n first start
      let stop := if stop = first then stop + 1 else stop
      (first, stop) :: packFrom fuel stop
    else []

def pack : List (Nat × Nat) := packFrom n admits add start n 0

variable {n admits add start}

/-- What the loop has established when it stands at `stop`. -/
theorem packEnd_spec {first fuel stop : Nat} (hle : first ≤ stop) (hn : stop ≤ n)
    (hadm : ∀ i, first ≤ i → i < stop → admits first i (collect add start first i) = true) :
    stop ≤ packEnd n admits add first fuel stop (collect add start first stop) ∧
      packEnd n admits add first fuel stop (collect add start first stop) ≤ n ∧
      ∀ i, first ≤ i →
        i < packEnd n admits add first fuel stop (collect add start first stop) →
        admits first i (collect add start first i) = true := by
  induction fuel generalizing stop with
  | zero => exact ⟨Nat.le_refl _, hn, hadm⟩
  | succ fuel ih =>
    unfold packEnd
    by_cases h : stop < n ∧ admits first stop (collect add start first stop) = true
    · rw [if_pos h, ← collect_succ add start hle]
      have hnext : ∀ i, first ≤ i → i < stop + 1 →
          admits first i (collect add start first i) = true := by
        intro i hi hlt
        cases Nat.lt_or_eq_of_le (Nat.le_of_lt_succ hlt) with
        | inl hlt => exact hadm i hi hlt
        | inr heq => exact heq ▸ h.2
      obtain ⟨h1, h2, h3⟩ := ih (by omega) h.1 hnext
      exact ⟨Nat.le_trans (Nat.le_succ stop) h1, h2, h3⟩
    · rw [if_neg h]
      exact ⟨Nat.le_refl _, hn, hadm⟩

/-- The end of the interval from `first` on, with the forced step. -/
theorem forcedEnd_spec {first : Nat} (hn : first < n) {stop : Nat}
    (hstop : stop = packEnd n admits add first n first start) :
    first < (if stop = first then stop + 1 else stop) ∧
      (if stop = first then stop + 1 else stop) ≤ n ∧
      ∀ i, first < i → i < (if stop = first then stop + 1 else stop) →
        admits first i (collect add start first i) = true := by
  have hspec := @packEnd_spec _ _ admits add start _ n _
    (Nat.le_refl first) (Nat.le_of_lt hn) (fun i hi hlt => absurd hlt (Nat.not_lt.mpr hi))
  rw [collect_self, ← hstop] at hspec
  obtain ⟨hle, hlen, hadm⟩ := hspec
  by_cases h : stop = first
  · rw [if_pos h]
    exact ⟨by omega, by omega, fun i hi hlt => by omega⟩
  · rw [if_neg h]
    exact ⟨by omega, hlen, fun i hi hlt => hadm i (Nat.le_of_lt hi) hlt⟩

theorem packFrom_spec {fuel first : Nat} (hn : first ≤ n) (hfuel : n ≤ first + fuel) :
    Tiles first (packFrom n admits add start fuel first) n ∧
      ∀ t ∈ packFrom n admits add start fuel first, ∀ i, t.1 < i → i < t.2 →
        admits t.1 i (collect add start t.1 i) = true := by
  induction fuel generalizing first with
  | zero =>
    obtain rfl : first = n := by omega
    exact ⟨.nil _, fun t ht => by cases ht⟩
  | succ fuel ih =>
    unfold packFrom
    by_cases h : first < n
    · rw [if_pos h]
      obtain ⟨hlt, hlen, hadm⟩ := @forcedEnd_spec _ _ admits add start _ h _ rfl
      obtain ⟨htiles, hrest⟩ := ih hlen (by omega)
      refine ⟨.cons hlt htiles, fun t ht => ?_⟩
      cases ht with
      | head => exact hadm
      | tail _ ht => exact hrest t ht
    · rw [if_neg h]
      obtain rfl : first = n := by omega
      exact ⟨.nil _, fun t ht => by cases ht⟩

theorem tiles_pack : Tiles 0 (pack n admits add start) n :=
  (packFrom_spec (Nat.zero_le n) (by omega)).1

theorem admitted_of_mem_pack {t : Nat × Nat} (ht : t ∈ pack n admits add start) {i : Nat}
    (hfirst : t.1 < i) (hi : i < t.2) : admits t.1 i (collect add start t.1 i) = true :=
  (packFrom_spec (Nat.zero_le n) (by omega)).2 t ht i hfirst hi

end Pack
end KeplerFormal.Core
