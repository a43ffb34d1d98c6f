import Mathlib

/-!
# Fresh names

`Naming κ` gives names to keys on demand: the next number that is not reserved. A
name is reserved once it is given, so no two keys share one, and no name is in the
set the naming started with.

* `freshFrom`: the first number from `n` on outside a finite set.
* `name`, `bind`: look a key up or give it a fresh name; give a key a chosen name.
* `FreshOn`: the names of the keys `K` are new and pairwise different.
* `FreshOn.realise`: values of the keys become values of their names, everything else
  unchanged.
-/
namespace KeplerFormal.Core

/-! ## The first free number -/

/-- Counts up while the number is in `X`, `fuel` times at most. -/
def countUp (X : Finset Nat) : Nat → Nat → Nat
  | 0, n => n
  | fuel + 1, n => if n ∈ X then countUp X fuel (n + 1) else n

/-- No element of `X` is beyond its supremum, so the count ends outside `X`. -/
def freshFrom (X : Finset Nat) (n : Nat) : Nat := countUp X (X.sup id + 1) n

theorem le_countUp (X : Finset Nat) (fuel n : Nat) : n ≤ countUp X fuel n := by
  induction fuel generalizing n with
  | zero => exact Nat.le_refl _
  | succ fuel ih =>
    unfold countUp
    split
    · have := ih (n + 1)
      omega
    · exact Nat.le_refl _

theorem countUp_not_mem {X : Finset Nat} {fuel n : Nat} (h : X.sup id < n + fuel) :
    countUp X fuel n ∉ X := by
  induction fuel generalizing n with
  | zero =>
    intro hmem
    have hle : n ≤ X.sup id := Finset.le_sup (f := id) hmem
    omega
  | succ fuel ih =>
    unfold countUp
    split
    · exact ih (by omega)
    · assumption

theorem le_freshFrom (X : Finset Nat) (n : Nat) : n ≤ freshFrom X n := le_countUp _ _ _

theorem freshFrom_not_mem (X : Finset Nat) (n : Nat) : freshFrom X n ∉ X :=
  countUp_not_mem (by omega)

/-! ## Namings -/

/-- Which numbers are taken, where to look for the next one, and the names given. -/
structure Naming (κ : Type) where
  reserved : Finset Nat
  next : Nat
  nameOf : κ → Option Nat

namespace Naming
variable {κ : Type}

def start (reserved : Finset Nat) (next : Nat) : Naming κ := ⟨reserved, next, fun _ => none⟩

/-- The next free number, reserved. -/
def allocate (N : Naming κ) : Nat × Naming κ :=
  let t := freshFrom N.reserved N.next
  (t, { N with reserved := insert t N.reserved, next := t + 1 })

variable [DecidableEq κ]

/-- Gives a key a name, unless it has one. -/
def bind (N : Naming κ) (k : κ) (t : Nat) : Naming κ :=
  match N.nameOf k with
  | some _ => N
  | none => { N with nameOf := Function.update N.nameOf k (some t) }

/-- The name of a key, a fresh one if it has none. -/
def name (N : Naming κ) (k : κ) : Nat × Naming κ :=
  match N.nameOf k with
  | some t => (t, N)
  | none => (N.allocate.1, N.allocate.2.bind k N.allocate.1)

omit [DecidableEq κ] in
/-- Keys keep their names. -/
def Extends (N N' : Naming κ) : Prop := ∀ k t, N.nameOf k = some t → N'.nameOf k = some t

/-- The names of the keys in `K` differ from each other and from the fixed numbers, and
every name is reserved. -/
structure FreshOn (N : Naming κ) (fixed : Finset Nat) (K : κ → Prop) : Prop where
  fixed_reserved : fixed ⊆ N.reserved
  reserved : ∀ k t, N.nameOf k = some t → t ∈ N.reserved
  two_le_next : 2 ≤ N.next
  two_le : ∀ k t, K k → N.nameOf k = some t → 2 ≤ t
  fresh : ∀ k t, K k → N.nameOf k = some t → t ∉ fixed
  injective : ∀ k k' t, K k → K k' → N.nameOf k = some t → N.nameOf k' = some t → k = k'

/-- A number is the name of a key in `K`. -/
def IsName (N : Naming κ) (K : κ → Prop) (t : Nat) : Prop := ∃ k, K k ∧ N.nameOf k = some t

section Lemmas
variable {N N' N'' : Naming κ} {fixed : Finset Nat} {K : κ → Prop} {k : κ} {t : Nat}

omit [DecidableEq κ] in
theorem Extends.refl (N : Naming κ) : N.Extends N := fun _ _ h => h

omit [DecidableEq κ] in
theorem Extends.trans (h : N.Extends N') (h' : N'.Extends N'') : N.Extends N'' :=
  fun k t ht => h' k t (h k t ht)

omit [DecidableEq κ] in
theorem extends_allocate (N : Naming κ) : N.Extends N.allocate.2 := fun _ _ h => h

omit [DecidableEq κ] in
theorem freshOn_start {next : Nat} (h2 : 2 ≤ next) :
    (start fixed next : Naming κ).FreshOn fixed K where
  fixed_reserved := Finset.Subset.refl _
  reserved k t h := by cases h
  two_le_next := h2
  two_le k t _ h := by cases h
  fresh k t _ h := by cases h
  injective k k' t _ _ h := by cases h

omit [DecidableEq κ] in
theorem freshOn_allocate (h : N.FreshOn fixed K) : N.allocate.2.FreshOn fixed K where
  fixed_reserved := h.fixed_reserved.trans (Finset.subset_insert _ _)
  reserved k t ht := Finset.mem_insert_of_mem (h.reserved k t ht)
  two_le_next := by
    have := le_freshFrom N.reserved N.next
    have := h.two_le_next
    show 2 ≤ freshFrom N.reserved N.next + 1
    omega
  two_le := h.two_le
  fresh := h.fresh
  injective := h.injective

theorem nameOf_bind_self (hnone : N.nameOf k = none) : (N.bind k t).nameOf k = some t := by
  simp [bind, hnone]

theorem nameOf_bind_of_ne {k' : κ} (hne : k' ≠ k) : (N.bind k t).nameOf k' = N.nameOf k' := by
  unfold bind
  split
  · rfl
  · exact Function.update_of_ne hne _ _

theorem bind_of_isSome (h : (N.nameOf k).isSome = true) : N.bind k t = N := by
  obtain ⟨t', ht'⟩ := Option.isSome_iff_exists.mp h
  simp only [bind, ht']

theorem extends_bind : N.Extends (N.bind k t) := by
  intro k' t' h
  by_cases hk : k' = k
  · subst hk
    rw [bind_of_isSome (by rw [h]; rfl)]
    exact h
  · rwa [nameOf_bind_of_ne hk]

/-- What a name is after one more key got one. -/
theorem nameOf_bind_eq_some {k' : κ} {t' : Nat} (h : (N.bind k t).nameOf k' = some t') :
    N.nameOf k' = some t' ∨ (k' = k ∧ t' = t) := by
  by_cases hk : k' = k
  · subst hk
    cases hname : N.nameOf k' with
    | some u =>
      rw [bind_of_isSome (by rw [hname]; rfl)] at h
      exact .inl (hname ▸ h)
    | none =>
      rw [nameOf_bind_self hname, Option.some.injEq] at h
      exact .inr ⟨rfl, h.symm⟩
  · exact .inl (nameOf_bind_of_ne hk ▸ h)

/-- A reserved number that is not yet a name may name a key. -/
theorem FreshOn.bind (h : N.FreshOn fixed K) (hreserved : t ∈ N.reserved)
    (hnew : K k → 2 ≤ t ∧ t ∉ fixed ∧ ∀ k', N.nameOf k' ≠ some t) :
    (N.bind k t).FreshOn fixed K := by
  have hfixed : (N.bind k t).reserved = N.reserved := by
    unfold Naming.bind
    split <;> rfl
  have hnext : (N.bind k t).next = N.next := by
    unfold Naming.bind
    split <;> rfl
  refine ⟨hfixed ▸ h.fixed_reserved, fun k' t' hk' => ?_, hnext ▸ h.two_le_next,
    fun k' t' hK hk' => ?_, fun k' t' hK hk' => ?_, fun k₁ k₂ t' hK₁ hK₂ h₁ h₂ => ?_⟩
  · rw [hfixed]
    rcases nameOf_bind_eq_some hk' with hold | ⟨rfl, rfl⟩
    · exact h.reserved k' t' hold
    · exact hreserved
  · rcases nameOf_bind_eq_some hk' with hold | ⟨rfl, rfl⟩
    · exact h.two_le k' t' hK hold
    · exact (hnew hK).1
  · rcases nameOf_bind_eq_some hk' with hold | ⟨rfl, rfl⟩
    · exact h.fresh k' t' hK hold
    · exact (hnew hK).2.1
  · rcases nameOf_bind_eq_some h₁ with hold₁ | ⟨rfl, rfl⟩
    · rcases nameOf_bind_eq_some h₂ with hold₂ | ⟨rfl, rfl⟩
      · exact h.injective k₁ k₂ t' hK₁ hK₂ hold₁ hold₂
      · exact absurd hold₁ ((hnew hK₂).2.2 k₁)
    · rcases nameOf_bind_eq_some h₂ with hold₂ | ⟨rfl, _⟩
      · exact absurd hold₂ ((hnew hK₁).2.2 k₂)
      · rfl

/-- The next free number may name any key. -/
theorem FreshOn.bind_allocate (h : N.FreshOn fixed K) (k : κ) :
    (N.allocate.2.bind k N.allocate.1).FreshOn fixed K := by
  have hnot : N.allocate.1 ∉ N.reserved := freshFrom_not_mem _ _
  refine (freshOn_allocate h).bind (Finset.mem_insert_self _ _) fun _ => ⟨?_, ?_, ?_⟩
  · exact h.two_le_next.trans (le_freshFrom _ _)
  · exact fun hmem => hnot (h.fixed_reserved hmem)
  · exact fun k' hk' => hnot (h.reserved k' _ hk')

theorem FreshOn.name (h : N.FreshOn fixed K) (k : κ) : (N.name k).2.FreshOn fixed K := by
  unfold Naming.name
  split
  · exact h
  · exact h.bind_allocate k

theorem extends_name (N : Naming κ) (k : κ) : N.Extends (N.name k).2 := by
  unfold Naming.name
  split
  · exact .refl N
  · exact (extends_allocate N).trans extends_bind

theorem nameOf_name (N : Naming κ) (k : κ) : (N.name k).2.nameOf k = some (N.name k).1 := by
  unfold Naming.name
  split
  · assumption
  · rename_i hnone
    exact nameOf_bind_self (N := N.allocate.2) hnone

omit [DecidableEq κ] in
/-- Values for the keys of `K` become values of their names. -/
theorem FreshOn.realise {α : Type} (h : N.FreshOn fixed K) (v : κ → α) (σ : Nat → α) :
    ∃ σ' : Nat → α, (∀ k t, K k → N.nameOf k = some t → σ' t = v k) ∧
      ∀ s, ¬ N.IsName K s → σ' s = σ s := by
  classical
  refine ⟨fun s => if hs : N.IsName K s then v hs.choose else σ s, fun k t hK hk => ?_,
    fun s hs => dif_neg hs⟩
  have hs : N.IsName K t := ⟨k, hK, hk⟩
  have hkey : hs.choose = k := h.injective _ _ t hs.choose_spec.1 hK hs.choose_spec.2 hk
  show (if hs : N.IsName K t then v hs.choose else σ t) = v k
  rw [dif_pos hs, hkey]

omit [DecidableEq κ] in
theorem FreshOn.not_isName (h : N.FreshOn fixed K) {s : Nat} (hs : s ∈ fixed) :
    ¬ N.IsName K s := fun ⟨k, hK, hk⟩ => h.fresh k s hK hk hs

end Lemmas
end Naming
end KeplerFormal.Core
