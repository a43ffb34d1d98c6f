import Mathlib.Data.List.Destutter
import Mathlib.Data.List.Sort
import Mathlib.Order.Antichain
import Mathlib.Order.UpperLower.Closure

/-!
# Minimal families

Lists over an ordered alphabet stand for sets, and a family of sets is kept minimal: a new
set enters unless a set below it is there, and it drops the sets above it.

* `includes_iff`: `includes` decides inclusion of sorted lists.
* `StrictTotal.sizeFirst`: lists ordered by size, then lexicographically.
* `isAntichain_insert`, `upperClosure_insert`: an insertion keeps a family minimal and what
  lies above it.
* `antichain_eq_of_covers`: two minimal families that cover each other are equal.
-/
namespace KeplerFormal.Core

universe u

/-! ## Minimal families of an order -/

section Families
variable {P : Type u} [PartialOrder P] {F G : Set P} {c : P}

theorem isAntichain_insert (hF : IsAntichain (· ≤ ·) F) (hc : ∀ d ∈ F, ¬ d ≤ c) :
    IsAntichain (· ≤ ·) (insert c {d ∈ F | ¬ c ≤ d}) := by
  have hrest : IsAntichain (· ≤ ·) {d ∈ F | ¬ c ≤ d} := hF.subset fun d hd => hd.1
  exact hrest.insert (fun d hd _ => hc d hd.1) fun d hd _ => hd.2

theorem upperClosure_insert (F : Set P) (c : P) :
    upperClosure (insert c {d ∈ F | ¬ c ≤ d}) = upperClosure (insert c F) := by
  ext a
  simp only [SetLike.mem_coe, mem_upperClosure, Set.mem_insert_iff, Set.mem_ofPred_eq]
  constructor
  · rintro ⟨d, rfl | ⟨hd, -⟩, hle⟩
    · exact ⟨d, Or.inl rfl, hle⟩
    · exact ⟨d, Or.inr hd, hle⟩
  · rintro ⟨d, rfl | hd, hle⟩
    · exact ⟨d, Or.inl rfl, hle⟩
    · by_cases hcd : c ≤ d
      · exact ⟨c, Or.inl rfl, hcd.trans hle⟩
      · exact ⟨d, Or.inr ⟨hd, hcd⟩, hle⟩

theorem upperClosure_covered (h : ∃ d ∈ F, d ≤ c) :
    upperClosure (insert c F) = upperClosure F := by
  ext a
  simp only [SetLike.mem_coe, mem_upperClosure, Set.mem_insert_iff]
  constructor
  · rintro ⟨d, rfl | hd, hle⟩
    · obtain ⟨e, he, hed⟩ := h
      exact ⟨e, he, hed.trans hle⟩
    · exact ⟨d, hd, hle⟩
  · rintro ⟨d, hd, hle⟩
    exact ⟨d, Or.inr hd, hle⟩

/-- A minimal family is contained in every minimal family that covers it and is covered. -/
theorem antichain_subset_of_covers (hF : IsAntichain (· ≤ ·) F)
    (hFG : ∀ d ∈ F, ∃ e ∈ G, e ≤ d) (hGF : ∀ e ∈ G, ∃ d ∈ F, d ≤ e) : F ⊆ G := by
  intro d hd
  obtain ⟨e, he, hed⟩ := hFG d hd
  obtain ⟨d', hd', hle⟩ := hGF e he
  obtain rfl : d' = d := hF.eq hd' hd (hle.trans hed)
  obtain rfl : e = d' := le_antisymm hed hle
  exact he

theorem antichain_eq_of_covers (hF : IsAntichain (· ≤ ·) F) (hG : IsAntichain (· ≤ ·) G)
    (hFG : ∀ d ∈ F, ∃ e ∈ G, e ≤ d) (hGF : ∀ e ∈ G, ∃ d ∈ F, d ≤ e) : F = G :=
  Set.Subset.antisymm (antichain_subset_of_covers hF hFG hGF)
    (antichain_subset_of_covers hG hGF hFG)

/-- What holds upwards holds of a family when it holds of everything above it. -/
theorem forall_upperClosure {p : P → Prop} (hp : ∀ a b, a ≤ b → p a → p b) (F : Set P) :
    (∀ a ∈ upperClosure F, p a) ↔ ∀ a ∈ F, p a := by
  constructor
  · exact fun h a ha => h a (subset_upperClosure ha)
  · intro h a ha
    obtain ⟨d, hd, hle⟩ := mem_upperClosure.1 ha
    exact hp d a hle (h d hd)

end Families

/-! ## Sorted lists -/

structure StrictTotal {α : Type u} (less : α → α → Bool) : Prop where
  irrefl : ∀ a, less a a = false
  trans : ∀ {a b c}, less a b = true → less b c = true → less a c = true
  total : ∀ {a b}, less a b = false → less b a = false → a = b

section Sorted
variable {α : Type u} {less : α → α → Bool}

theorem StrictTotal.asymm (h : StrictTotal less) {a b : α} (hab : less a b = true) :
    less b a = false := by
  by_contra hba
  have hloop := h.trans hab (Bool.not_eq_false _ ▸ hba)
  rw [h.irrefl] at hloop
  cases hloop

theorem StrictTotal.of_ne (h : StrictTotal less) {a b : α} (hne : a ≠ b)
    (hba : less b a = false) : less a b = true := by
  by_contra hab
  exact hne (h.total (Bool.not_eq_true _ ▸ hab) hba)

/-- `std::includes`: whether the second list is part of the first; both are sorted. -/
def includes (less : α → α → Bool) : List α → List α → Bool
  | _, [] => true
  | [], _ :: _ => false
  | a :: as, b :: bs =>
    if less b a then false
    else if less a b then includes less as (b :: bs)
    else includes less as bs

theorem length_le_of_includes {as bs : List α} (h : includes less as bs = true) :
    bs.length ≤ as.length := by
  induction as, bs using includes.induct less with
  | case1 as => exact Nat.zero_le _
  | case2 b bs => cases h
  | case3 a as b bs hba =>
    rw [includes, if_pos hba] at h
    cases h
  | case4 a as b bs hba hab ih =>
    rw [includes, if_neg hba, if_pos hab] at h
    exact (ih h).trans (Nat.le_succ _)
  | case5 a as b bs hba hab ih =>
    rw [includes, if_neg hba, if_neg hab] at h
    exact Nat.succ_le_succ (ih h)

theorem includes_iff (hless : StrictTotal less) {as bs : List α}
    (has : as.Pairwise fun a b => less a b = true) (hbs : bs.Pairwise fun a b => less a b = true) :
    includes less as bs = true ↔ ∀ b ∈ bs, b ∈ as := by
  induction as, bs using includes.induct less with
  | case1 as => simp [includes]
  | case2 b bs =>
    refine iff_of_false (by simp [includes]) fun hall => ?_
    cases hall b List.mem_cons_self
  | case3 a as b bs hba =>
    rw [includes, if_pos hba]
    refine iff_of_false (by simp) fun hall => ?_
    rcases List.mem_cons.1 (hall b List.mem_cons_self) with rfl | hb
    · rw [hless.irrefl] at hba
      cases hba
    · have hab := (List.pairwise_cons.1 has).1 b hb
      rw [hless.asymm hab] at hba
      cases hba
  | case4 a as b bs hba hab ih =>
    have hrest : ∀ x ∈ b :: bs, x ≠ a := by
      intro x hx
      have hax : less a x = true := by
        rcases List.mem_cons.1 hx with rfl | hx
        · exact hab
        · exact hless.trans hab ((List.pairwise_cons.1 hbs).1 x hx)
      rintro rfl
      rw [hless.irrefl] at hax
      cases hax
    rw [includes, if_neg hba, if_pos hab, ih has.of_cons hbs]
    exact ⟨fun h x hx => List.mem_cons_of_mem _ (h x hx),
      fun h x hx => (List.mem_cons.1 (h x hx)).resolve_left (hrest x hx)⟩
  | case5 a as b bs hba hab ih =>
    obtain rfl : a = b := hless.total (Bool.not_eq_true _ ▸ hab) (Bool.not_eq_true _ ▸ hba)
    have hrest : ∀ x ∈ bs, x ≠ a := by
      rintro x hx rfl
      have hlt := (List.pairwise_cons.1 hbs).1 x hx
      rw [hless.irrefl] at hlt
      cases hlt
    rw [includes, if_neg hba, if_neg hab, ih has.of_cons hbs.of_cons]
    constructor
    · intro h x hx
      rcases List.mem_cons.1 hx with rfl | hx
      · exact List.mem_cons_self
      · exact List.mem_cons_of_mem _ (h x hx)
    · exact fun h x hx =>
        (List.mem_cons.1 (h x (List.mem_cons_of_mem _ hx))).resolve_left (hrest x hx)

/-- Sorted lists with the same elements are equal. -/
theorem eq_of_sorted (hless : StrictTotal less) {as bs : List α}
    (has : as.Pairwise fun a b => less a b = true) (hbs : bs.Pairwise fun a b => less a b = true)
    (h : ∀ a, a ∈ as ↔ a ∈ bs) : as = bs := by
  have hanti : Std.Antisymm fun a b => less a b = true :=
    ⟨fun a b hab hba => by rw [hless.asymm hab] at hba; cases hba⟩
  have hirrefl : Std.Irrefl fun a b => less a b = true :=
    ⟨fun a ha => by rw [hless.irrefl] at ha; cases ha⟩
  exact has.eq_of_mem_iff hbs h

theorem sorted_insertionSort (hless : StrictTotal less) (as : List α) :
    (as.insertionSort fun a b => !less b a).Pairwise fun a b => less b a = false := by
  have htotal : Std.Total fun a b => (!less b a) = true := by
    refine ⟨fun a b => ?_⟩
    cases hab : less a b with
    | false => exact Or.inr rfl
    | true => exact Or.inl (by rw [hless.asymm hab]; rfl)
  have htrans : IsTrans α fun a b => (!less b a) = true := by
    refine ⟨fun a b c hba hcb => ?_⟩
    simp only [Bool.not_eq_true'] at hba hcb ⊢
    by_contra hca
    have hca : less c a = true := Bool.not_eq_false _ ▸ hca
    by_cases hne : a = b
    · subst hne
      rw [hcb] at hca
      cases hca
    · have hcb' := hless.trans hca (hless.of_ne hne hba)
      rw [hcb] at hcb'
      cases hcb'
  have hsorted := List.pairwise_insertionSort (r := fun a b => (!less b a) = true) as
  exact hsorted.imp fun h => by simpa using h

variable [DecidableEq α]

theorem mem_destutter {as : List α} {a : α} : a ∈ as.destutter (· ≠ ·) ↔ a ∈ as := by
  have hcons (b : α) (as : List α) : a ∈ as.destutter' (· ≠ ·) b ↔ a ∈ b :: as := by
    induction as generalizing b with
    | nil => simp
    | cons c as ih =>
      rw [List.destutter'_cons]
      split_ifs with h
      · rw [List.mem_cons, ih, List.mem_cons, List.mem_cons, List.mem_cons]
      · rw [ih, not_not.mp h]
        simp
  cases as with
  | nil => simp
  | cons b as => rw [List.destutter_cons', hcons]

/-- `std::unique` on a sorted list leaves it strictly sorted. -/
theorem sorted_destutter (hless : StrictTotal less) {as : List α}
    (has : as.Pairwise fun a b => less b a = false) :
    (as.destutter (· ≠ ·)).Pairwise fun a b => less a b = true := by
  have htrans : IsTrans α fun a b => less a b = true := ⟨fun _ _ _ => hless.trans⟩
  have hweak := (has.sublist (List.destutter_sublist (· ≠ ·) as)).isChain
  have hne := List.isChain_destutter (· ≠ ·) as
  refine List.IsChain.pairwise ?_
  generalize as.destutter (· ≠ ·) = bs at hweak hne
  induction bs with
  | nil => exact List.IsChain.nil
  | cons b bs ih =>
    cases bs with
    | nil => exact List.IsChain.singleton b
    | cons c bs =>
      rw [List.isChain_cons_cons] at hweak hne ⊢
      exact ⟨hless.of_ne hne.1 hweak.1, ih hweak.2 hne.2⟩

/-! ## Lists in order of size -/

/-- `std::lexicographical_compare`. -/
def lexicographicalCompare (less : α → α → Bool) : List α → List α → Bool
  | _, [] => false
  | [], _ :: _ => true
  | a :: as, b :: bs =>
    if less a b then true
    else if less b a then false
    else lexicographicalCompare less as bs

def sizeFirst (less : α → α → Bool) (as bs : List α) : Bool :=
  if as.length ≠ bs.length then decide (as.length < bs.length)
  else lexicographicalCompare less as bs

omit [DecidableEq α] in
theorem StrictTotal.lexicographical (h : StrictTotal less) :
    StrictTotal (lexicographicalCompare less) where
  irrefl as := by
    induction as with
    | nil => rfl
    | cons a as ih => simp [lexicographicalCompare, h.irrefl, ih]
  trans {as bs cs} hab hbc := by
    induction as generalizing bs cs with
    | nil =>
      cases cs with
      | nil => cases bs <;> simp [lexicographicalCompare] at hbc
      | cons c cs => rfl
    | cons a as ih =>
      cases bs with
      | nil => simp [lexicographicalCompare] at hab
      | cons b bs =>
        cases cs with
        | nil => simp [lexicographicalCompare] at hbc
        | cons c cs =>
          simp only [lexicographicalCompare] at hab hbc ⊢
          by_cases h1 : less a b = true
          · by_cases h2 : less b c = true
            · rw [if_pos (h.trans h1 h2)]
            · rw [if_neg h2] at hbc
              by_cases h3 : less c b = true
              · rw [if_pos h3] at hbc
                cases hbc
              · obtain rfl := h.total (Bool.not_eq_true _ ▸ h2) (Bool.not_eq_true _ ▸ h3)
                rw [if_pos h1]
          · rw [if_neg h1] at hab
            by_cases h4 : less b a = true
            · rw [if_pos h4] at hab
              cases hab
            · rw [if_neg h4] at hab
              obtain rfl := h.total (Bool.not_eq_true _ ▸ h1) (Bool.not_eq_true _ ▸ h4)
              by_cases h2 : less a c = true
              · rw [if_pos h2]
              · rw [if_neg h2] at hbc ⊢
                by_cases h3 : less c a = true
                · rw [if_pos h3] at hbc
                  cases hbc
                · rw [if_neg h3] at hbc ⊢
                  exact ih hab hbc
  total {as bs} hab hba := by
    induction as generalizing bs with
    | nil => cases bs with
      | nil => rfl
      | cons b bs => cases hab
    | cons a as ih =>
      cases bs with
      | nil => cases hba
      | cons b bs =>
        simp only [lexicographicalCompare] at hab hba
        by_cases h1 : less a b = true
        · rw [if_pos h1] at hab
          cases hab
        · by_cases h2 : less b a = true
          · rw [if_pos h2] at hba
            cases hba
          · obtain rfl := h.total (Bool.not_eq_true _ ▸ h1) (Bool.not_eq_true _ ▸ h2)
            rw [if_neg h1, if_neg h1] at hab hba
            rw [ih hab hba]

omit [DecidableEq α] in
theorem StrictTotal.sizeFirst (h : StrictTotal less) : StrictTotal (sizeFirst less) where
  irrefl as := by simp [Core.sizeFirst, h.lexicographical.irrefl]
  trans {as bs cs} hab hbc := by
    unfold Core.sizeFirst at hab hbc ⊢
    split at hab
    · next h1 =>
      have h1' := of_decide_eq_true hab
      split at hbc
      · next h2 =>
        have h2' := of_decide_eq_true hbc
        rw [if_pos (by omega)]
        exact decide_eq_true (h1'.trans h2')
      · next h2 =>
        rw [not_not.1 h2] at h1 h1'
        rw [if_pos h1]
        exact decide_eq_true h1'
    · next h1 =>
      rw [← not_not.1 h1] at hbc
      split at hbc
      · next h2 =>
        rw [if_pos h2]
        exact hbc
      · next h2 =>
        rw [if_neg h2]
        exact h.lexicographical.trans hab hbc
  total {as bs} hab hba := by
    unfold Core.sizeFirst at hab hba
    split at hab
    · next h1 =>
      rw [if_pos (Ne.symm h1)] at hba
      have h1' := of_decide_eq_false hab
      have h2' := of_decide_eq_false hba
      omega
    · next h1 =>
      rw [if_neg (fun e => h1 (Ne.symm e))] at hba
      exact h.lexicographical.total hab hba

omit [DecidableEq α] in
/-- A strictly sorted list stays so where a new element enters before the first one that is
not less. -/
theorem sorted_orderedInsert (hless : StrictTotal less) {as : List α} {a : α}
    (has : as.Pairwise fun a b => less a b = true) (ha : a ∉ as) :
    (as.orderedInsert (fun a b => !less b a) a).Pairwise fun a b => less a b = true := by
  induction as with
  | nil => simp
  | cons b as ih =>
    have hbas := List.pairwise_cons.1 has
    rw [List.orderedInsert_cons]
    split
    · next hba =>
      have hlt : less a b = true :=
        hless.of_ne (fun e => ha (e ▸ List.mem_cons_self)) (by simpa using hba)
      refine List.pairwise_cons.2 ⟨fun c hc => ?_, has⟩
      rcases List.mem_cons.1 hc with rfl | hc
      · exact hlt
      · exact hless.trans hlt (hbas.1 c hc)
    · next hba =>
      refine List.pairwise_cons.2 ⟨fun c hc => ?_,
        ih hbas.2 fun hm => ha (List.mem_cons_of_mem _ hm)⟩
      rcases List.mem_cons.1 ((List.perm_orderedInsert _ a as).subset hc) with rfl | hc
      · simpa using hba
      · exact hbas.1 c hc

end Sorted
end KeplerFormal.Core
