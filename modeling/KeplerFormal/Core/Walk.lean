import Mathlib.Data.Fintype.Card

/-!
# Walks that stop at a repeated vertex

A walk goes from vertex to vertex until one gives an answer; a vertex met again ends it.

* `walk_isSome`: on finitely many vertices it ends.
* `leads_of_walk`, `walk_of_leads`: its answer is the one that the steps lead to.
-/
namespace KeplerFormal.Core

universe u v
variable {V : Type u} {A : Type v}

/-- What a walk does at a vertex. -/
inductive Move (V : Type u) (A : Type v) where
  | stop (answer : A)
  | go (next : V)

/-- The walk from a vertex, with the vertices it has seen; `cycle` is the answer at one of these.
It is `none` where the fuel runs out. -/
def walk [DecidableEq V] (move : V → Move V A) (cycle : A) : Nat → List V → V → Option A
  | 0, _, _ => none
  | fuel + 1, visited, v =>
    if v ∈ visited then some cycle
    else
      match move v with
      | .stop answer => some answer
      | .go next => walk move cycle fuel (v :: visited) next

/-- The steps from a vertex lead to an answer. -/
inductive Leads (move : V → Move V A) : V → A → Prop where
  | stop {v : V} {answer : A} : move v = .stop answer → Leads move v answer
  | go {v next : V} {answer : A} : move v = .go next → Leads move next answer → Leads move v answer

/-- They do so in that many steps. -/
inductive LeadsIn (move : V → Move V A) : Nat → V → A → Prop where
  | stop {v : V} {answer : A} : move v = .stop answer → LeadsIn move 0 v answer
  | go {k : Nat} {v next : V} {answer : A} :
    move v = .go next → LeadsIn move k next answer → LeadsIn move (k + 1) v answer

variable {move : V → Move V A}

theorem Leads.exists_leadsIn {v : V} {answer : A} (h : Leads move v answer) :
    ∃ k, LeadsIn move k v answer := by
  induction h with
  | stop hstop => exact ⟨0, .stop hstop⟩
  | go hgo _ ih =>
    obtain ⟨k, hk⟩ := ih
    exact ⟨k + 1, .go hgo hk⟩

theorem LeadsIn.unique {k k' : Nat} {v : V} {answer answer' : A} (h : LeadsIn move k v answer)
    (h' : LeadsIn move k' v answer') : k = k' := by
  induction h generalizing k' with
  | stop hstop =>
    cases h' with
    | stop => rfl
    | go hgo => rw [hstop] at hgo; cases hgo
  | go hgo _ ih =>
    cases h' with
    | stop hstop => rw [hgo] at hstop; cases hstop
    | go hgo' hrest =>
      rw [hgo] at hgo'
      cases hgo'
      rw [ih hrest]

section
variable [DecidableEq V] {cycle : A}

theorem leads_of_walk {fuel : Nat} {visited : List V} {v : V} {answer : A}
    (h : walk move cycle fuel visited v = some answer) : answer = cycle ∨ Leads move v answer := by
  induction fuel generalizing visited v with
  | zero => cases h
  | succ fuel ih =>
    unfold walk at h
    split at h
    · exact .inl (Option.some.inj h).symm
    · split at h
      · rename_i hstop
        exact .inr (Option.some.inj h ▸ .stop hstop)
      · rename_i hgo
        rcases ih h with hcycle | hleads
        · exact .inl hcycle
        · exact .inr (.go hgo hleads)

theorem walk_mono {fuel fuel' : Nat} {visited : List V} {v : V} {answer : A}
    (h : walk move cycle fuel visited v = some answer) (hle : fuel ≤ fuel') :
    walk move cycle fuel' visited v = some answer := by
  induction fuel generalizing fuel' visited v with
  | zero => cases h
  | succ fuel ih =>
    obtain ⟨more, rfl⟩ := Nat.exists_eq_add_of_le hle
    rw [Nat.add_right_comm]
    unfold walk at h ⊢
    split at h
    · rename_i hseen
      rw [if_pos hseen]
      exact h
    · rename_i hnew
      rw [if_neg hnew]
      split at h
      · exact h
      · exact ih h (Nat.le_add_right ..)

/-- No vertex seen is met again, as the steps from each lead further than those still to come. -/
theorem walk_of_leadsIn {k fuel : Nat} {visited : List V} {v : V} {answer : A}
    (h : LeadsIn move k v answer)
    (hvisited : ∀ u ∈ visited, ∃ k', k < k' ∧ LeadsIn move k' u answer) (hfuel : k < fuel) :
    walk move cycle fuel visited v = some answer := by
  induction h generalizing fuel visited with
  | stop hstop =>
    obtain ⟨fuel, rfl⟩ := Nat.exists_eq_add_of_lt hfuel
    rw [Nat.zero_add, walk, if_neg, hstop]
    intro hmem
    obtain ⟨k', hlt, hk'⟩ := hvisited _ hmem
    have := LeadsIn.unique (.stop hstop) hk'
    omega
  | @go k v next answer hgo hrest ih =>
    obtain ⟨fuel, rfl⟩ := Nat.exists_eq_add_of_lt (Nat.zero_lt_of_lt hfuel)
    rw [Nat.zero_add, walk, if_neg, hgo]
    · refine ih (fun u hu => ?_) (by omega)
      rcases List.mem_cons.mp hu with rfl | hu
      · exact ⟨k + 1, by omega, .go hgo hrest⟩
      · obtain ⟨k', hlt, hk'⟩ := hvisited u hu
        exact ⟨k', by omega, hk'⟩
    · intro hmem
      obtain ⟨k', hlt, hk'⟩ := hvisited _ hmem
      have := LeadsIn.unique (.go hgo hrest) hk'
      omega

variable [Fintype V]

/-- A walk on finitely many vertices ends. -/
theorem walk_isSome {fuel : Nat} {visited : List V} (hnodup : visited.Nodup)
    (hfuel : Fintype.card V < fuel + visited.length) (v : V) :
    ∃ answer, walk move cycle fuel visited v = some answer := by
  induction fuel generalizing visited v with
  | zero =>
    have := hnodup.length_le_card
    omega
  | succ fuel ih =>
    unfold walk
    split
    · exact ⟨_, rfl⟩
    · rename_i hnew
      split
      · exact ⟨_, rfl⟩
      · exact ih (List.nodup_cons.mpr ⟨hnew, hnodup⟩) (by simp only [List.length_cons]; omega) _

/-- With one unit of fuel more than there are vertices the walk has the answer that its steps
lead to. -/
theorem walk_of_leads (cycle : A) {v : V} {answer : A} (h : Leads move v answer) :
    walk move cycle (Fintype.card V + 1) [] v = some answer := by
  obtain ⟨k, hk⟩ := h.exists_leadsIn
  obtain ⟨answer', hanswer'⟩ :
      ∃ answer', walk move cycle (Fintype.card V + 1) [] v = some answer' :=
    walk_isSome List.nodup_nil (by simp) v
  have hlong : walk move cycle (k + (Fintype.card V + 1)) [] v = some answer :=
    walk_of_leadsIn hk (fun u hu => absurd hu List.not_mem_nil) (by omega)
  rw [walk_mono hanswer' (Nat.le_add_left _ k)] at hlong
  rw [hanswer', hlong]

end
end KeplerFormal.Core
