import Mathlib.Data.List.Count
import Mathlib.Logic.Relation

/-!
# Connected components

A worklist gives every vertex of a graph the number of its component. Vertices are indices
into the list of numbers, `none` where a vertex has none yet.

* `explore`: the walk that gives one number.
* `components`: one walk for every vertex that has no number yet.
* `components_spec`: the vertices of a component are those that its vertices lead to.
-/
namespace KeplerFormal.Core

/-- The vertices of a list that get the number, in order. -/
def discover (label : Nat) : List Nat → List (Option Nat) → List (Option Nat) × List Nat
  | [], labels => (labels, [])
  | w :: ws, labels =>
    if labels[w]? = some none then
      let r := discover label ws (labels.set w (some label))
      (r.1, w :: r.2)
    else discover label ws labels

theorem getElem?_set_label {labels : List (Option Nat)} {w : Nat} (h : labels[w]? = some none)
    (o : Option Nat) (j : Nat) : (labels.set w o)[j]? = if j = w then some o else labels[j]? := by
  have hlt : w < labels.length := (List.getElem?_eq_some_iff.1 h).1
  rw [List.getElem?_set]
  by_cases hj : w = j
  · rw [if_pos hj, if_pos hj.symm, if_pos (hj ▸ hlt)]
  · rw [if_neg hj, if_neg (Ne.symm hj)]

/-- A vertex that gets a number is one vertex less without. -/
theorem count_set_label {labels : List (Option Nat)} {w : Nat} (h : labels[w]? = some none)
    (label : Nat) : (labels.set w (some label)).count none + 1 = labels.count none := by
  obtain ⟨hlt, hget⟩ := List.getElem?_eq_some_iff.1 h
  have hpos : 0 < labels.count none := List.count_pos_iff.2 (hget ▸ List.getElem_mem hlt)
  rw [List.count_set hlt, hget]
  simp only [beq_self_eq_true, if_true]
  have hne : ((some label : Option Nat) == none) = false := rfl
  rw [hne]
  simp only [Bool.false_eq_true, if_false]
  omega

structure Discovers (label : Nat) (ws : List Nat) (labels labels' : List (Option Nat))
    (found : List Nat) : Prop where
  count : labels'.count none + found.length = labels.count none
  fresh : ∀ j ∈ found, labels[j]? = some none ∧ j ∈ ws
  get : ∀ j, labels'[j]? = if j ∈ found then some (some label) else labels[j]?
  done : ∀ j ∈ ws, labels'[j]? ≠ some none

theorem discover_spec (label : Nat) (ws : List Nat) (labels : List (Option Nat)) :
    Discovers label ws labels (discover label ws labels).1 (discover label ws labels).2 := by
  induction ws generalizing labels with
  | nil => exact ⟨rfl, by simp [discover], by simp [discover], by simp⟩
  | cons w ws ih =>
    unfold discover
    by_cases h : labels[w]? = some none
    · rw [if_pos h]
      obtain ⟨hcount, hfresh, hget, hdone⟩ := ih (labels.set w (some label))
      dsimp only
      refine ⟨?_, ?_, ?_, ?_⟩
      · have hset := count_set_label h label
        rw [List.length_cons]
        omega
      · intro j hj
        rcases List.mem_cons.1 hj with rfl | hj
        · exact ⟨h, List.mem_cons_self⟩
        · obtain ⟨hnone, hmem⟩ := hfresh j hj
          rw [getElem?_set_label h] at hnone
          split at hnone
          · cases hnone
          · exact ⟨hnone, List.mem_cons_of_mem _ hmem⟩
      · intro j
        rw [hget j, getElem?_set_label h]
        by_cases hj : j = w
        · simp [hj]
        · simp [hj]
      · intro j hj
        rcases List.mem_cons.1 hj with rfl | hj
        · rw [hget, getElem?_set_label h, if_pos rfl]
          split <;> simp
        · exact hdone j hj
    · rw [if_neg h]
      obtain ⟨hcount, hfresh, hget, hdone⟩ := ih labels
      refine ⟨hcount, ?_, hget, ?_⟩
      · exact fun j hj => ⟨(hfresh j hj).1, List.mem_cons_of_mem _ (hfresh j hj).2⟩
      · intro j hj
        rcases List.mem_cons.1 hj with rfl | hj
        · rw [hget]
          split
          · simp
          · exact h
        · exact hdone j hj

/-- The worklist from a cursor on; the walked vertices are collected in order. -/
def explore (next : Nat → List Nat) (label : Nat) (pending : List Nat)
    (labels : List (Option Nat)) : List Nat × List (Option Nat) :=
  match pending with
  | [] => ([], labels)
  | v :: rest =>
    let s := explore next label (rest ++ (discover label (next v) labels).2)
      (discover label (next v) labels).1
    (v :: s.1, s.2)
termination_by labels.count none + pending.length
decreasing_by
  have hcount := (discover_spec label (next v) labels).count
  rw [List.length_append, List.length_cons]
  omega

/-- One walk for every start that has no number yet. -/
def components (next : Nat → List Nat) :
    List Nat → List (List Nat) → List (Option Nat) → List (List Nat) × List (Option Nat)
  | [], comps, labels => (comps, labels)
  | start :: starts, comps, labels =>
    if labels[start]? = some none then
      let s := explore next comps.length [start] (labels.set start (some comps.length))
      components next starts (comps ++ [s.1]) s.2
    else components next starts comps labels

variable {next : Nat → List Nat}

def LeadsTo (next : Nat → List Nat) : Nat → Nat → Prop := Relation.ReflTransGen fun a b => b ∈ next a

structure Explores (next : Nat → List Nat) (label : Nat) (pending : List Nat)
    (labels : List (Option Nat)) (walked : List Nat) (labels' : List (Option Nat)) : Prop where
  kept : ∀ j : Nat, labels'[j]? = labels[j]? ∨
    labels[j]? = some none ∧ labels'[j]? = some (some label)
  walked_iff : ∀ j : Nat, j ∈ walked ↔
    j ∈ pending ∨ labels[j]? = some none ∧ labels'[j]? = some (some label)
  done : ∀ v ∈ walked, ∀ w ∈ next v, labels'[w]? ≠ some none
  reached : ∀ j ∈ walked, ∃ v ∈ pending, LeadsTo next v j

theorem explore_spec (next : Nat → List Nat) (label : Nat) (pending : List Nat) (labels : List (Option Nat)) :
    Explores next label pending labels (explore next label pending labels).1
      (explore next label pending labels).2 := by
  induction pending, labels using explore.induct next label with
  | case1 labels =>
    rw [explore]
    refine ⟨fun _ => Or.inl rfl, fun j => ?_, by simp, by simp⟩
    constructor
    · exact Or.inl
    · rintro (hj | ⟨hnone, hlabel⟩)
      · exact hj
      · rw [hnone] at hlabel
        cases hlabel
  | case2 labels v rest ih =>
    rw [explore]
    obtain ⟨-, hfresh, hget, hdone⟩ := discover_spec label (next v) labels
    revert ih
    generalize (discover label (next v) labels).1 = labels₁ at hget hdone ⊢
    generalize (discover label (next v) labels).2 = found at hfresh hget ⊢
    intro ih
    generalize (explore next label (rest ++ found) labels₁).1 = walked at ih ⊢
    generalize (explore next label (rest ++ found) labels₁).2 = labels₂ at ih ⊢
    obtain ⟨hkept, hwalked, hdone', hreached⟩ := ih
    have hkept' : ∀ j : Nat, labels₂[j]? = labels[j]? ∨
        labels[j]? = some none ∧ labels₂[j]? = some (some label) := by
      intro j
      rcases hkept j with h | ⟨hnone, hlabel⟩
      · rw [h, hget]
        split
        · next hj => exact Or.inr ⟨(hfresh j hj).1, rfl⟩
        · exact Or.inl rfl
      · refine Or.inr ⟨?_, hlabel⟩
        rw [hget] at hnone
        split at hnone
        · cases hnone
        · exact hnone
    have hlast : ∀ j : Nat, labels₁[j]? ≠ some none → labels₂[j]? ≠ some none := by
      intro j hj
      rcases hkept j with h | ⟨hnone, -⟩
      · rw [h]
        exact hj
      · exact absurd hnone hj
    refine ⟨hkept', ?_, ?_, ?_⟩
    · intro j
      rw [List.mem_cons, List.mem_cons, hwalked, List.mem_append]
      constructor
      · rintro (rfl | (hj | hj) | ⟨hnone, hlabel⟩)
        · exact Or.inl (Or.inl rfl)
        · exact Or.inl (Or.inr hj)
        · refine Or.inr ⟨(hfresh j hj).1, ?_⟩
          rcases hkept j with h | ⟨-, h⟩
          · rw [h, hget, if_pos hj]
          · exact h
        · rw [hget] at hnone
          split at hnone
          · cases hnone
          · exact Or.inr ⟨hnone, hlabel⟩
      · rintro ((rfl | hj) | ⟨hnone, hlabel⟩)
        · exact Or.inl rfl
        · exact Or.inr (Or.inl (Or.inl hj))
        · by_cases hj : j ∈ found
          · exact Or.inr (Or.inl (Or.inr hj))
          · refine Or.inr (Or.inr ⟨?_, hlabel⟩)
            rw [hget, if_neg hj]
            exact hnone
    · intro u hu w hw
      rcases List.mem_cons.1 hu with rfl | hu
      · exact hlast w (hdone w hw)
      · exact hdone' u hu w hw
    · intro j hj
      rcases List.mem_cons.1 hj with rfl | hj
      · exact ⟨j, List.mem_cons_self, Relation.ReflTransGen.refl⟩
      · obtain ⟨u, hu, hleads⟩ := hreached j hj
        rcases List.mem_append.1 hu with hu | hu
        · exact ⟨u, List.mem_cons_of_mem _ hu, hleads⟩
        · exact ⟨v, List.mem_cons_self, Relation.ReflTransGen.head (hfresh u hu).2 hleads⟩

/-- What the loop over the starts keeps. -/
structure Components (next : Nat → List Nat) (comps : List (List Nat))
    (labels : List (Option Nat)) : Prop where
  members : ∀ k j : Nat, j ∈ comps.getD k [] ↔ labels[j]? = some (some k)
  closed : ∀ i k : Nat, labels[i]? = some (some k) → ∀ j ∈ next i, labels[j]? = some (some k)
  linked : ∀ k i j : Nat, labels[i]? = some (some k) → labels[j]? = some (some k) → LeadsTo next i j

theorem getD_of_le {comps : List (List Nat)} {k : Nat} (h : comps.length ≤ k) :
    comps.getD k [] = [] := by
  rw [List.getD_eq_getElem?_getD, List.getElem?_eq_none h]
  rfl

theorem Components.lt {comps : List (List Nat)} {labels : List (Option Nat)}
    (h : Components next comps labels) {j k : Nat} (hj : labels[j]? = some (some k)) :
    k < comps.length := by
  by_contra hk
  have hmem := (h.members k j).2 hj
  rw [getD_of_le (Nat.le_of_not_lt hk)] at hmem
  cases hmem

theorem leadsTo_symm (hsymm : ∀ a b, b ∈ next a → a ∈ next b) {a b : Nat} (h : LeadsTo next a b) :
    LeadsTo next b a := by
  induction h with
  | refl => exact Relation.ReflTransGen.refl
  | tail _ hstep ih => exact Relation.ReflTransGen.head (hsymm _ _ hstep) ih

theorem components_step {comps : List (List Nat)} {labels : List (Option Nat)} {start : Nat}
    (hsymm : ∀ a b, b ∈ next a → a ∈ next b) (hrange : ∀ a b, b ∈ next a → b < labels.length)
    (h : Components next comps labels) (hstart : labels[start]? = some none) :
    Components next
      (comps ++ [(explore next comps.length [start] (labels.set start (some comps.length))).1])
      (explore next comps.length [start] (labels.set start (some comps.length))).2 := by
  obtain ⟨hkept, hwalked, hdone, hreached⟩ :=
    explore_spec next comps.length [start] (labels.set start (some comps.length))
  generalize (explore next comps.length [start] (labels.set start (some comps.length))).1
    = walked at hwalked hdone hreached ⊢
  generalize (explore next comps.length [start] (labels.set start (some comps.length))).2
    = labels' at hkept hwalked hdone ⊢
  -- what a number other than the new one says was there before
  have hold : ∀ j k : Nat, k ≠ comps.length →
      (labels'[j]? = some (some k) ↔ labels[j]? = some (some k)) := by
    intro j k hk
    have hkept := hkept j
    rw [getElem?_set_label hstart] at hkept
    by_cases hj : j = start
    · subst hj
      rw [if_pos rfl] at hkept
      rcases hkept with h | ⟨h, -⟩
      · rw [h, hstart]
        simpa using Ne.symm hk
      · cases h
    · rw [if_neg hj] at hkept
      rcases hkept with h | ⟨hnone, hlabel⟩
      · rw [h]
      · rw [hnone, hlabel]
        simpa using Ne.symm hk
  have hnew : ∀ j : Nat, labels'[j]? = some (some comps.length) ↔ j ∈ walked := by
    intro j
    have hkept := hkept j
    rw [hwalked, List.mem_singleton]
    rw [getElem?_set_label hstart] at hkept ⊢
    by_cases hj : j = start
    · subst hj
      rw [if_pos rfl] at hkept
      rcases hkept with h | ⟨h, -⟩
      · exact iff_of_true h (Or.inl rfl)
      · cases h
    · rw [if_neg hj] at hkept ⊢
      rcases hkept with h' | ⟨hnone, hlabel⟩
      · refine iff_of_false ?_ ?_
        · rw [h']
          exact fun hl => absurd (h.lt hl) (Nat.lt_irrefl _)
        · rintro (rfl | ⟨hnone, hlabel⟩)
          · exact hj rfl
          · rw [h', hnone] at hlabel
            cases hlabel
      · exact iff_of_true hlabel (Or.inr ⟨hnone, hlabel⟩)
  -- the walked vertices had no number
  have hbefore : ∀ j ∈ walked, ∀ k : Nat, labels[j]? ≠ some (some k) := by
    intro j hj k hk
    rcases (hwalked j).1 hj with hj | ⟨hnone, -⟩
    · rw [List.mem_singleton] at hj
      rw [hj, hstart] at hk
      cases hk
    · rw [getElem?_set_label hstart] at hnone
      split at hnone
      · cases hnone
      · rw [hk] at hnone
        cases hnone
  have hlength : ∀ j : Nat, labels'[j]? = none ↔ labels[j]? = none := by
    intro j
    have hkept := hkept j
    rw [getElem?_set_label hstart] at hkept
    by_cases hj : j = start
    · subst hj
      rw [if_pos rfl] at hkept
      rcases hkept with h | ⟨h, -⟩
      · rw [h, hstart]
        simp
      · cases h
    · rw [if_neg hj] at hkept
      rcases hkept with h | ⟨hnone, hlabel⟩
      · rw [h]
      · rw [hnone, hlabel]
        simp
  refine ⟨?_, ?_, ?_⟩
  · intro k j
    rcases Nat.lt_trichotomy k comps.length with hk | rfl | hk
    · rw [hold j k (Nat.ne_of_lt hk), ← h.members]
      simp [List.getD_eq_getElem?_getD, List.getElem?_append_left hk]
    · rw [hnew]
      simp [List.getD_eq_getElem?_getD]
    · rw [hold j k (Nat.ne_of_gt hk), ← h.members, getD_of_le (Nat.le_of_lt hk), getD_of_le]
      rw [List.length_append, List.length_singleton]
      omega
  · intro i k hi j hj
    by_cases hk : k = comps.length
    · subst hk
      have hwalk := (hnew i).1 hi
      have hdone := hdone i hwalk j hj
      cases hlabel : labels'[j]? with
      | none =>
        have hnone := (hlength j).1 hlabel
        rw [List.getElem?_eq_none_iff] at hnone
        exact absurd (hrange i j hj) (Nat.not_lt.2 hnone)
      | some o =>
        cases o with
        | none => exact absurd hlabel hdone
        | some k' =>
          by_cases hk' : k' = comps.length
          · rw [hk']
          · have hj' := (hold j k' hk').1 hlabel
            exact absurd (h.closed j k' hj' i (hsymm i j hj)) (hbefore i hwalk k')
    · rw [hold j k hk]
      exact h.closed i k ((hold i k hk).1 hi) j hj
  · intro k i j hi hj
    by_cases hk : k = comps.length
    · subst hk
      obtain ⟨u, hu, hleft⟩ := hreached i ((hnew i).1 hi)
      obtain ⟨v, hv, hright⟩ := hreached j ((hnew j).1 hj)
      rw [List.mem_singleton] at hu hv
      subst hu hv
      exact (leadsTo_symm hsymm hleft).trans hright
    · exact h.linked k i j ((hold i k hk).1 hi) ((hold j k hk).1 hj)

/-- Exploring keeps the number of vertices. -/
theorem length_explore (label : Nat) (pending : List Nat) (labels : List (Option Nat)) :
    (explore next label pending labels).2.length = labels.length := by
  have hkept := (explore_spec next label pending labels).kept
  apply Nat.le_antisymm
  · by_contra hlt
    rcases hkept labels.length with h | ⟨h, -⟩
    · rw [List.getElem?_eq_none (Nat.le_refl _), List.getElem?_eq_none_iff] at h
      omega
    · rw [List.getElem?_eq_none (Nat.le_refl _)] at h
      cases h
  · by_contra hlt
    have hout := List.getElem?_eq_none
      (Nat.le_refl (explore next label pending labels).2.length)
    rcases hkept (explore next label pending labels).2.length with h | ⟨-, h⟩
    · rw [hout, eq_comm, List.getElem?_eq_none_iff] at h
      omega
    · rw [hout] at h
      cases h

/-- The loop numbers its starts and keeps the numbers that are there. -/
theorem components_run (hsymm : ∀ a b, b ∈ next a → a ∈ next b) {n : Nat}
    (hrange : ∀ a b, b ∈ next a → b < n) {starts : List Nat} {comps : List (List Nat)}
    {labels : List (Option Nat)} (hn : labels.length = n) (h : Components next comps labels) :
    Components next (components next starts comps labels).1
        (components next starts comps labels).2 ∧
      (components next starts comps labels).2.length = n ∧
      (∀ j : Nat, labels[j]? ≠ some none → (components next starts comps labels).2[j]? ≠ some none) ∧
      ∀ j ∈ starts, (components next starts comps labels).2[j]? ≠ some none := by
  induction starts generalizing comps labels with
  | nil => exact ⟨h, hn, fun _ hj => hj, by simp⟩
  | cons start starts ih =>
    rw [components]
    by_cases hstart : labels[start]? = some none
    · rw [if_pos hstart]
      have hstep := components_step hsymm (hn ▸ hrange) h hstart
      have hkept := (explore_spec next comps.length [start]
        (labels.set start (some comps.length))).kept
      have hlength : (explore next comps.length [start]
          (labels.set start (some comps.length))).2.length = n := by
        rw [length_explore, List.length_set, hn]
      obtain ⟨hcomps, hlen, hlast, hall⟩ := ih hlength hstep
      have hmono : ∀ j : Nat, (labels.set start (some comps.length))[j]? ≠ some none →
          (explore next comps.length [start]
            (labels.set start (some comps.length))).2[j]? ≠ some none := by
        intro j hj
        rcases hkept j with h | ⟨hnone, -⟩
        · rw [h]
          exact hj
        · exact absurd hnone hj
      refine ⟨hcomps, hlen, ?_, ?_⟩
      · intro j hj
        refine hlast j (hmono j ?_)
        rw [getElem?_set_label hstart]
        split
        · simp
        · exact hj
      · intro j hj
        rcases List.mem_cons.1 hj with rfl | hj
        · refine hlast j (hmono j ?_)
          rw [getElem?_set_label hstart, if_pos rfl]
          simp
        · exact hall j hj
    · rw [if_neg hstart]
      obtain ⟨hcomps, hlen, hlast, hall⟩ := ih hn h
      refine ⟨hcomps, hlen, hlast, ?_⟩
      intro j hj
      rcases List.mem_cons.1 hj with rfl | hj
      · exact hlast j hstart
      · exact hall j hj

/-- Every vertex has a number, and its component is what it leads to. -/
theorem components_spec (hsymm : ∀ a b, b ∈ next a → a ∈ next b) {n : Nat}
    (hrange : ∀ a b, b ∈ next a → b < n) {i : Nat} (hi : i < n) :
    ∃ k, (components next (List.range n) [] (List.replicate n none)).2[i]? = some (some k) ∧
      ∀ j, j ∈ (components next (List.range n) [] (List.replicate n none)).1.getD k [] ↔
        LeadsTo next i j := by
  have hstart : Components next [] (List.replicate n none) := by
    have hnone : ∀ (j k : Nat), (List.replicate n (none : Option Nat))[j]? ≠ some (some k) := by
      intro j k hj
      rw [List.getElem?_replicate] at hj
      split at hj <;> cases hj
    exact ⟨fun k j => iff_of_false (by simp) (hnone j k), fun i k hi => absurd hi (hnone i k),
      fun k i j hi => absurd hi (hnone i k)⟩
  obtain ⟨hcomps, hlen, -, hall⟩ :=
    @components_run _ hsymm _ hrange (List.range n) _ _ List.length_replicate hstart
  have hnumber := hall i (List.mem_range.2 hi)
  generalize (components next (List.range n) [] (List.replicate n none)).1 = comps at hcomps ⊢
  generalize (components next (List.range n) [] (List.replicate n none)).2
    = labels at hcomps hlen hnumber ⊢
  obtain ⟨k, hk⟩ : ∃ k, labels[i]? = some (some k) := by
    cases ho : labels[i]? with
    | none =>
      rw [List.getElem?_eq_none_iff] at ho
      omega
    | some o =>
      cases o with
      | none => exact absurd ho hnumber
      | some k => exact ⟨k, rfl⟩
  refine ⟨k, hk, fun j => ?_⟩
  rw [hcomps.members]
  constructor
  · exact hcomps.linked k i j hk
  · intro hleads
    induction hleads with
    | refl => exact hk
    | tail _ hstep ih => exact hcomps.closed _ k ih _ hstep

end KeplerFormal.Core
