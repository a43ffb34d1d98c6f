import Mathlib.Algebra.Ring.Nat
import Mathlib.Algebra.BigOperators.Group.List.Basic
import Mathlib.Algebra.Order.Group.Nat
import Mathlib.Data.List.Nodup

/-!
# Weighted caches that forget the least recently used entries

A cache is the list of its entries, the most recently used one first. `touch` brings an
entry to the front and `shrink` keeps as many recent entries as fit. What calls did is kept
in a history, the newest event first.

* `Lru.shrink_maximal`: one entry more than `shrink` keeps would not fit.
* `Lru.Follows`: the entries are in the order of their last use, they fit, and each one
  holds what the first insertion since its last eviction stored.
* `Lru.Follows.touch`, `Lru.Follows.ignored`, `Lru.Follows.add`: what calls do keeps it.
-/
namespace KeplerFormal.Core

structure LruItem (κ ν : Type) where
  key : κ
  value : ν
  weight : Nat

abbrev Lru (κ ν : Type) := List (LruItem κ ν)

namespace Lru
variable {κ ν : Type}

def keys (c : Lru κ ν) : List κ := c.map LruItem.key

def total (c : Lru κ ν) : Nat := (c.map LruItem.weight).sum

@[simp] theorem keys_nil : keys ([] : Lru κ ν) = [] := rfl
@[simp] theorem keys_cons (i : LruItem κ ν) (c : Lru κ ν) : keys (i :: c) = i.key :: keys c := rfl
@[simp] theorem total_nil : total ([] : Lru κ ν) = 0 := rfl
@[simp] theorem total_cons (i : LruItem κ ν) (c : Lru κ ν) :
    total (i :: c) = i.weight + total c := by simp [total]
@[simp] theorem total_append (c d : Lru κ ν) : total (c ++ d) = total c + total d := by
  simp [total]

/-! ## Making room -/

/-- The most recently used entries, as many as fit. -/
def shrink : Nat → Lru κ ν → Lru κ ν
  | _, [] => []
  | room, i :: c => if i.weight ≤ room then i :: shrink (room - i.weight) c else []

theorem shrink_isPrefix (room : Nat) (c : Lru κ ν) : shrink room c <+: c := by
  induction c generalizing room with
  | nil => simp [shrink]
  | cons i c ih =>
    unfold shrink
    split
    · exact List.cons_prefix_cons.2 ⟨rfl, ih _⟩
    · exact List.nil_prefix

theorem total_shrink_le (room : Nat) (c : Lru κ ν) : total (shrink room c) ≤ room := by
  induction c generalizing room with
  | nil => simp [shrink]
  | cons i c ih =>
    unfold shrink
    split
    · have hrest := ih (room - i.weight)
      rw [total_cons]
      omega
    · simp

theorem shrink_of_fits {room : Nat} {c : Lru κ ν} (h : total c ≤ room) : shrink room c = c := by
  induction c generalizing room with
  | nil => simp [shrink]
  | cons i c ih =>
    rw [total_cons] at h
    rw [shrink, if_pos (by omega), ih (by omega)]

/-- While the entries do not fit, the last one does not count. -/
theorem shrink_concat {room : Nat} {c : Lru κ ν} {i : LruItem κ ν} (h : room < total (c ++ [i])) :
    shrink room (c ++ [i]) = shrink room c := by
  induction c generalizing room with
  | nil =>
    rw [List.nil_append, total_cons, total_nil] at h
    have hi : ¬ i.weight ≤ room := by omega
    simp [shrink, hi]
  | cons a c ih =>
    rw [List.cons_append, total_cons] at h
    rw [List.cons_append, shrink, shrink]
    split
    · rw [ih (by omega)]
    · rfl

theorem shrink_maximal {room m : Nat} {c : Lru κ ν} (h : (shrink room c).length < m)
    (hm : m ≤ c.length) : room < total (c.take m) := by
  induction c generalizing room m with
  | nil => simp [shrink] at h hm; omega
  | cons i c ih =>
    obtain ⟨m, rfl⟩ : ∃ k, m = k + 1 := ⟨m - 1, by omega⟩
    rw [List.take_succ_cons, total_cons]
    rw [shrink] at h
    split at h
    · have hrest := @ih (room - i.weight) m (by simpa using h) (by simpa using hm)
      omega
    · omega

theorem keys_shrink_sublist (room : Nat) (c : Lru κ ν) :
    List.Sublist (keys (shrink room c)) (keys c) :=
  (shrink_isPrefix room c).sublist.map _

/-! ## Using entries -/

variable [DecidableEq κ]

def held (c : Lru κ ν) (k : κ) : Option (LruItem κ ν) := c.find? fun i => i.key = k

/-- The cache after a use of `k`. -/
def touch (c : Lru κ ν) (k : κ) : Lru κ ν :=
  match held c k with
  | some i => i :: c.filter fun j => j.key ≠ k
  | none => c

theorem held_key {c : Lru κ ν} {k : κ} {i : LruItem κ ν} (h : held c k = some i) : i.key = k := by
  simpa using List.find?_some h

theorem held_eq_none {c : Lru κ ν} {k : κ} : held c k = none ↔ k ∉ keys c := by
  simp [held, keys]

theorem held_cons (i : LruItem κ ν) (c : Lru κ ν) (k : κ) :
    held (i :: c) k = if i.key = k then some i else held c k := by
  simp only [held, List.find?_cons]
  by_cases h : i.key = k <;> simp [h]

theorem held_of_mem {c : Lru κ ν} {i : LruItem κ ν} (hc : (keys c).Nodup) (hi : i ∈ c) :
    held c i.key = some i := by
  induction c with
  | nil => cases hi
  | cons j c ih =>
    rw [keys_cons, List.nodup_cons] at hc
    rw [held_cons]
    rcases List.mem_cons.1 hi with rfl | hi
    · simp
    · have hne : j.key ≠ i.key := fun h => hc.1 (h ▸ List.mem_map_of_mem hi)
      rw [if_neg hne, ih hc.2 hi]

theorem keys_filter_ne (c : Lru κ ν) (k : κ) :
    keys (c.filter fun j => j.key ≠ k) = (keys c).filter fun a => a ≠ k := by
  simp only [keys, List.filter_map]
  rfl

theorem keys_touch {c : Lru κ ν} {k : κ} (h : k ∈ keys c) :
    keys (touch c k) = k :: (keys c).filter fun a => a ≠ k := by
  unfold touch
  cases hi : held c k with
  | none => exact absurd h (held_eq_none.1 hi)
  | some i =>
    dsimp only
    rw [keys_cons, held_key hi, keys_filter_ne]

theorem touch_perm {c : Lru κ ν} (k : κ) (hc : (keys c).Nodup) : (touch c k).Perm c := by
  unfold touch
  cases hi : held c k with
  | none => exact List.Perm.refl c
  | some i =>
    have hothers : c.filter (fun j => j.key = k) = [i] := by
      induction c with
      | nil => cases hi
      | cons j c ih =>
        rw [keys_cons, List.nodup_cons] at hc
        rw [held_cons] at hi
        split at hi
        · next hj =>
          obtain rfl := Option.some.inj hi
          have hnone : c.filter (fun b => b.key = k) = [] := by
            refine List.filter_eq_nil_iff.2 fun b hb hk => hc.1 ?_
            have hk : b.key = k := by simpa using hk
            rw [hj, ← hk]
            exact List.mem_map_of_mem hb
          simp [hj, hnone]
        · next hj => simp [hj, ih hc.2 hi]
    have hsplit := List.filter_append_perm (fun j => decide (j.key = k)) c
    rw [hothers] at hsplit
    simpa [Bool.not_eq_true'] using hsplit

theorem held_touch (c : Lru κ ν) (k a : κ) : held (touch c k) a = held c a := by
  unfold touch
  cases hi : held c k with
  | none => rfl
  | some i =>
    dsimp only
    rw [held_cons, held_key hi]
    split
    · next h => rw [← h, hi]
    · next h =>
      unfold held
      rw [List.find?_filter]
      congr 1
      funext j
      by_cases hj : j.key = a <;> simp [hj, Ne.symm h]

theorem held_prefix {c d : Lru κ ν} {a : κ} (h : c <+: d) (ha : a ∈ keys c) :
    held c a = held d a := by
  obtain ⟨rest, rfl⟩ := h
  obtain ⟨i, hi⟩ : ∃ i, held c a = some i :=
    Option.ne_none_iff_exists'.1 fun hn => held_eq_none.1 hn ha
  unfold held at hi ⊢
  rw [List.find?_append, hi]
  rfl

/-! ## The history -/

/-- What one call did: `offered` is the value an insertion brought, `result` the value the
caller got. -/
structure Event (κ ν : Type) where
  key : κ
  offered : Option ν
  result : Option ν
  evicted : List κ

/-- The keys that were used, the last use first. -/
def uses (t : List (Event κ ν)) : List κ :=
  t.filterMap fun e => if e.result.isSome then some e.key else none

/-- What the first insertion of a key stored since the key was last evicted. -/
def firstStored : List (Event κ ν) → κ → Option ν
  | [], _ => none
  | e :: older, k =>
    if k ∈ e.evicted then none
    else
      match firstStored older k with
      | some v => some v
      | none => if e.key = k ∧ e.result.isSome then e.offered else none

/-- The keys that a call drops. -/
def gone (before after : List κ) : List κ := before.filter fun k => k ∉ after

structure Follows (capacity : Nat) (t : List (Event κ ν)) (c : Lru κ ν) : Prop where
  nodup : (keys c).Nodup
  fits : total c ≤ capacity
  used : ∀ k ∈ keys c, k ∈ uses t
  ordered : (keys c).Pairwise fun a b => (uses t).idxOf a < (uses t).idxOf b
  values : ∀ k, (held c k).map LruItem.value = firstStored t k

variable {capacity : Nat} {t : List (Event κ ν)} {c : Lru κ ν}

theorem Follows.nil : Follows capacity ([] : List (Event κ ν)) [] where
  nodup := List.nodup_nil
  fits := Nat.zero_le _
  used := by simp
  ordered := List.Pairwise.nil
  values := by simp [held, firstStored]

/-- A call that gives nothing changes nothing. -/
theorem Follows.ignored (h : Follows capacity t c) (k : κ) (offered : Option ν) :
    Follows capacity (⟨k, offered, none, []⟩ :: t) c where
  nodup := h.nodup
  fits := h.fits
  used := h.used
  ordered := h.ordered
  values a := by
    rw [h.values a]
    cases hv : firstStored t a <;> simp [firstStored, hv]

/-- Bringing a key to the front of a list keeps the order of last use. -/
theorem pairwise_front {ks us : List κ} {k : κ}
    (h : ks.Pairwise fun a b => us.idxOf a < us.idxOf b) (hk : k ∉ ks) :
    (k :: ks).Pairwise fun a b => (k :: us).idxOf a < (k :: us).idxOf b := by
  refine List.pairwise_cons.2 ⟨?_, ?_⟩
  · intro b hb
    have hne : k ≠ b := fun e => hk (e ▸ hb)
    rw [List.idxOf_cons_self, List.idxOf_cons_ne _ hne]
    exact Nat.succ_pos _
  · refine h.imp_of_mem ?_
    intro a b ha hb hlt
    have hka : k ≠ a := fun e => hk (e ▸ ha)
    have hkb : k ≠ b := fun e => hk (e ▸ hb)
    rw [List.idxOf_cons_ne _ hka, List.idxOf_cons_ne _ hkb]
    exact Nat.succ_lt_succ hlt

theorem Follows.touch (h : Follows capacity t c) {k : κ} (offered : Option ν) {i : LruItem κ ν}
    (hi : held c k = some i) :
    Follows capacity (⟨k, offered, some i.value, []⟩ :: t) (touch c k) := by
  have hperm := touch_perm k h.nodup
  have hk : k ∈ keys c := by
    by_contra hn
    rw [held_eq_none.2 hn] at hi
    cases hi
  have huses : uses (⟨k, offered, some i.value, []⟩ :: t : List (Event κ ν)) = k :: uses t := rfl
  refine ⟨(hperm.map LruItem.key).nodup_iff.2 h.nodup, ?_, ?_, ?_, ?_⟩
  · have hsum : total (Lru.touch c k) = total c := (hperm.map LruItem.weight).sum_eq
    rw [hsum]
    exact h.fits
  · intro a ha
    rw [huses]
    exact List.mem_cons_of_mem _ (h.used a ((hperm.map LruItem.key).subset ha))
  · rw [huses, keys_touch hk]
    exact pairwise_front (h.ordered.sublist List.filter_sublist) (by simp)
  · intro a
    rw [held_touch, h.values a]
    have hown : firstStored t k = some i.value := by rw [← h.values k, hi]; rfl
    cases hv : firstStored t a with
    | some v => simp [firstStored, hv]
    | none =>
      have hne : k ≠ a := by
        rintro rfl
        rw [hown] at hv
        cases hv
      simp [firstStored, hv, hne]

/-- A new entry drops the entries that have no room beside it. -/
theorem Follows.add (h : Follows capacity t c) {i : LruItem κ ν} (hi : i.key ∉ keys c)
    (hw : i.weight ≤ capacity) :
    Follows capacity
      (⟨i.key, some i.value, some i.value,
        gone (keys c) (keys (i :: shrink (capacity - i.weight) c))⟩ :: t)
      (i :: shrink (capacity - i.weight) c) := by
  have hsub := keys_shrink_sublist (capacity - i.weight) c
  have hfits := total_shrink_le (capacity - i.weight) c
  have hout : i.key ∉ keys (shrink (capacity - i.weight) c) := fun hm => hi (hsub.subset hm)
  refine ⟨?_, ?_, ?_, ?_, ?_⟩
  · exact List.nodup_cons.2 ⟨hout, hsub.nodup h.nodup⟩
  · rw [total_cons]
    omega
  · intro a ha
    rcases List.mem_cons.1 ha with rfl | ha
    · exact List.mem_cons_self
    · exact List.mem_cons_of_mem _ (h.used a (hsub.subset ha))
  · exact pairwise_front (h.ordered.sublist hsub) hout
  · intro a
    rw [held_cons, firstStored]
    have hold : (held c a).map LruItem.value = firstStored t a := h.values a
    by_cases ha : i.key = a
    · subst ha
      rw [held_eq_none.2 hi] at hold
      simp [gone, ← hold]
    · rw [if_neg ha]
      by_cases hkept : a ∈ keys (shrink (capacity - i.weight) c)
      · have hin : a ∉ gone (keys c) (keys (i :: shrink (capacity - i.weight) c)) := by
          simp [gone, hkept]
        rw [if_neg hin, held_prefix (shrink_isPrefix _ c) hkept, hold]
        cases firstStored t a <;> simp [ha]
      · rw [held_eq_none.2 hkept]
        by_cases hbefore : a ∈ keys c
        · have hin : a ∈ gone (keys c) (keys (i :: shrink (capacity - i.weight) c)) := by
            simp [gone, hkept, hbefore, Ne.symm ha]
          rw [if_pos hin]
          rfl
        · rw [held_eq_none.2 hbefore] at hold
          simp [← hold, ha]

theorem gone_of_perm {before after : List κ} (h : after.Perm before) : gone before after = [] :=
  List.filter_eq_nil_iff.2 fun k hk => by simpa using h.symm.subset hk

end Lru
end KeplerFormal.Core
