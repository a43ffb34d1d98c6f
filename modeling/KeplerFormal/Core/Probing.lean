import Mathlib.Data.List.Basic
import Mathlib.Data.List.Nodup
import Mathlib.Data.Nat.Find

/-!
# Tables with open addressing

A table has a circle of slots. A key is looked for from the slot of its hash on, one slot after
the other, until the key or a free slot is met; it is stored where the search ended. Nothing is
removed.

* `Settled`: every key is met by its search; `probe_first`: with a free slot a search ends.
* `find_iff`: a key is found with the value that it is stored with.
* `insert_settled`, `find_insert`, `used_insert`: one insertion.
* `mem_entries`, `nodup_entries`: the entries of a table, each key once.
-/
namespace KeplerFormal.Core

universe u v

/-- Slots with keys and values; a free slot is `none`. -/
abbrev ProbeTable (κ : Type u) (ν : Type v) := List (Option (κ × ν))

namespace ProbeTable
variable {κ : Type u} {ν : Type v} [DecidableEq κ]

/-- The search for `key` ends at this slot. -/
def stops (t : ProbeTable κ ν) (key : κ) (slot : Nat) : Bool :=
  match t[slot]? with
  | some (some entry) => entry.1 == key
  | _ => true

/-- The search, for at most `fuel` slots; `wrap` takes a position to a slot. -/
def probe (wrap : Nat → Nat) (t : ProbeTable κ ν) (key : κ) : Nat → Nat → Option Nat
  | 0, _ => none
  | fuel + 1, slot =>
    if t.stops key slot then some slot else probe wrap t key fuel (wrap (slot + 1))

def entryAt (t : ProbeTable κ ν) (slot : Nat) : Option (κ × ν) := t[slot]?.join

section Operations
variable (hash : κ → Nat) (wrap : Nat → Nat)

/-- A search of the whole circle. -/
def find (t : ProbeTable κ ν) (key : κ) : Option ν :=
  (t.probe wrap key t.length (wrap (hash key))).bind fun slot => (t.entryAt slot).map Prod.snd

def insert (t : ProbeTable κ ν) (key : κ) (value : ν) : ProbeTable κ ν :=
  match t.probe wrap key t.length (wrap (hash key)) with
  | some slot => t.set slot (some (key, value))
  | none => t

end Operations

def empty (n : Nat) : ProbeTable κ ν := List.replicate n none

def entries (t : ProbeTable κ ν) : List (κ × ν) := t.filterMap id

/-- The number of slots that are not free. -/
def used (t : ProbeTable κ ν) : Nat := t.countP Option.isSome

/-! ## Searches -/

section Search
variable {hash : κ → Nat} {wrap : Nat → Nat} {t : ProbeTable κ ν} {key : κ}

/-- The search for `key` ends after `m` steps. -/
def First (hash : κ → Nat) (t : ProbeTable κ ν) (key : κ) (m : Nat) : Prop :=
  t.stops key ((hash key + m) % t.length) = true ∧
    ∀ d < m, t.stops key ((hash key + d) % t.length) = false

theorem First.unique {m m' : Nat} (h : First hash t key m) (h' : First hash t key m') :
    m = m' := by
  rcases Nat.lt_trichotomy m m' with hlt | heq | hlt
  · exact absurd (h'.2 m hlt) (by rw [h.1]; exact Bool.noConfusion)
  · exact heq
  · exact absurd (h.2 m' hlt) (by rw [h'.1]; exact Bool.noConfusion)

theorem probe_of_first (hwrap : ∀ x, wrap x = x % t.length) {m d fuel : Nat}
    (h : First hash t key m) (hd : d ≤ m) (hfuel : m - d < fuel) :
    t.probe wrap key fuel ((hash key + d) % t.length) = some ((hash key + m) % t.length) := by
  induction fuel generalizing d with
  | zero => exact absurd hfuel (Nat.not_lt_zero _)
  | succ fuel ih =>
    unfold probe
    by_cases heq : d = m
    · rw [heq, if_pos h.1]
    · have hlt : d < m := by omega
      rw [if_neg (by rw [h.2 d hlt]; exact Bool.false_ne_true), hwrap, Nat.mod_add_mod]
      exact ih (d := d + 1) (by omega) (by omega)

theorem mem_used (h : t.used < t.length) : ∃ slot < t.length, t[slot]? = some none := by
  by_contra hnone
  have hall : ∀ entry ∈ t, entry.isSome = true := by
    intro entry hentry
    obtain ⟨slot, hslot⟩ := List.getElem?_of_mem hentry
    cases entry with
    | some _ => rfl
    | none => exact absurd ⟨slot, (List.getElem?_eq_some_iff.mp hslot).1, hslot⟩ hnone
  have hlength : t.used = t.length := List.countP_eq_length.mpr hall
  omega

/-- With a free slot every search ends before it has gone round. -/
theorem exists_first (hash : κ → Nat) (key : κ) (h : t.used < t.length) :
    ∃ m < t.length, First hash t key m := by
  obtain ⟨slot, hslot, hfree⟩ := mem_used h
  have hreach : ∃ m, t.stops key ((hash key + m) % t.length) = true := by
    refine ⟨slot + t.length - hash key % t.length, ?_⟩
    have hmod := Nat.mod_lt (hash key) (Nat.zero_lt_of_lt hslot)
    have hpos : (hash key + (slot + t.length - hash key % t.length)) % t.length = slot := by
      have hsum : hash key + (slot + t.length - hash key % t.length) =
          slot + t.length * (hash key / t.length + 1) := by
        have hdiv := Nat.div_add_mod (hash key) t.length
        rw [Nat.mul_add, Nat.mul_one]
        omega
      rw [hsum, Nat.add_mul_mod_self_left, Nat.mod_eq_of_lt hslot]
    rw [hpos, stops, hfree]
  refine ⟨Nat.find hreach, ?_, Nat.find_spec hreach, fun d hd => ?_⟩
  · by_contra hle
    have hpred := Nat.find_min hreach (m := Nat.find hreach - t.length) (by omega)
    have hsame : (hash key + (Nat.find hreach - t.length)) % t.length =
        (hash key + Nat.find hreach) % t.length := by
      have hshift : hash key + Nat.find hreach =
          hash key + (Nat.find hreach - t.length) + t.length := by omega
      rw [hshift, Nat.add_mod_right]
    rw [hsame] at hpred
    exact hpred (Nat.find_spec hreach)
  · exact eq_false_of_ne_true (Nat.find_min hreach hd)

/-- A search of the whole circle ends, and so does one with any greater bound, at the same
slot. -/
theorem probe_first (hwrap : ∀ x, wrap x = x % t.length) {m fuel : Nat} (hm : m < t.length)
    (h : First hash t key m) (hfuel : t.length ≤ fuel) :
    t.probe wrap key fuel (wrap (hash key)) = some ((hash key + m) % t.length) := by
  have hrun := probe_of_first hwrap h (Nat.zero_le m) (Nat.lt_of_lt_of_le hm hfuel)
  rwa [Nat.add_zero, ← hwrap] at hrun

end Search

/-! ## What is found -/

/-- Every stored key is where its search ends. -/
def Settled (hash : κ → Nat) (t : ProbeTable κ ν) : Prop :=
  ∀ slot key value, t[slot]? = some (some (key, value)) →
    ∃ m, slot = (hash key + m) % t.length ∧
      ∀ d < m, t.stops key ((hash key + d) % t.length) = false

/-- `value` is stored for `key`. -/
def Holds (t : ProbeTable κ ν) (key : κ) (value : ν) : Prop :=
  ∃ slot : Nat, t[slot]? = some (some (key, value))

section Find
variable {hash : κ → Nat} {wrap : Nat → Nat} {t : ProbeTable κ ν} {key : κ} {value : ν}

theorem stops_of_entry {slot : Nat} (h : t[slot]? = some (some (key, value))) :
    stops t key slot = true := by
  rw [stops, h]
  exact beq_self_eq_true key

theorem Settled.first (h : Settled hash t) {slot : Nat}
    (hslot : t[slot]? = some (some (key, value))) :
    ∃ m, slot = (hash key + m) % t.length ∧ First hash t key m := by
  obtain ⟨m, hm, hbefore⟩ := h slot key value hslot
  have hstop := stops_of_entry hslot
  rw [hm] at hstop
  exact ⟨m, hm, hstop, hbefore⟩

/-- A key is found with the value that it is stored with. -/
theorem find_iff (hwrap : ∀ x, wrap x = x % t.length) (hsettled : Settled hash t)
    (hfree : t.used < t.length) :
    t.find hash wrap key = some value ↔ Holds t key value := by
  obtain ⟨m, hm, hfirst⟩ := exists_first hash key hfree
  have hprobe := probe_first hwrap hm hfirst (Nat.le_refl _)
  unfold find
  rw [hprobe, Option.bind_some]
  constructor
  · intro h
    refine ⟨(hash key + m) % t.length, ?_⟩
    have hstop := hfirst.1
    unfold entryAt at h
    unfold stops at hstop
    cases hslot : t[(hash key + m) % t.length]? with
    | none =>
      rw [hslot] at h
      cases h
    | some entry =>
      cases entry with
      | none =>
        rw [hslot] at h
        cases h
      | some entry =>
        rw [hslot] at h hstop
        obtain ⟨stored, value'⟩ := entry
        have hkey : stored = key := eq_of_beq hstop
        have hvalue : value' = value := Option.some.inj h
        rw [hkey, hvalue]
  · rintro ⟨slot, hslot⟩
    obtain ⟨m', hm', hfirst'⟩ := hsettled.first hslot
    rw [hfirst.unique hfirst', ← hm', entryAt, hslot]
    rfl

end Find

/-! ## Insertion -/

section Insert
variable {hash : κ → Nat} {wrap : Nat → Nat} {t : ProbeTable κ ν} {key : κ} {value : ν}

theorem First.slot (hfree : t.used < t.length) {m : Nat} (h : First hash t key m) :
    (hash key + m) % t.length < t.length ∧
      (t[(hash key + m) % t.length]? = some none ∨
        ∃ value, t[(hash key + m) % t.length]? = some (some (key, value))) := by
  have hlt : (hash key + m) % t.length < t.length := Nat.mod_lt _ (Nat.zero_lt_of_lt hfree)
  refine ⟨hlt, ?_⟩
  have hstop := h.1
  rw [stops, List.getElem?_eq_getElem hlt] at hstop
  rw [List.getElem?_eq_getElem hlt]
  cases hentry : t[(hash key + m) % t.length] with
  | none => exact .inl rfl
  | some entry =>
    rw [hentry] at hstop
    exact .inr ⟨entry.2, by rw [← eq_of_beq hstop]⟩

theorem insert_eq (hwrap : ∀ x, wrap x = x % t.length) (hfree : t.used < t.length) {m : Nat}
    (h : First hash t key m) : t.insert hash wrap key value =
      t.set ((hash key + m) % t.length) (some (key, value)) := by
  obtain ⟨m', hm', hfirst⟩ := exists_first hash key hfree
  rw [insert, probe_first hwrap hm' hfirst (Nat.le_refl _), hfirst.unique h]

theorem length_insert : (t.insert hash wrap key value).length = t.length := by
  unfold insert
  split
  · exact List.length_set
  · rfl

/-- A search that does not end at a slot goes on past it after the insertion. -/
theorem stops_set {slot other : Nat} {k : κ} (h : t.stops k other = false)
    (hslot : t[slot]? = some none ∨ ∃ value, t[slot]? = some (some (key, value))) :
    stops (t.set slot (some (key, value))) k other = false := by
  by_cases hsame : slot = other
  · subst hsame
    have hlt : slot < t.length := by
      rcases hslot with hslot | ⟨_, hslot⟩ <;> exact (List.getElem?_eq_some_iff.mp hslot).1
    rw [stops, List.getElem?_set_self hlt]
    rcases hslot with hslot | ⟨_, hslot⟩
    · rw [stops, hslot] at h
      cases h
    · rwa [stops, hslot] at h
  · rwa [stops, List.getElem?_set_ne hsame]

theorem insert_settled (hwrap : ∀ x, wrap x = x % t.length) (hsettled : Settled hash t)
    (hfree : t.used < t.length) : Settled hash (t.insert hash wrap key value) := by
  obtain ⟨m, -, hfirst⟩ := exists_first hash key hfree
  obtain ⟨hlt, hslot⟩ := hfirst.slot hfree
  rw [insert_eq hwrap hfree hfirst]
  intro other k v hother
  rw [List.length_set]
  by_cases hsame : (hash key + m) % t.length = other
  · rw [← hsame, List.getElem?_set_self hlt] at hother
    obtain ⟨rfl, -⟩ := Prod.mk.inj (Option.some.inj (Option.some.inj hother))
    exact ⟨m, hsame.symm, fun d hd => stops_set (hfirst.2 d hd) hslot⟩
  · rw [List.getElem?_set_ne hsame] at hother
    obtain ⟨m', hm', hbefore⟩ := hsettled other k v hother
    exact ⟨m', hm', fun d hd => stops_set (hbefore d hd) hslot⟩

theorem holds_insert (hwrap : ∀ x, wrap x = x % t.length) (hsettled : Settled hash t)
    (hfree : t.used < t.length) {k : κ} {v : ν} :
    Holds (t.insert hash wrap key value) k v ↔ (k = key ∧ v = value) ∨ (k ≠ key ∧ Holds t k v) := by
  obtain ⟨m, -, hfirst⟩ := exists_first hash key hfree
  obtain ⟨hlt, hslot⟩ := hfirst.slot hfree
  rw [insert_eq hwrap hfree hfirst]
  constructor
  · rintro ⟨other, hother⟩
    by_cases hsame : (hash key + m) % t.length = other
    · rw [← hsame, List.getElem?_set_self hlt] at hother
      obtain ⟨rfl, rfl⟩ := Prod.mk.inj (Option.some.inj (Option.some.inj hother))
      exact .inl ⟨rfl, rfl⟩
    · rw [List.getElem?_set_ne hsame] at hother
      refine .inr ⟨fun hk => ?_, other, hother⟩
      subst hk
      obtain ⟨m', hm', hfirst'⟩ := hsettled.first hother
      exact hsame (hfirst.unique hfirst' ▸ hm'.symm)
  · rintro (⟨rfl, rfl⟩ | ⟨hk, other, hother⟩)
    · exact ⟨_, List.getElem?_set_self hlt⟩
    · refine ⟨other, ?_⟩
      rw [List.getElem?_set_ne, hother]
      rintro rfl
      rw [hother] at hslot
      rcases hslot with hslot | ⟨_, hslot⟩
      · cases hslot
      · exact hk (Prod.mk.inj (Option.some.inj (Option.some.inj hslot))).1

theorem used_insert (hwrap : ∀ x, wrap x = x % t.length) (hsettled : Settled hash t)
    (hfree : t.used < t.length) (hnew : ∀ v, ¬ Holds t key v) :
    (t.insert hash wrap key value).used = t.used + 1 := by
  obtain ⟨m, -, hfirst⟩ := exists_first hash key hfree
  obtain ⟨hlt, hslot⟩ := hfirst.slot hfree
  have hentry : t[(hash key + m) % t.length] = none := by
    rcases hslot with hslot | ⟨v, hslot⟩
    · rw [List.getElem?_eq_getElem hlt] at hslot
      exact Option.some.inj hslot
    · exact absurd ⟨_, hslot⟩ (hnew v)
  rw [insert_eq hwrap hfree hfirst, used, List.countP_set hlt, hentry]
  rfl

theorem find_insert (hwrap : ∀ x, wrap x = x % t.length) (hsettled : Settled hash t)
    (hfree : t.used < t.length) (hfree' : (t.insert hash wrap key value).used < t.length) (k : κ) :
    (t.insert hash wrap key value).find hash wrap k =
      if k = key then some value else t.find hash wrap k := by
  have hwrap' : ∀ x, wrap x = x % (t.insert hash wrap key value).length := by
    rw [length_insert]
    exact hwrap
  have hsettled' : Settled hash (t.insert hash wrap key value) :=
    insert_settled hwrap hsettled hfree
  refine Option.ext fun v => ?_
  rw [find_iff hwrap' hsettled' (by rwa [length_insert]), holds_insert hwrap hsettled hfree]
  by_cases hk : k = key
  · rw [if_pos hk]
    simp [hk, eq_comm]
  · rw [if_neg hk, find_iff hwrap hsettled hfree]
    simp [hk]

end Insert

/-! ## All entries of a table -/

section Entries
variable {hash : κ → Nat} {wrap : Nat → Nat} {t : ProbeTable κ ν}

theorem mem_entries {key : κ} {value : ν} : (key, value) ∈ t.entries ↔ Holds t key value := by
  unfold entries Holds
  rw [List.mem_filterMap]
  constructor
  · rintro ⟨entry, hentry, rfl⟩
    exact List.getElem?_of_mem hentry
  · rintro ⟨slot, hslot⟩
    exact ⟨_, List.mem_of_getElem? hslot, rfl⟩

theorem length_entries : t.entries.length = t.used := by
  unfold entries used
  rw [List.length_filterMap_eq_countP]
  rfl

theorem nodup_entries (hsettled : Settled hash t) : (t.entries.map Prod.fst).Nodup := by
  unfold entries
  rw [List.map_filterMap]
  refine List.pairwise_filterMap.mpr (List.pairwise_iff_getElem.mpr fun i j hi hj hij => ?_)
  intro k hk k' hk' heq
  obtain ⟨v, hv⟩ : ∃ v, t[i] = some (k, v) := by
    cases hentry : t[i] with
    | none =>
      rw [hentry] at hk
      cases hk
    | some entry =>
      rw [hentry] at hk
      exact ⟨entry.2, by rw [← Option.some.inj hk]⟩
  obtain ⟨v', hv'⟩ : ∃ v', t[j] = some (k', v') := by
    cases hentry : t[j] with
    | none =>
      rw [hentry] at hk'
      cases hk'
    | some entry =>
      rw [hentry] at hk'
      exact ⟨entry.2, by rw [← Option.some.inj hk']⟩
  subst heq
  obtain ⟨m, hm, hfirst⟩ := hsettled.first ((List.getElem?_eq_getElem hi).trans (congrArg _ hv))
  obtain ⟨m', hm', hfirst'⟩ :=
    hsettled.first ((List.getElem?_eq_getElem hj).trans (congrArg _ hv'))
  rw [hfirst.unique hfirst', ← hm'] at hm
  omega

theorem used_empty (n : Nat) : (empty n : ProbeTable κ ν).used = 0 := by
  simp [used, empty]

theorem holds_empty {n : Nat} {key : κ} {value : ν} :
    ¬ Holds (empty n : ProbeTable κ ν) key value := by
  rintro ⟨slot, hslot⟩
  obtain ⟨_, hentry⟩ := List.getElem?_eq_some_iff.mp hslot
  simp [empty] at hentry

theorem settled_empty (n : Nat) : Settled hash (empty n : ProbeTable κ ν) :=
  fun slot _ _ h => absurd ⟨slot, h⟩ holds_empty

end Entries

end ProbeTable
end KeplerFormal.Core
