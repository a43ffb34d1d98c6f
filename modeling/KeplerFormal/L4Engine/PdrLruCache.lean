import Mathlib.Algebra.Order.BigOperators.Group.List
import Mathlib.Data.List.AList
import Mathlib.Logic.Relation
import KeplerFormal.Core.Lru

/-!
# The weighted recency cache (`src/sec/pdr/PDREngine.h`)

`PdrWeightedLruCache` keeps its entries in an unordered map and its recency order in a list
of key addresses; each entry holds the position of its list node. The list is a list of
nodes here, each with its own address and the key it leads to, and `none` stands for what
the C++ standard leaves undefined (a position that is no node, a key that is not stored).
Weights are 64-bit and their arithmetic wraps.

* `Linked`: every node leads to an entry that leads back to it, and the retained weight is
  the sum of the stored weights.
* `find_spec`, `insert_spec`: the operations are the ones of `Core.Lru` on the entries in
  recency order.
* `weightedLru_exact`: what holds after any sequence of calls.
-/
namespace KeplerFormal

open Core

/-- mirrors src/sec/pdr/PDREngine.h:201-205 -/
structure LruEntry (Value : Type) where
  value : Value
  weight : UInt64
  recency : Nat

/-- `nextNode` is the address of the next list node that is allocated.
mirrors src/sec/pdr/PDREngine.h:215-220 -/
structure PdrWeightedLruCache (Key Value : Type) where
  maxWeight : UInt64
  retainedWeight : UInt64
  recency : List (Nat × Key)
  nextNode : Nat
  entries : AList fun _ : Key => LruEntry Value

/-- mirrors src/sec/pdr/PDREngine.h:155-158 -/
structure InsertResult (Value : Type) where
  value : Option Value
  evictedEntries : Nat

inductive LruCall (Key Value : Type)
  | find (key : Key)
  | insert (key : Key) (value : Value) (weight : UInt64)

namespace PdrWeightedLruCache
variable {Key Value : Type} [DecidableEq Key]

def empty (maxWeight : UInt64) : PdrWeightedLruCache Key Value :=
  { maxWeight, retainedWeight := 0, recency := [], nextNode := 0, entries := ∅ }

/-- The list with the node at `node` moved to the front. -/
def splice (node : Nat) (nodes : List (Nat × Key)) : Option (List (Nat × Key)) :=
  (nodes.find? fun n => n.1 = node).map fun n => n :: nodes.filter fun m => m.1 ≠ node

/-- mirrors src/sec/pdr/PDREngine.h:165-172 -/
def find (c : PdrWeightedLruCache Key Value) (key : Key) :
    Option (PdrWeightedLruCache Key Value × Option Value) :=
  match c.entries.lookup key with
  | none => some (c, none)
  | some existing =>
    (splice existing.recency c.recency).map fun nodes =>
      ({ c with recency := nodes }, some existing.value)

/-- mirrors src/sec/pdr/PDREngine.h:207-213 -/
def evictLeastRecent (c : PdrWeightedLruCache Key Value) :
    Option (PdrWeightedLruCache Key Value) :=
  match c.recency.getLast? with
  | none => none
  | some (_, key) =>
    match c.entries.lookup key with
    | none => none
    | some existing => some { c with
        retainedWeight := c.retainedWeight - existing.weight
        recency := c.recency.dropLast
        entries := c.entries.erase key }

theorem evictLeastRecent_shorter {c c' : PdrWeightedLruCache Key Value}
    (h : c.evictLeastRecent = some c') : c'.recency.length < c.recency.length := by
  unfold evictLeastRecent at h
  split at h
  · cases h
  · next hlast =>
    have hne : c.recency ≠ [] := by
      intro hnil
      simp [hnil] at hlast
    split at h
    · cases h
    · cases h
      have hpos := List.length_pos_of_ne_nil hne
      simp only [List.length_dropLast]
      omega

/-- The condition of the eviction loop. -/
def needsRoom (c : PdrWeightedLruCache Key Value) (weight : UInt64) : Bool :=
  !c.entries.keys.isEmpty && decide (c.maxWeight - c.retainedWeight < weight)

/-- The eviction loop and the count it leaves in `evictedEntries`.
mirrors src/sec/pdr/PDREngine.h:182-186 -/
def makeRoom (c : PdrWeightedLruCache Key Value) (weight : UInt64) :
    Option (PdrWeightedLruCache Key Value × Nat) :=
  if c.needsRoom weight then
    match h : c.evictLeastRecent with
    | none => none
    | some c' => (c'.makeRoom weight).map fun r => (r.1, r.2 + 1)
  else some (c, 0)
termination_by c.recency.length
decreasing_by exact evictLeastRecent_shorter h

/-- mirrors src/sec/pdr/PDREngine.h:188-193 -/
def emplace (c : PdrWeightedLruCache Key Value) (key : Key) (value : Value) (weight : UInt64) :
    PdrWeightedLruCache Key Value :=
  { c with
    entries := c.entries.insert key { value, weight, recency := c.nextNode }
    recency := (c.nextNode, key) :: c.recency
    nextNode := c.nextNode + 1
    retainedWeight := c.retainedWeight + weight }

/-- mirrors src/sec/pdr/PDREngine.h:174-195 -/
def insert (c : PdrWeightedLruCache Key Value) (key : Key) (value : Value) (weight : UInt64) :
    Option (PdrWeightedLruCache Key Value × InsertResult Value) :=
  if c.maxWeight < weight then some (c, { value := none, evictedEntries := 0 })
  else
    match c.find key with
    | none => none
    | some (found, some existing) => some (found, { value := some existing, evictedEntries := 0 })
    | some (found, none) =>
      (found.makeRoom weight).map fun r =>
        (r.1.emplace key value weight, { value := some value, evictedEntries := r.2 })

/-- One call and the value its pointer leads to. -/
def call (c : PdrWeightedLruCache Key Value) :
    LruCall Key Value → Option (PdrWeightedLruCache Key Value × Option Value)
  | .find key => c.find key
  | .insert key value weight => (c.insert key value weight).map fun r => (r.1, r.2.value)

/-- The keys in recency order. -/
def order (c : PdrWeightedLruCache Key Value) : List Key := c.recency.map Prod.snd

/-- What a call did, with the keys it dropped. -/
def eventOf (c c' : PdrWeightedLruCache Key Value) (result : Option Value) :
    LruCall Key Value → Lru.Event Key Value
  | .find key => ⟨key, none, result, Lru.gone c.order c'.order⟩
  | .insert key value _ => ⟨key, some value, result, Lru.gone c.order c'.order⟩

/-- One call and its event, in front of the history. -/
def record (s : PdrWeightedLruCache Key Value × List (Lru.Event Key Value))
    (request : LruCall Key Value) :
    Option (PdrWeightedLruCache Key Value × List (Lru.Event Key Value)) :=
  (s.1.call request).map fun r => (r.1, eventOf s.1 r.1 r.2 request :: s.2)

/-- A run of calls from the empty cache. -/
def runCalls (maxWeight : UInt64) (calls : List (LruCall Key Value)) :
    Option (PdrWeightedLruCache Key Value × List (Lru.Event Key Value)) :=
  calls.foldlM record (empty maxWeight, [])

/-! ## The entries in recency order -/

def item (c : PdrWeightedLruCache Key Value) (key : Key) : Option (LruItem Key Value) :=
  (c.entries.lookup key).map fun e => ⟨key, e.value, e.weight.toNat⟩

def items (c : PdrWeightedLruCache Key Value) : Lru Key Value := c.order.filterMap c.item

structure Linked (c : PdrWeightedLruCache Key Value) : Prop where
  nodes : (c.recency.map Prod.fst).Nodup
  fresh : ∀ n ∈ c.recency, n.1 < c.nextNode
  perm : c.order.Perm c.entries.keys
  home : ∀ n ∈ c.recency, ∃ e, c.entries.lookup n.2 = some e ∧ e.recency = n.1
  weight : c.retainedWeight.toNat = Lru.total c.items

variable {c : PdrWeightedLruCache Key Value}

theorem item_key {key : Key} {i : LruItem Key Value} (h : c.item key = some i) : i.key = key := by
  obtain ⟨e, -, rfl⟩ := Option.map_eq_some_iff.1 h
  rfl

theorem Linked.mem_order (h : c.Linked) {key : Key} : key ∈ c.order ↔ key ∈ c.entries :=
  h.perm.mem_iff

theorem Linked.order_nodup (h : c.Linked) : c.order.Nodup :=
  h.perm.nodup_iff.2 c.entries.keys_nodup

theorem Linked.item_some (h : c.Linked) {key : Key} (hk : key ∈ c.order) :
    ∃ i, c.item key = some i := by
  obtain ⟨e, he⟩ := Option.isSome_iff_exists.1 (AList.lookup_isSome.2 (h.mem_order.1 hk))
  exact ⟨_, Option.map_eq_some_iff.2 ⟨e, he, rfl⟩⟩

/-- Keys that are all stored have an entry each, in their order. -/
theorem keys_filterMap_item {ks : List Key} (h : ∀ k ∈ ks, ∃ i, c.item k = some i) :
    Lru.keys (ks.filterMap c.item) = ks := by
  induction ks with
  | nil => rfl
  | cons k ks ih =>
    obtain ⟨i, hi⟩ := h k List.mem_cons_self
    rw [List.filterMap_cons_some hi, Lru.keys_cons, item_key hi,
      ih fun a ha => h a (List.mem_cons_of_mem _ ha)]

theorem Linked.keys_items (h : c.Linked) : Lru.keys c.items = c.order :=
  keys_filterMap_item fun _ hk => h.item_some hk

theorem Linked.held_items (h : c.Linked) (key : Key) : Lru.held c.items key = c.item key := by
  by_cases hk : key ∈ c.order
  · obtain ⟨i, hi⟩ := h.item_some hk
    have hmem : i ∈ c.items := List.mem_filterMap.2 ⟨key, hk, hi⟩
    have hnodup : (Lru.keys c.items).Nodup := h.keys_items ▸ h.order_nodup
    rw [hi, ← item_key hi]
    exact Lru.held_of_mem hnodup hmem
  · have hout : c.item key = none := by
      rw [h.mem_order, ← AList.lookup_eq_none] at hk
      simp [item, hk]
    rw [hout]
    exact Lru.held_eq_none.2 (h.keys_items ▸ hk)

theorem Linked.length_items (h : c.Linked) : c.items.length = c.recency.length := by
  have hkeys := congrArg List.length h.keys_items
  simpa [Lru.keys, order] using hkeys

/-- The sum of the stored weights does not depend on the order. -/
theorem Linked.stored_weight (h : c.Linked) :
    c.retainedWeight.toNat = (c.entries.entries.map fun e => e.2.weight.toNat).sum := by
  have hitems : c.items.Perm (c.entries.keys.filterMap c.item) := h.perm.filterMap _
  have hsum : Lru.total c.items = Lru.total (c.entries.keys.filterMap c.item) :=
    (hitems.map LruItem.weight).sum_eq
  have hkeys : c.entries.keys.filterMap c.item
      = c.entries.entries.map fun e => ⟨e.1, e.2.value, e.2.weight.toNat⟩ := by
    show (c.entries.entries.map Sigma.fst).filterMap c.item = _
    rw [List.filterMap_map, ← List.filterMap_eq_map]
    refine List.filterMap_congr fun e he => ?_
    have hlookup : c.entries.lookup e.1 = some e.2 :=
      AList.mem_lookup_iff.2 he
    simp [item, hlookup]
  rw [h.weight, hsum, hkeys, Lru.total, List.map_map]
  rfl

/-! ## The operations -/

theorem empty_linked (maxWeight : UInt64) :
    (empty maxWeight : PdrWeightedLruCache Key Value).Linked where
  nodes := List.nodup_nil
  fresh := by simp [empty]
  perm := List.Perm.refl _
  home := by simp [empty]
  weight := rfl

/-- The node of a stored key. -/
theorem Linked.node (h : c.Linked) {key : Key} {e : LruEntry Value}
    (he : c.entries.lookup key = some e) : (e.recency, key) ∈ c.recency := by
  have hk : key ∈ c.order :=
    h.mem_order.2 (AList.lookup_isSome.1 (Option.isSome_iff_exists.2 ⟨e, he⟩))
  obtain ⟨⟨node, k⟩, hn, rfl⟩ := List.mem_map.1 hk
  obtain ⟨e', he', hnode⟩ := h.home _ hn
  rw [he] at he'
  cases he'
  rw [hnode]
  exact hn

theorem splice_spec {node : Nat} {key : Key} {nodes : List (Nat × Key)}
    (hnodes : (nodes.map Prod.fst).Nodup) (hmem : (node, key) ∈ nodes) :
    splice node nodes = some ((node, key) :: nodes.filter fun m => m.1 ≠ node) := by
  have hfind : (nodes.find? fun n => n.1 = node) = some (node, key) := by
    induction nodes with
    | nil => cases hmem
    | cons n nodes ih =>
      rw [List.map_cons, List.nodup_cons] at hnodes
      rcases List.mem_cons.1 hmem with rfl | hmem
      · simp
      · have hne : n.1 ≠ node := fun e => hnodes.1 (e ▸ List.mem_map_of_mem hmem)
        rw [List.find?_cons_of_neg (by simpa using hne)]
        exact ih hnodes.2 hmem
  rw [splice, hfind]
  rfl

/-- A hit brings the entry to the front and gives its value; a miss changes nothing. -/
theorem find_spec (h : c.Linked) (key : Key) :
    ∃ c', c.find key = some (c', (Lru.held c.items key).map LruItem.value) ∧ c'.Linked ∧
      c'.items = Lru.touch c.items key ∧ c'.maxWeight = c.maxWeight ∧
      c'.entries = c.entries := by
  cases he : c.entries.lookup key with
  | none =>
    have hitem : c.item key = none := by simp [item, he]
    refine ⟨c, ?_, h, ?_, rfl, rfl⟩
    · simp [find, he, h.held_items, hitem]
    · simp [Lru.touch, h.held_items, hitem]
  | some e =>
    have hitem : c.item key = some ⟨key, e.value, e.weight.toNat⟩ := by simp [item, he]
    have hnode := h.node he
    have hnodup : (c.recency.map Prod.snd).Nodup := h.order_nodup
    have hothers : (c.recency.filter fun m => m.1 ≠ e.recency)
        = c.recency.filter fun m => m.2 ≠ key := by
      refine List.filter_congr fun m hm => ?_
      have hiff : m.1 = e.recency ↔ m.2 = key :=
        ⟨fun heq => congrArg Prod.snd (List.inj_on_of_nodup_map h.nodes hm hnode heq),
          fun heq => congrArg Prod.fst (List.inj_on_of_nodup_map hnodup hm hnode heq)⟩
      simp [hiff]
    have hspliced := splice_spec h.nodes hnode
    have hperm : ((e.recency, key) :: c.recency.filter fun m => m.1 ≠ e.recency).Perm
        c.recency := by
      have hone : c.recency.filter (fun m => m.1 = e.recency) = [(e.recency, key)] := by
        have hall : ∀ m ∈ c.recency.filter (fun m => m.1 = e.recency), m = (e.recency, key) := by
          intro m hm
          obtain ⟨hm, heq⟩ := List.mem_filter.1 hm
          exact List.inj_on_of_nodup_map h.nodes hm hnode (by simpa using heq)
        have hsub : (c.recency.filter (fun m => m.1 = e.recency)).Nodup :=
          (List.Nodup.of_map _ h.nodes).filter _
        refine List.perm_singleton.1 ((List.perm_ext_iff_of_nodup hsub (by simp)).2 fun m => ?_)
        rw [List.mem_singleton]
        refine ⟨hall m, ?_⟩
        rintro rfl
        exact List.mem_filter.2 ⟨hnode, by simp⟩
      have hsplit := List.filter_append_perm (fun m : Nat × Key => decide (m.1 = e.recency)) c.recency
      rw [hone] at hsplit
      simpa using hsplit
    let c' : PdrWeightedLruCache Key Value :=
      { c with recency := (e.recency, key) :: c.recency.filter fun m => m.1 ≠ e.recency }
    have hitems : c'.items = Lru.touch c.items key := by
      have hrest : (c.recency.filter fun m => m.2 ≠ key).map Prod.snd
          = c.order.filter fun k => k ≠ key := by
        rw [order, List.filter_map]
        rfl
      have hfilter : (c.order.filter fun k => k ≠ key).filterMap c.item
          = c.items.filter fun i => i.key ≠ key := by
        rw [items, List.filterMap_filter, List.filter_filterMap]
        refine List.filterMap_congr fun k _ => ?_
        cases hk : c.item k with
        | none => simp
        | some i => by_cases hkk : k = key <;> simp [item_key hk, hkk, Option.filter, Option.guard]
      have horder : c'.order = key :: (c.order.filter fun k => k ≠ key) := by
        show key :: (c.recency.filter fun m => m.1 ≠ e.recency).map Prod.snd = _
        rw [hothers, hrest]
      have hunfold : c'.items = c'.order.filterMap c.item := rfl
      rw [hunfold, horder, List.filterMap_cons_some hitem, hfilter, Lru.touch, h.held_items, hitem]
    refine ⟨c', ?_, ?_, hitems, rfl, rfl⟩
    · rw [h.held_items, hitem]
      simp [find, he, hspliced, c']
    · refine ⟨(hperm.map Prod.fst).nodup_iff.2 h.nodes, ?_, ?_, ?_, ?_⟩
      · exact fun n hn => h.fresh n (hperm.subset hn)
      · exact (hperm.map Prod.snd).trans h.perm
      · exact fun n hn => h.home n (hperm.subset hn)
      · have hsame : Lru.total (Lru.touch c.items key) = Lru.total c.items :=
          ((Lru.touch_perm key (h.keys_items ▸ h.order_nodup)).map LruItem.weight).sum_eq
        rw [hitems, hsame]
        exact h.weight

/-- An eviction drops the least recently used entry; no subtraction wraps. -/
theorem evict_spec (h : c.Linked) (hne : c.recency ≠ []) :
    ∃ c' i, c.evictLeastRecent = some c' ∧ c'.Linked ∧ c.items = c'.items ++ [i] ∧
      c'.maxWeight = c.maxWeight ∧ i.weight ≤ c.retainedWeight.toNat ∧
      c'.retainedWeight.toNat = c.retainedWeight.toNat - i.weight ∧
      ∀ k, k ∈ c'.entries → k ∈ c.entries := by
  obtain ⟨front, ⟨node, key⟩, hrec⟩ : ∃ front n, c.recency = front ++ [n] :=
    ⟨_, _, (List.dropLast_append_getLast hne).symm⟩
  obtain ⟨e, he, hnode⟩ := h.home (node, key) (by simp [hrec])
  have hitem : c.item key = some ⟨key, e.value, e.weight.toNat⟩ := by simp [item, he]
  have horder : c.order = front.map Prod.snd ++ [key] := by simp [order, hrec]
  have hnodup := h.order_nodup
  rw [horder, List.nodup_append] at hnodup
  have hout : key ∉ front.map Prod.snd := fun hk => hnodup.2.2 key hk key (by simp) rfl
  let c' : PdrWeightedLruCache Key Value :=
    { c with
      retainedWeight := c.retainedWeight - e.weight
      recency := front
      entries := c.entries.erase key }
  have hevict : c.evictLeastRecent = some c' := by
    have hlast : c.recency.getLast? = some (node, key) := by simp [hrec]
    have hfront : c.recency.dropLast = front := by simp [hrec]
    rw [evictLeastRecent, hlast]
    dsimp only
    rw [he, hfront]
  have hkept : ∀ k ∈ front.map Prod.snd, c'.item k = c.item k := by
    intro k hk
    have hkey : k ≠ key := fun e => hout (e ▸ hk)
    simp only [item, c', AList.lookup_erase_ne hkey]
  have hitems : c.items = c'.items ++ [⟨key, e.value, e.weight.toNat⟩] := by
    have hown : c'.items = (front.map Prod.snd).filterMap c.item :=
      List.filterMap_congr hkept
    rw [items, horder, List.filterMap_append, hown, List.filterMap_cons_some hitem,
      List.filterMap_nil]
  have hweight := h.weight
  rw [hitems, Lru.total_append, Lru.total_cons, Lru.total_nil] at hweight
  dsimp only at hweight
  have hle : e.weight ≤ c.retainedWeight := UInt64.le_iff_toNat_le.2 (by omega)
  have hsub : (c.retainedWeight - e.weight).toNat = c.retainedWeight.toNat - e.weight.toNat :=
    UInt64.toNat_sub_of_le _ _ hle
  refine ⟨c', ⟨key, e.value, e.weight.toNat⟩, hevict, ?_, hitems, rfl,
    UInt64.le_iff_toNat_le.1 hle, hsub, fun k hk => ?_⟩
  · refine ⟨?_, ?_, ?_, ?_, ?_⟩
    · have hnodes := h.nodes
      rw [hrec, List.map_append] at hnodes
      exact (List.nodup_append.1 hnodes).1
    · exact fun n hn => h.fresh n (hrec ▸ List.mem_append_left _ hn)
    · have hperm := h.perm
      have herase := hperm.erase key
      rw [horder, List.erase_append_right _ hout] at herase
      simpa [c', order, AList.keys_erase] using herase
    · intro n hn
      obtain ⟨f, hf, hfn⟩ := h.home n (hrec ▸ List.mem_append_left _ hn)
      have hkey : n.2 ≠ key := fun e => hout (e ▸ List.mem_map_of_mem hn)
      exact ⟨f, by rw [← hf]; exact AList.lookup_erase_ne hkey, hfn⟩
    · show (c.retainedWeight - e.weight).toNat = _
      rw [hsub]
      omega
  · exact (AList.mem_erase.1 hk).2

theorem Linked.isEmpty_keys (h : c.Linked) : c.entries.keys.isEmpty = c.recency.isEmpty := by
  have hlength := h.perm.length_eq
  rw [order, List.length_map] at hlength
  cases hr : c.recency <;> cases hk : c.entries.keys <;> simp [hr, hk] at hlength ⊢

/-- The loop goes on exactly while the entries do not fit beside the new one. -/
theorem Linked.needsRoom_iff (h : c.Linked) (hmax : c.retainedWeight ≤ c.maxWeight)
    {weight : UInt64} (hw : weight ≤ c.maxWeight) :
    c.needsRoom weight = true
      ↔ c.maxWeight.toNat - weight.toNat < Lru.total c.items := by
  have hsub : (c.maxWeight - c.retainedWeight).toNat
      = c.maxWeight.toNat - c.retainedWeight.toNat := UInt64.toNat_sub_of_le _ _ hmax
  have hmax := UInt64.le_iff_toNat_le.1 hmax
  have hw := UInt64.le_iff_toNat_le.1 hw
  have hweight := h.weight
  simp only [needsRoom, Bool.and_eq_true, Bool.not_eq_true', decide_eq_true_eq,
    UInt64.lt_iff_toNat_lt, hsub, h.isEmpty_keys]
  constructor
  · rintro ⟨-, hlt⟩
    omega
  · intro hlt
    refine ⟨?_, by omega⟩
    cases hr : c.recency with
    | nil => simp [items, order, hr] at hlt
    | cons n rest => rfl

/-- The loop keeps as many recent entries as fit, and counts the others. -/
theorem makeRoom_spec (h : c.Linked) (hmax : c.retainedWeight ≤ c.maxWeight)
    {weight : UInt64} (hw : weight ≤ c.maxWeight) :
    ∃ c' evicted, c.makeRoom weight = some (c', evicted) ∧ c'.Linked ∧
      c'.items = Lru.shrink (c.maxWeight.toNat - weight.toNat) c.items ∧
      c'.maxWeight = c.maxWeight ∧ c'.items.length + evicted = c.items.length ∧
      ∀ k, k ∈ c'.entries → k ∈ c.entries := by
  induction hn : c.recency.length generalizing c with
  | zero =>
    have hnil : c.items = [] := by simp [items, order, List.length_eq_zero_iff.1 hn]
    have hno : ¬ c.needsRoom weight = true := by
      rw [h.needsRoom_iff hmax hw, hnil]
      simp
    refine ⟨c, 0, ?_, h, ?_, rfl, rfl, fun _ hk => hk⟩
    · rw [makeRoom, if_neg hno]
    · rw [hnil, Lru.shrink]
  | succ n ih =>
    by_cases hneeds : c.needsRoom weight = true
    · have hne : c.recency ≠ [] := by
        intro hnil
        simp [hnil] at hn
      obtain ⟨d, i, hevict, hd, hitems, hdmax, hile, hret, hsub⟩ := evict_spec h hne
      have hdret : d.retainedWeight ≤ d.maxWeight := by
        have hle := UInt64.le_iff_toNat_le.1 hmax
        rw [UInt64.le_iff_toNat_le, hret, hdmax]
        omega
      have hlength : d.recency.length = n := by
        have hlen := congrArg List.length hitems
        rw [h.length_items, List.length_append, hd.length_items, hn] at hlen
        simpa using hlen.symm
      obtain ⟨c', evicted, hroom, hlinked, hshrunk, hcmax, hcount, hkeys⟩ :=
        ih hd hdret (hdmax ▸ hw) hlength
      refine ⟨c', evicted + 1, ?_, hlinked, ?_, hcmax.trans hdmax, ?_, fun k hk =>
        hsub k (hkeys k hk)⟩
      · rw [makeRoom, if_pos hneeds]
        split
        · next hnone =>
          rw [hevict] at hnone
          cases hnone
        · next d' hsome =>
          rw [hevict] at hsome
          cases hsome
          rw [hroom]
          rfl
      · have hlt := (h.needsRoom_iff hmax hw).1 hneeds
        rw [hitems] at hlt ⊢
        rw [Lru.shrink_concat hlt, hshrunk, hdmax]
      · rw [hitems, List.length_append, List.length_singleton]
        omega
    · have hfits : Lru.total c.items ≤ c.maxWeight.toNat - weight.toNat :=
        Nat.le_of_not_lt fun hlt => hneeds ((h.needsRoom_iff hmax hw).2 hlt)
      refine ⟨c, 0, ?_, h, (Lru.shrink_of_fits hfits).symm, rfl, rfl, fun _ hk => hk⟩
      rw [makeRoom, if_neg hneeds]

/-- A new entry comes to the front of the recency list. -/
theorem emplace_spec (h : c.Linked) {key : Key} (hk : key ∉ c.entries) (value : Value)
    {weight : UInt64} (hw : weight.toNat + c.retainedWeight.toNat ≤ c.maxWeight.toNat) :
    (c.emplace key value weight).Linked ∧
      (c.emplace key value weight).items = ⟨key, value, weight.toNat⟩ :: c.items := by
  have hnodes : c.nextNode ∉ c.recency.map Prod.fst := by
    intro hm
    obtain ⟨n, hn, heq⟩ := List.mem_map.1 hm
    have hlt := h.fresh n hn
    omega
  have hothers : ∀ k, k ∈ c.order → k ≠ key := by
    rintro k hm rfl
    exact hk (h.mem_order.1 hm)
  have hitems : (c.emplace key value weight).items = ⟨key, value, weight.toNat⟩ :: c.items := by
    have hown : (c.emplace key value weight).item key = some ⟨key, value, weight.toNat⟩ := by
      simp [item, emplace]
    show (key :: c.order).filterMap (c.emplace key value weight).item = _
    rw [List.filterMap_cons_some hown]
    refine congrArg _ (List.filterMap_congr fun k hm => ?_)
    simp only [item, emplace, AList.lookup_insert_ne (hothers k hm)]
  refine ⟨⟨?_, ?_, ?_, ?_, ?_⟩, hitems⟩
  · exact List.nodup_cons.2 ⟨hnodes, h.nodes⟩
  · intro n hn
    rcases List.mem_cons.1 hn with rfl | hn
    · exact Nat.lt_succ_self _
    · exact Nat.lt_succ_of_lt (h.fresh n hn)
  · have herase : c.entries.keys.erase key = c.entries.keys := List.erase_of_not_mem hk
    show (key :: c.order).Perm (c.entries.insert key _).keys
    rw [AList.keys_insert, herase]
    exact h.perm.cons key
  · intro n hn
    rcases List.mem_cons.1 hn with rfl | hn
    · exact ⟨_, AList.lookup_insert _, rfl⟩
    · obtain ⟨e, he, hnode⟩ := h.home n hn
      have hne : n.2 ≠ key := hothers _ (List.mem_map_of_mem hn)
      exact ⟨e, by rw [← he]; exact AList.lookup_insert_ne hne, hnode⟩
  · have hcap := c.maxWeight.toNat_lt
    have hadd : (c.retainedWeight + weight).toNat = c.retainedWeight.toNat + weight.toNat := by
      rw [UInt64.toNat_add, Nat.mod_eq_of_lt (by omega)]
    have hweight := h.weight
    rw [hitems, Lru.total_cons]
    show (c.retainedWeight + weight).toNat = weight.toNat + _
    omega

/-! ## Runs of calls -/

/-- The state of a run: the history explains the entries. -/
structure Keeps (maxWeight : UInt64) (c : PdrWeightedLruCache Key Value)
    (t : List (Lru.Event Key Value)) : Prop where
  linked : c.Linked
  capacity : c.maxWeight = maxWeight
  follows : Lru.Follows maxWeight.toNat t c.items

variable {maxWeight : UInt64} {t : List (Lru.Event Key Value)}

theorem Keeps.retained (h : Keeps maxWeight c t) : c.retainedWeight ≤ c.maxWeight := by
  have hfits := h.follows.fits
  rw [UInt64.le_iff_toNat_le, h.capacity, h.linked.weight]
  exact hfits

theorem Keeps.stored (h : Keeps maxWeight c t) (key : Key) :
    (Lru.held c.items key).map LruItem.value = Lru.firstStored t key := h.follows.values key

/-- A use of a key, by `find` or by an `insert` that finds it. -/
theorem Keeps.use (h : Keeps maxWeight c t) {c' : PdrWeightedLruCache Key Value} {key : Key}
    (offered : Option Value) (hlinked : c'.Linked) (hitems : c'.items = Lru.touch c.items key)
    (hmax : c'.maxWeight = c.maxWeight) :
    Keeps maxWeight c'
      (⟨key, offered, (Lru.held c.items key).map LruItem.value, Lru.gone c.order c'.order⟩ :: t) := by
  have hperm : c'.order.Perm c.order := by
    rw [← hlinked.keys_items, ← h.linked.keys_items, hitems]
    exact (Lru.touch_perm key h.follows.nodup).map LruItem.key
  refine ⟨hlinked, hmax.trans h.capacity, ?_⟩
  rw [Lru.gone_of_perm hperm, hitems]
  cases hi : Lru.held c.items key with
  | none =>
    have hsame : Lru.touch c.items key = c.items := by simp [Lru.touch, hi]
    rw [hsame]
    exact h.follows.ignored key offered
  | some i => exact h.follows.touch offered hi

/-- The three ways an insertion ends. -/
theorem insert_spec (h : Keeps maxWeight c t) (key : Key) (value : Value) (weight : UInt64) :
    (c.maxWeight < weight ∧ c.insert key value weight = some (c, ⟨none, 0⟩)) ∨
      (¬ c.maxWeight < weight ∧ ∃ i c', Lru.held c.items key = some i ∧
        c.insert key value weight = some (c', ⟨some i.value, 0⟩) ∧ c'.Linked ∧
        c'.items = Lru.touch c.items key ∧ c'.maxWeight = c.maxWeight) ∨
      (¬ c.maxWeight < weight ∧ Lru.held c.items key = none ∧ ∃ c' evicted,
        c.insert key value weight = some (c', ⟨some value, evicted⟩) ∧ c'.Linked ∧
        c'.items = ⟨key, value, weight.toNat⟩
          :: Lru.shrink (c.maxWeight.toNat - weight.toNat) c.items ∧
        c'.maxWeight = c.maxWeight ∧ c'.items.length + evicted = c.items.length + 1) := by
  by_cases hw : c.maxWeight < weight
  · exact Or.inl ⟨hw, if_pos hw⟩
  obtain ⟨d, hfind, hlinked, htouch, hmax, hentries⟩ := find_spec h.linked key
  have hle : weight ≤ c.maxWeight := UInt64.not_lt.1 hw
  cases hi : Lru.held c.items key with
  | some i =>
    rw [hi] at hfind
    refine Or.inr (Or.inl ⟨hw, i, d, rfl, ?_, hlinked, htouch, hmax⟩)
    rw [insert, if_neg hw, hfind]
    rfl
  | none =>
    have hsame : Lru.touch c.items key = c.items := by simp [Lru.touch, hi]
    rw [hsame] at htouch
    rw [hi] at hfind
    have hdret : d.retainedWeight ≤ d.maxWeight := by
      have hle := UInt64.le_iff_toNat_le.1 h.retained
      rw [UInt64.le_iff_toNat_le, hlinked.weight, htouch, hmax, ← h.linked.weight]
      exact hle
    obtain ⟨c', evicted, hroom, hlinked', hshrunk, hmax', hcount, hsub⟩ :=
      makeRoom_spec hlinked hdret (hmax ▸ hle)
    have hout : key ∉ c'.entries := by
      intro hk
      have hkd := hlinked.mem_order.2 (hsub key hk)
      rw [← hlinked.keys_items, htouch] at hkd
      exact Lru.held_eq_none.1 hi hkd
    have hshrink := Lru.total_shrink_le (d.maxWeight.toNat - weight.toNat) d.items
    rw [← hshrunk, ← hlinked'.weight] at hshrink
    have hle := UInt64.le_iff_toNat_le.1 hle
    obtain ⟨hnew, hitems⟩ := @emplace_spec _ _ _ _ hlinked' _ hout value weight (by
      rw [hmax', hmax] at *
      omega)
    refine Or.inr (Or.inr ⟨hw, rfl, c'.emplace key value weight, evicted, ?_, hnew, ?_,
      hmax'.trans hmax, ?_⟩)
    · rw [insert, if_neg hw, hfind]
      simp [hroom]
    · rw [hitems, hshrunk, htouch, hmax]
    · rw [hitems, List.length_cons, ← htouch]
      omega

/-- One call is defined and keeps the state explained. -/
theorem record_keeps (h : Keeps maxWeight c t) (request : LruCall Key Value) :
    ∃ s, record (c, t) request = some s ∧ Keeps maxWeight s.1 s.2 := by
  cases request with
  | find key =>
    obtain ⟨c', hfind, hlinked, hitems, hmax, -⟩ := find_spec h.linked key
    refine ⟨(c', _), ?_, h.use none hlinked hitems hmax⟩
    simp [record, call, hfind, eventOf]
  | insert key value weight =>
    rcases insert_spec h key value weight with
      ⟨-, hinsert⟩ | ⟨-, i, c', hi, hinsert, hlinked, hitems, hmax⟩ |
        ⟨hw, hi, c', evicted, hinsert, hlinked, hitems, hmax, -⟩
    · refine ⟨(c, ⟨key, some value, none, []⟩ :: t), ?_, h.linked, h.capacity,
        h.follows.ignored key _⟩
      have hgone := Lru.gone_of_perm (List.Perm.refl c.order)
      simp [record, call, hinsert, eventOf, hgone]
    · have huse := h.use (some value) hlinked hitems hmax
      rw [hi] at huse
      refine ⟨(c', _), ?_, huse⟩
      simp [record, call, hinsert, eventOf]
    · have hle := UInt64.le_iff_toNat_le.1 (UInt64.not_lt.1 hw)
      rw [h.capacity] at hle hitems
      have hadd := h.follows.add (i := ⟨key, value, weight.toNat⟩) (Lru.held_eq_none.1 hi) hle
      refine ⟨(c', ⟨key, some value, some value, Lru.gone c.order c'.order⟩ :: t), ?_, hlinked,
        hmax.trans h.capacity, ?_⟩
      · simp [record, call, hinsert, eventOf]
      · rw [← h.linked.keys_items, ← hlinked.keys_items, hitems]
        exact hadd

theorem runCalls_keeps (maxWeight : UInt64) (calls : List (LruCall Key Value)) :
    ∃ s, runCalls maxWeight calls = some s ∧ Keeps maxWeight s.1 s.2 := by
  have hstart : Keeps maxWeight (empty maxWeight : PdrWeightedLruCache Key Value) [] :=
    ⟨empty_linked maxWeight, rfl, Lru.Follows.nil⟩
  have hrun : ∀ (calls : List (LruCall Key Value)) (c : PdrWeightedLruCache Key Value)
      (t : List (Lru.Event Key Value)), Keeps maxWeight c t →
      ∃ s, calls.foldlM record (c, t) = some s ∧ Keeps maxWeight s.1 s.2 := by
    intro calls
    induction calls with
    | nil => exact fun c t h => ⟨(c, t), rfl, h⟩
    | cons request calls ih =>
      intro c t h
      obtain ⟨s, hrecord, hs⟩ := record_keeps h request
      obtain ⟨s', hrest, hs'⟩ := ih s.1 s.2 hs
      refine ⟨s', ?_, hs'⟩
      rw [List.foldlM_cons, hrecord]
      exact hrest
  exact hrun calls _ _ hstart

/-! ## What holds after any run -/

/-- The weight stored for some keys. -/
def storedWeight (c : PdrWeightedLruCache Key Value) (keys : List Key) : Nat :=
  (keys.map fun key => match c.entries.lookup key with
    | some e => e.weight.toNat
    | none => 0).sum

/-- One step of the eviction loop for an entry of weight `weight`. -/
def Evicts (weight : UInt64) (c c' : PdrWeightedLruCache Key Value) : Prop :=
  c.needsRoom weight = true ∧ c.evictLeastRecent = some c'

/-- An insertion drops entries from the end of the recency order, and no more than it has to:
with one more kept, the new entry would not fit. -/
def EvictsAsNeeded (c c' : PdrWeightedLruCache Key Value) (key : Key) (weight : UInt64)
    (evicted : Nat) : Prop :=
  if c.maxWeight < weight ∨ key ∈ c.entries then evicted = 0 ∧ c'.order.Perm c.order
  else ∃ kept dropped, c.order = kept ++ dropped ∧ c'.order = key :: kept ∧
    evicted = dropped.length ∧ ∀ m, kept.length < m → m ≤ c.order.length →
      c.maxWeight.toNat < weight.toNat + c.storedWeight (c.order.take m)

structure Exact (maxWeight : UInt64) (c : PdrWeightedLruCache Key Value)
    (t : List (Lru.Event Key Value)) : Prop where
  permutation : c.order.Perm c.entries.keys
  used : ∀ key ∈ c.order, key ∈ Lru.uses t
  lastUse : c.order.Pairwise fun a b => (Lru.uses t).idxOf a < (Lru.uses t).idxOf b
  retained : c.retainedWeight.toNat = (c.entries.entries.map fun e => e.2.weight.toNat).sum
  capacity : c.retainedWeight ≤ maxWeight
  noWrap : ∀ weight ≤ maxWeight, ∀ d, Relation.ReflTransGen (Evicts weight) c d →
    d.retainedWeight ≤ d.maxWeight ∧ ∀ n e, d.recency.getLast? = some n →
      d.entries.lookup n.2 = some e → e.weight ≤ d.retainedWeight
  inserts : ∀ key value weight, ∃ c' evicted,
    c.insert key value weight = some (c',
      ⟨if maxWeight < weight then none else some ((Lru.firstStored t key).getD value), evicted⟩) ∧
    EvictsAsNeeded c c' key weight evicted
  found : ∀ key, ∃ c', c.find key = some (c', Lru.firstStored t key)

theorem total_filterMap_item (c : PdrWeightedLruCache Key Value) (keys : List Key) :
    Lru.total (keys.filterMap c.item) = c.storedWeight keys := by
  induction keys with
  | nil => rfl
  | cons key keys ih =>
    unfold storedWeight at ih ⊢
    rw [List.map_cons, List.sum_cons, ← ih]
    cases he : c.entries.lookup key with
    | none => simp [item, he]
    | some e => simp [item, he]

theorem Linked.take_items (h : c.Linked) (m : Nat) :
    c.items.take m = (c.order.take m).filterMap c.item := by
  have hall : ∀ k ∈ c.order, ∃ i, c.item k = some i := fun _ hk => h.item_some hk
  unfold items
  generalize c.order = keys at hall
  induction keys generalizing m with
  | nil => simp
  | cons key keys ih =>
    obtain ⟨i, hi⟩ := hall key List.mem_cons_self
    cases m with
    | zero => simp
    | succ m =>
      rw [List.take_succ_cons, List.filterMap_cons_some hi, List.filterMap_cons_some hi,
        List.take_succ_cons, ih m fun k hk => hall k (List.mem_cons_of_mem _ hk)]

/-- The states of the eviction loop are linked and within the capacity. -/
theorem evicting_linked (h : c.Linked) (hmax : c.retainedWeight ≤ c.maxWeight) {weight : UInt64}
    {d : PdrWeightedLruCache Key Value} (hd : Relation.ReflTransGen (Evicts weight) c d) :
    d.Linked ∧ d.retainedWeight ≤ d.maxWeight := by
  induction hd with
  | refl => exact ⟨h, hmax⟩
  | tail _ hstep ih =>
    obtain ⟨hlinked, hle⟩ := ih
    obtain ⟨-, hevict⟩ := hstep
    have hne : ∀ {a b : PdrWeightedLruCache Key Value}, a.evictLeastRecent = some b →
        a.recency ≠ [] := by
      intro a b hab hnil
      simp [evictLeastRecent, hnil] at hab
    obtain ⟨d', i, hd', hlinked', -, hmax', -, hret, -⟩ := evict_spec hlinked (hne hevict)
    rw [hevict] at hd'
    cases hd'
    refine ⟨hlinked', ?_⟩
    have hle := UInt64.le_iff_toNat_le.1 hle
    rw [UInt64.le_iff_toNat_le, hret, hmax']
    omega

theorem Linked.weight_le (h : c.Linked) {key : Key} {e : LruEntry Value}
    (he : c.entries.lookup key = some e) : e.weight ≤ c.retainedWeight := by
  have hmem : (⟨key, e⟩ : Sigma fun _ : Key => LruEntry Value) ∈ c.entries.entries :=
    AList.mem_lookup_iff.1 he
  rw [UInt64.le_iff_toNat_le, h.stored_weight]
  exact List.single_le_sum (fun _ _ => Nat.zero_le _) _
    (List.mem_map_of_mem (f := fun e : Sigma fun _ : Key => LruEntry Value => e.2.weight.toNat) hmem)

theorem Keeps.evictsAsNeeded (h : Keeps maxWeight c t) (key : Key) (value : Value)
    (weight : UInt64) : ∃ c' evicted,
      c.insert key value weight = some (c',
        ⟨if maxWeight < weight then none else some ((Lru.firstStored t key).getD value),
          evicted⟩) ∧
      EvictsAsNeeded c c' key weight evicted := by
  have hstored := h.stored key
  rcases insert_spec h key value weight with
    ⟨hw, hinsert⟩ | ⟨hw, i, c', hi, hinsert, hlinked, hitems, hmax⟩ |
      ⟨hw, hi, c', evicted, hinsert, hlinked, hitems, hmax, hcount⟩
  · refine ⟨c, 0, ?_, ?_⟩
    · rw [hinsert, ← h.capacity, if_pos hw]
    · rw [EvictsAsNeeded, if_pos (Or.inl hw)]
      exact ⟨rfl, List.Perm.refl _⟩
  · rw [hi] at hstored
    refine ⟨c', 0, ?_, ?_⟩
    · rw [hinsert, ← h.capacity, if_neg hw, ← hstored]
      rfl
    · have hk : key ∈ c.entries := by
        by_contra hn
        rw [← h.linked.mem_order, ← h.linked.keys_items] at hn
        rw [Lru.held_eq_none.2 hn] at hi
        cases hi
      rw [EvictsAsNeeded, if_pos (Or.inr hk)]
      refine ⟨rfl, ?_⟩
      rw [← hlinked.keys_items, ← h.linked.keys_items, hitems]
      exact (Lru.touch_perm key h.follows.nodup).map LruItem.key
  · rw [hi] at hstored
    have hk : key ∉ c.entries := by
      rw [← h.linked.mem_order, ← h.linked.keys_items]
      exact Lru.held_eq_none.1 hi
    refine ⟨c', evicted, ?_, ?_⟩
    · rw [hinsert, ← h.capacity, if_neg hw, ← hstored]
      rfl
    · obtain ⟨dropped, hsplit⟩ := Lru.shrink_isPrefix (c.maxWeight.toNat - weight.toNat) c.items
      have horder := h.linked.keys_items
      rw [EvictsAsNeeded, if_neg (not_or.2 ⟨hw, hk⟩)]
      refine ⟨Lru.keys (Lru.shrink (c.maxWeight.toNat - weight.toNat) c.items),
        Lru.keys dropped, ?_, ?_, ?_, ?_⟩
      · have hmap := congrArg Lru.keys hsplit
        rw [horder, Lru.keys, List.map_append] at hmap
        exact hmap.symm
      · rw [← hlinked.keys_items, hitems, Lru.keys_cons]
      · have hlen := congrArg List.length hsplit
        rw [List.length_append] at hlen
        rw [hitems, List.length_cons] at hcount
        simp only [Lru.keys, List.length_map]
        omega
      · intro m hm hle
        have hlen : c.order.length = c.items.length := by
          rw [← horder]
          exact List.length_map _
        have hroom := @Lru.shrink_maximal _ _ (c.maxWeight.toNat - weight.toNat) _ _
          (by simpa [Lru.keys] using hm) (hlen ▸ hle)
        rw [h.linked.take_items, total_filterMap_item] at hroom
        omega

/-- After any sequence of calls, none of which meets undefined behaviour, the recency list is
the stored keys in the order of their last use, the retained weight is the sum of the stored
weights and within the capacity, insertions evict the least recently used entries as far as
they have to, and a key has the value that its first insertion since its last eviction stored. -/
theorem weightedLru_exact (maxWeight : UInt64) (calls : List (LruCall Key Value)) :
    ∃ c t, runCalls maxWeight calls = some (c, t) ∧ Exact maxWeight c t := by
  obtain ⟨⟨c, t⟩, hrun, h⟩ := runCalls_keeps maxWeight calls
  have hordered := h.follows.ordered
  have hused := h.follows.used
  rw [h.linked.keys_items] at hordered hused
  refine ⟨c, t, hrun, h.linked.perm, hused, hordered, h.linked.stored_weight,
    h.capacity ▸ h.retained, ?_, h.evictsAsNeeded, ?_⟩
  · intro weight _ d hd
    obtain ⟨hlinked, hle⟩ := evicting_linked h.linked h.retained hd
    exact ⟨hle, fun _ _ _ he => hlinked.weight_le he⟩
  · intro key
    obtain ⟨c', hfind, -⟩ := find_spec h.linked key
    exact ⟨c', by rw [hfind, h.stored key]⟩

end PdrWeightedLruCache
end KeplerFormal
