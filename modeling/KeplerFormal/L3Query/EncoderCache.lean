import KeplerFormal.Core.Probing
import KeplerFormal.L3Query.FormulaEncoder

/-!
# The node cache of the frame encoder (`src/sec/kinduction/SatEncoding.cpp`)

The encoder keeps the literals of all nodes in a flat table with open addressing. The number of
buckets is a power of two, and a table that would be more than a quarter full is replaced.

* `CacheInv`: the table has room and every node is met; `CacheInv.probe_ends`: no search is
  endless.
* `reserveNodeCacheSlots_spec`: a table that grows finds what it found before.
* `find_cacheEncodedLiteral`: caching a literal changes what is found for its node only.
-/
namespace KeplerFormal.SatEncoding

open Core

/-! ## The cache -/

/-- `nodeToLit_` and its counters. A slot without a node is free; no literal is 0, so that the 0
of a missing entry is `none`. -/
structure NodeCache where
  nodeToLit : ProbeTable BoolExpr (Lit Nat) := []
  nodeToLitMask : Nat := 0
  nodeToLitSize : Nat := 0
  nodeMapReservedEntries : Nat := 0

def kNodeCacheBucketMultiplier : Nat := 4

def doubleUntil (minBuckets : Nat) : Nat → Nat → Nat
  | 0, bucketCount => bucketCount
  | fuel + 1, bucketCount =>
    if bucketCount < minBuckets then doubleUntil minBuckets fuel (bucketCount <<< 1)
    else bucketCount

/-- The loop ends before its bound, see `le_nodeCacheBucketCountFor`.
mirrors src/sec/kinduction/SatEncoding.cpp:282-293 -/
def nodeCacheBucketCountFor (desiredEntries : Nat) : Nat :=
  let minBuckets := max (desiredEntries * kNodeCacheBucketMultiplier) 16
  doubleUntil minBuckets minBuckets 16

namespace NodeCache

def wrap (c : NodeCache) (slot : Nat) : Nat := slot &&& c.nodeToLitMask

section Operations
variable (hash : BoolExpr → Nat)

/-- mirrors src/sec/kinduction/SatEncoding.cpp:344-360 -/
def findCachedLiteral (node : BoolExpr) (c : NodeCache) : Option (Lit Nat) :=
  c.nodeToLit.find hash c.wrap node

/-- mirrors src/sec/kinduction/SatEncoding.cpp:320-342 -/
def insertCachedLiteral (node : BoolExpr) (lit : Lit Nat) (c : NodeCache) : NodeCache :=
  { c with
    nodeToLit := c.nodeToLit.insert hash c.wrap node lit
    nodeToLitSize :=
      if (c.findCachedLiteral hash node).isSome then c.nodeToLitSize else c.nodeToLitSize + 1 }

/-- A table of its own for `desiredEntries`, with the old entries in it.
mirrors src/sec/kinduction/SatEncoding.cpp:299-318 -/
def reserveNodeCacheSlots (desiredEntries : Nat) (c : NodeCache) : NodeCache :=
  if desiredEntries ≤ c.nodeMapReservedEntries then c
  else
    let buckets := nodeCacheBucketCountFor desiredEntries
    c.nodeToLit.entries.foldl (fun c entry => c.insertCachedLiteral hash entry.1 entry.2)
      { nodeToLit := ProbeTable.empty buckets
        nodeToLitMask := buckets - 1
        nodeToLitSize := 0
        nodeMapReservedEntries := buckets / kNodeCacheBucketMultiplier }

/-- mirrors src/sec/kinduction/SatEncoding.cpp:423-438 -/
def cacheEncodedLiteral (node : BoolExpr) (lit : Lit Nat) (c : NodeCache) : NodeCache :=
  let desiredEntries := c.nodeToLitSize + 1
  let c := if c.nodeMapReservedEntries < desiredEntries then
      c.reserveNodeCacheSlots hash (desiredEntries + max (desiredEntries / 2) 4096)
    else c
  c.insertCachedLiteral hash node lit

/-- The table of a new encoder.
mirrors src/sec/kinduction/SatEncoding.cpp:387-421 -/
def reserveNodeCache (leafCount expectedNodeHint : Nat) : NodeCache :=
  let expectedNodes := max 256 (min (leafCount * 4) 65536)
  let expectedNodes :=
    if expectedNodeHint ≠ 0 then
      max expectedNodes (min (expectedNodeHint + max (expectedNodeHint / 8) 256) 1048576)
    else expectedNodes
  reserveNodeCacheSlots hash expectedNodes {}

end Operations
end NodeCache

/-! ### Sizes -/

theorem doubleUntil_pow {minBuckets fuel k : Nat} :
    ∃ m, doubleUntil minBuckets fuel (2 ^ k) = 2 ^ (k + m) := by
  induction fuel generalizing k with
  | zero => exact ⟨0, rfl⟩
  | succ fuel ih =>
    unfold doubleUntil
    split
    · obtain ⟨m, hm⟩ := ih (k := k + 1)
      refine ⟨m + 1, ?_⟩
      rw [Nat.shiftLeft_eq, ← Nat.pow_add, hm]
      congr 1
      omega
    · exact ⟨0, rfl⟩

theorem le_doubleUntil {minBuckets fuel bucketCount : Nat}
    (h : minBuckets ≤ bucketCount * 2 ^ fuel) :
    minBuckets ≤ doubleUntil minBuckets fuel bucketCount := by
  induction fuel generalizing bucketCount with
  | zero => simpa [doubleUntil] using h
  | succ fuel ih =>
    unfold doubleUntil
    split
    · refine ih ?_
      rwa [Nat.shiftLeft_eq, Nat.mul_assoc, ← Nat.pow_add, Nat.add_comm]
    · next hle => exact Nat.le_of_not_lt hle

theorem nodeCacheBucketCountFor_pow (desiredEntries : Nat) :
    ∃ m, nodeCacheBucketCountFor desiredEntries = 2 ^ (4 + m) := doubleUntil_pow (k := 4)

/-- The table has four buckets for each entry that it was made for. -/
theorem le_nodeCacheBucketCountFor (desiredEntries : Nat) :
    desiredEntries * 4 ≤ nodeCacheBucketCountFor desiredEntries := by
  have hloop : max (desiredEntries * 4) 16 ≤ nodeCacheBucketCountFor desiredEntries := by
    refine le_doubleUntil ?_
    have hpow : max (desiredEntries * 4) 16 < 2 ^ max (desiredEntries * 4) 16 :=
      Nat.lt_two_pow_self
    show max (desiredEntries * 4) 16 ≤ 16 * 2 ^ max (desiredEntries * 4) 16
    omega
  exact (Nat.le_max_left _ _).trans hloop

namespace NodeCache
variable {hash : BoolExpr → Nat} {c : NodeCache}

/-! ### The invariant -/

structure CacheInv (hash : BoolExpr → Nat) (c : NodeCache) : Prop where
  buckets : ∃ k, c.nodeToLit.length = 2 ^ (4 + k)
  mask : c.nodeToLitMask = c.nodeToLit.length - 1
  settled : ProbeTable.Settled hash c.nodeToLit
  size : c.nodeToLitSize = c.nodeToLit.used
  reserved : c.nodeMapReservedEntries = c.nodeToLit.length / 4
  room : c.nodeToLit.used ≤ c.nodeMapReservedEntries

theorem wrap_eq {k : Nat} (hmask : c.nodeToLitMask = 2 ^ k - 1) (slot : Nat) :
    c.wrap slot = slot % 2 ^ k := by
  rw [wrap, hmask, Nat.and_two_pow_sub_one_eq_mod]

theorem CacheInv.wrap_eq (h : CacheInv hash c) (slot : Nat) :
    c.wrap slot = slot % c.nodeToLit.length := by
  obtain ⟨k, hk⟩ := h.buckets
  have hmask := h.mask
  rw [hk] at hmask ⊢
  exact NodeCache.wrap_eq hmask slot

theorem CacheInv.free (h : CacheInv hash c) : c.nodeToLit.used < c.nodeToLit.length := by
  obtain ⟨k, hk⟩ := h.buckets
  have hpos : 0 < c.nodeToLit.length := hk ▸ Nat.two_pow_pos _
  have hroom := h.room
  rw [h.reserved] at hroom
  omega

/-- Every search ends, with any bound from the number of buckets on, at one slot. -/
theorem CacheInv.probe_ends (h : CacheInv hash c) (node : BoolExpr) :
    ∃ slot < c.nodeToLit.length, ∀ fuel, c.nodeToLit.length ≤ fuel →
      c.nodeToLit.probe c.wrap node fuel (c.wrap (hash node)) = some slot := by
  obtain ⟨m, hm, hfirst⟩ := ProbeTable.exists_first hash node h.free
  exact ⟨_, Nat.mod_lt _ (Nat.zero_lt_of_lt h.free),
    fun fuel hfuel => ProbeTable.probe_first h.wrap_eq hm hfirst hfuel⟩

theorem CacheInv.find_iff (h : CacheInv hash c) {node : BoolExpr} {lit : Lit Nat} :
    c.findCachedLiteral hash node = some lit ↔ ProbeTable.Holds c.nodeToLit node lit :=
  ProbeTable.find_iff h.wrap_eq h.settled h.free

theorem CacheInv.not_holds (h : CacheInv hash c) {node : BoolExpr}
    (hnew : c.findCachedLiteral hash node = none) (lit : Lit Nat) :
    ¬ ProbeTable.Holds c.nodeToLit node lit := by
  rw [← h.find_iff, hnew]
  exact fun h => nomatch h

/-! ### Insertion -/

/-- A new node in a table that has a place reserved for it. -/
theorem insertCachedLiteral_spec (h : CacheInv hash c) {node : BoolExpr} {lit : Lit Nat}
    (hnew : c.findCachedLiteral hash node = none)
    (hroom : c.nodeToLitSize + 1 ≤ c.nodeMapReservedEntries) :
    CacheInv hash (c.insertCachedLiteral hash node lit) ∧
      ∀ other, (c.insertCachedLiteral hash node lit).findCachedLiteral hash other =
        if other = node then some lit else c.findCachedLiteral hash other := by
  have hlength : (c.nodeToLit.insert hash c.wrap node lit).length = c.nodeToLit.length :=
    ProbeTable.length_insert
  have hused : (c.nodeToLit.insert hash c.wrap node lit).used = c.nodeToLit.used + 1 :=
    ProbeTable.used_insert h.wrap_eq h.settled h.free (h.not_holds hnew)
  have hsize : (c.insertCachedLiteral hash node lit).nodeToLitSize = c.nodeToLitSize + 1 := by
    rw [insertCachedLiteral, hnew]
    rfl
  have hroom' := hroom
  rw [h.size] at hroom'
  refine ⟨⟨?_, ?_, ?_, ?_, ?_, ?_⟩, fun other => ?_⟩
  · exact hlength ▸ h.buckets
  · exact h.mask.trans (by rw [insertCachedLiteral, hlength])
  · exact ProbeTable.insert_settled h.wrap_eq h.settled h.free
  · rw [hsize, h.size]
    exact hused.symm
  · exact h.reserved.trans (by rw [insertCachedLiteral, hlength])
  · exact hused ▸ hroom'
  · refine ProbeTable.find_insert h.wrap_eq h.settled h.free ?_ other
    have hpos := h.free
    have hreserved := h.reserved
    rw [hused]
    omega

theorem size_insertCachedLiteral {node : BoolExpr} {lit : Lit Nat}
    (hnew : c.findCachedLiteral hash node = none) :
    (c.insertCachedLiteral hash node lit).nodeToLitSize = c.nodeToLitSize + 1 := by
  rw [insertCachedLiteral, hnew]
  rfl

/-- New nodes, one after the other, in a table that has places reserved for all. -/
theorem foldl_insert_spec (entries : List (BoolExpr × Lit Nat)) {c : NodeCache}
    (h : CacheInv hash c) (hroom : c.nodeToLitSize + entries.length ≤ c.nodeMapReservedEntries)
    (hkeys : (entries.map Prod.fst).Nodup)
    (hnew : ∀ entry ∈ entries, c.findCachedLiteral hash entry.1 = none) :
    let c' := entries.foldl (fun c entry => c.insertCachedLiteral hash entry.1 entry.2) c
    CacheInv hash c' ∧ c'.nodeToLitSize = c.nodeToLitSize + entries.length ∧
      c'.nodeMapReservedEntries = c.nodeMapReservedEntries ∧
      ∀ node lit, c'.findCachedLiteral hash node = some lit ↔
        (node, lit) ∈ entries ∨ c.findCachedLiteral hash node = some lit := by
  induction entries generalizing c with
  | nil => exact ⟨h, rfl, rfl, fun node lit => by simp⟩
  | cons entry entries ih =>
    rw [List.length_cons] at hroom
    obtain ⟨hhead, htail⟩ := List.nodup_cons.mp hkeys
    have hentry := hnew entry List.mem_cons_self
    obtain ⟨hinv, hfind⟩ := @insertCachedLiteral_spec hash c h entry.1 entry.2 hentry (by omega)
    have hsize := @size_insertCachedLiteral hash c entry.1 entry.2 hentry
    obtain ⟨hinv', hsize', hreserved, hall⟩ := ih hinv (by rw [hsize]; exact hroom.trans' (by omega))
      htail fun other hother => by
        rw [hfind, if_neg fun hsame => hhead (List.mem_map.mpr ⟨other, hother, hsame⟩)]
        exact hnew other (List.mem_cons_of_mem _ hother)
    refine ⟨hinv', ?_, hreserved, fun node lit => ?_⟩
    · rw [List.foldl_cons, hsize', hsize, List.length_cons]
      omega
    · rw [List.foldl_cons, hall, hfind, List.mem_cons]
      have hself : (node, lit) = entry ↔ node = entry.1 ∧ lit = entry.2 := Prod.ext_iff
      rw [hself]
      by_cases hsame : node = entry.1
      · subst hsame
        rw [if_pos rfl, hentry]
        simp [eq_comm]
        tauto
      · rw [if_neg hsame]
        simp [hsame]

/-! ### Growth -/

/-- An empty table for `desiredEntries`. -/
def fresh (desiredEntries : Nat) : NodeCache where
  nodeToLit := ProbeTable.empty (nodeCacheBucketCountFor desiredEntries)
  nodeToLitMask := nodeCacheBucketCountFor desiredEntries - 1
  nodeToLitSize := 0
  nodeMapReservedEntries :=
    nodeCacheBucketCountFor desiredEntries / kNodeCacheBucketMultiplier

theorem fresh_inv (desiredEntries : Nat) : CacheInv hash (fresh desiredEntries) := by
  have hlength : (fresh desiredEntries).nodeToLit.length =
      nodeCacheBucketCountFor desiredEntries := List.length_replicate
  have hused : (fresh desiredEntries).nodeToLit.used = 0 := ProbeTable.used_empty _
  obtain ⟨m, hm⟩ := nodeCacheBucketCountFor_pow desiredEntries
  refine ⟨⟨m, by rw [hlength, hm]⟩, by rw [hlength]; rfl, ProbeTable.settled_empty _, hused.symm,
    by rw [hlength]; rfl, ?_⟩
  rw [hused]
  exact Nat.zero_le _

theorem find_fresh (desiredEntries : Nat) (node : BoolExpr) :
    (fresh desiredEntries).findCachedLiteral hash node = none := by
  cases hfind : (fresh desiredEntries).findCachedLiteral hash node with
  | none => rfl
  | some lit => exact absurd ((fresh_inv desiredEntries).find_iff.mp hfind) ProbeTable.holds_empty

theorem le_reserved_fresh (desiredEntries : Nat) :
    desiredEntries ≤ (fresh desiredEntries).nodeMapReservedEntries := by
  have hle := le_nodeCacheBucketCountFor desiredEntries
  show desiredEntries ≤ nodeCacheBucketCountFor desiredEntries / 4
  omega

theorem reserve_eq {desiredEntries : Nat} (h : ¬ desiredEntries ≤ c.nodeMapReservedEntries) :
    c.reserveNodeCacheSlots hash desiredEntries = c.nodeToLit.entries.foldl
      (fun c entry => c.insertCachedLiteral hash entry.1 entry.2) (fresh desiredEntries) := if_neg h

/-- A table that grows finds what it found before. -/
theorem reserveNodeCacheSlots_spec (h : CacheInv hash c) (desiredEntries : Nat) :
    let c' := c.reserveNodeCacheSlots hash desiredEntries
    CacheInv hash c' ∧ desiredEntries ≤ c'.nodeMapReservedEntries ∧
      c'.nodeToLitSize = c.nodeToLitSize ∧
      ∀ node, c'.findCachedLiteral hash node = c.findCachedLiteral hash node := by
  by_cases hle : desiredEntries ≤ c.nodeMapReservedEntries
  · rw [reserveNodeCacheSlots, if_pos hle]
    exact ⟨h, hle, rfl, fun _ => rfl⟩
  · rw [reserve_eq hle]
    have hroom := h.room
    have hreserved := le_reserved_fresh desiredEntries
    obtain ⟨hinv, hsize, hsame, hfind⟩ := foldl_insert_spec c.nodeToLit.entries
      (fresh_inv desiredEntries)
      (by rw [ProbeTable.length_entries]; show 0 + _ ≤ _; omega)
      (ProbeTable.nodup_entries h.settled) fun entry _ => find_fresh desiredEntries entry.1
    refine ⟨hinv, hsame ▸ hreserved, ?_, fun node => Option.ext fun lit => ?_⟩
    · rw [hsize, ProbeTable.length_entries, h.size]
      exact Nat.zero_add _
    · rw [hfind, find_fresh, ProbeTable.mem_entries, h.find_iff]
      exact or_iff_left fun hnone => nomatch hnone

theorem reserveNodeCache_inv (leafCount expectedNodeHint : Nat) :
    CacheInv hash (reserveNodeCache hash leafCount expectedNodeHint) ∧
      ∀ node, (reserveNodeCache hash leafCount expectedNodeHint).findCachedLiteral hash node =
        none := by
  have hstart : ∀ desired, 0 < desired →
      reserveNodeCacheSlots hash desired {} = fresh desired := fun desired hpos =>
    reserve_eq (c := {}) (Nat.not_le.mpr hpos)
  unfold reserveNodeCache
  dsimp only
  rw [hstart _ (by split <;> omega)]
  exact ⟨fresh_inv _, find_fresh _⟩

/-- A literal that is cached is found, and so is everything that was found before. -/
theorem find_cacheEncodedLiteral (h : CacheInv hash c) {node : BoolExpr}
    (hnew : c.findCachedLiteral hash node = none) (lit : Lit Nat) :
    CacheInv hash (c.cacheEncodedLiteral hash node lit) ∧
      ∀ other, (c.cacheEncodedLiteral hash node lit).findCachedLiteral hash other =
        if other = node then some lit else c.findCachedLiteral hash other := by
  unfold cacheEncodedLiteral
  dsimp only
  split
  · obtain ⟨hinv, hreserved, hsize, hfind⟩ := reserveNodeCacheSlots_spec h
      (c.nodeToLitSize + 1 + max ((c.nodeToLitSize + 1) / 2) 4096)
    obtain ⟨hinv', hfind'⟩ := insertCachedLiteral_spec hinv ((hfind node).trans hnew)
      (by rw [hsize]; exact Nat.le_trans (Nat.le_add_right _ _) hreserved)
    exact ⟨hinv', fun other => by rw [hfind', hfind]⟩
  · next hroom => exact insertCachedLiteral_spec h hnew (Nat.le_of_not_lt hroom)

end NodeCache

end KeplerFormal.SatEncoding
