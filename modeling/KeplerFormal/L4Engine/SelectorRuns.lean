import KeplerFormal.L4Engine.SelectorCache

/-!
# Selectors after any sequence of calls (`src/sec/pdr/PDREngine.cpp`)

* `Consistent.retireBack`, `Consistent.evict`: eviction keeps the cache consistent.
* `bounded_inductive`: after every sequence of calls the cache is consistent and within
  its limit.
* `q2SelectorFor_enabled_iff`: the returned selector is enabled unless a status-only
  clause is inserted into a cache that blocking clauses fill; `q2SelectorFor_disabled`
  is such a run.
-/
namespace KeplerFormal

open Core

namespace PredecessorAssumptionSolver

/-! ## Eviction -/

theorem mem_dropLast_of_nodup {α : Type} {l : List α} {e : α} (hl : l.Nodup)
    (hlast : l.getLast? = some e) (x : α) : x ∈ l.dropLast ↔ x ∈ l ∧ x ≠ e := by
  have hsplit : l = l.dropLast ++ [e] := (List.dropLast_append_getLast? e hlast).symm
  rw [hsplit, List.nodup_append] at hl
  constructor
  · intro hx
    exact ⟨List.dropLast_subset l hx, hl.2.2 x hx e (by simp)⟩
  · rintro ⟨hx, hne⟩
    rw [hsplit, List.mem_append, List.mem_singleton] at hx
    exact hx.resolve_right hne

/-- The recency list that `retireBack` shortens. -/
def recency (st : PredecessorAssumptionSolver) (statusOnly : Bool) : List StateClause :=
  if statusOnly then st.q2StatusSelectorRecency else st.q2BlockingSelectorRecency

theorem Consistent.mem_recency {st : PredecessorAssumptionSolver} (h : st.Consistent)
    {statusOnly : Bool} {e : StateClause} (he : e ∈ st.recency statusOnly) :
    ∃ entry, st.q2SelectorByExclusionClause.lookup e = some entry ∧
      entry.blockingQuery = !statusOnly := by
  cases statusOnly with
  | true => exact (h.status e).mp he
  | false => exact (h.blocking e).mp he

theorem retireBack_eq {st : PredecessorAssumptionSolver} {statusOnly : Bool} {e : StateClause}
    {entry : Q2SelectorCacheEntry} (hlast : (st.recency statusOnly).getLast? = some e)
    (he : st.q2SelectorByExclusionClause.lookup e = some entry) :
    st.retireBack statusOnly =
      { st with
        clauses := [entry.selector.neg] :: st.clauses
        q2SelectorByExclusionClause := st.q2SelectorByExclusionClause.erase e
        q2BlockingSelectorRecency := if statusOnly then st.q2BlockingSelectorRecency
          else st.q2BlockingSelectorRecency.dropLast
        q2StatusSelectorRecency := if statusOnly then st.q2StatusSelectorRecency.dropLast
          else st.q2StatusSelectorRecency } := by
  unfold recency at hlast
  unfold retireBack
  cases statusOnly <;> simp_all

theorem Consistent.retireBack {st : PredecessorAssumptionSolver} (h : st.Consistent)
    (statusOnly : Bool) : (st.retireBack statusOnly).Consistent := by
  cases hlast : (st.recency statusOnly).getLast? with
  | none =>
    have hsame : st.retireBack statusOnly = st := by
      unfold recency at hlast
      unfold PredecessorAssumptionSolver.retireBack
      simp only [hlast]
    rw [hsame]
    exact h
  | some e =>
    obtain ⟨entry, he, hb⟩ := h.mem_recency (List.mem_of_getLast? hlast)
    rw [retireBack_eq hlast he]
    have hlookup : ∀ e' entry', (st.q2SelectorByExclusionClause.erase e).lookup e' = some entry' →
        e' ≠ e ∧ st.q2SelectorByExclusionClause.lookup e' = some entry' := by
      intro e' entry' he'
      by_cases heq : e' = e
      · rw [heq, AList.lookup_erase] at he'
        cases he'
      · exact ⟨heq, (AList.lookup_erase_ne heq).symm.trans he'⟩
    -- the list that does not change does not hold the clause
    have hkept : ∀ (l : List StateClause) (b : Bool), (∀ e', e' ∈ l ↔
        ∃ entry', st.q2SelectorByExclusionClause.lookup e' = some entry' ∧
          entry'.blockingQuery = b) → entry.blockingQuery ≠ b → ∀ e', e' ∈ l ↔
        ∃ entry', (st.q2SelectorByExclusionClause.erase e).lookup e' = some entry' ∧
          entry'.blockingQuery = b := by
      intro l b hl hne e'
      rw [hl]
      by_cases heq : e' = e
      · subst heq
        simp [he, hne, AList.lookup_erase]
      · rw [AList.lookup_erase_ne heq]
    have hdropped : ∀ (l : List StateClause) (b : Bool), (∀ e', e' ∈ l ↔
        ∃ entry', st.q2SelectorByExclusionClause.lookup e' = some entry' ∧
          entry'.blockingQuery = b) → l.Nodup → l.getLast? = some e → ∀ e', e' ∈ l.dropLast ↔
        ∃ entry', (st.q2SelectorByExclusionClause.erase e).lookup e' = some entry' ∧
          entry'.blockingQuery = b := by
      intro l b hl hnodup hback e'
      rw [mem_dropLast_of_nodup hnodup hback, hl]
      by_cases heq : e' = e
      · subst heq
        simp [AList.lookup_erase]
      · rw [AList.lookup_erase_ne heq]
        simp [heq]
    refine ⟨fun e' entry' he' => ?_, fun e₁ entry₁ e₂ entry₂ h₁ h₂ => ?_, ?_, ?_, ?_, ?_,
      fun c hc l hl => ?_, h.named, fun s l e' entry' hl he' => ?_⟩
    · obtain ⟨hne, hold⟩ := hlookup e' entry' he'
      obtain ⟨lits, hguards⟩ := h.guards e' entry' hold
      refine ⟨lits, hguards.mono [[entry.selector.neg]] rfl (fun c hc l hl hatom => ?_)
        fun _ _ hs => hs⟩
      rw [List.mem_singleton] at hc
      subst hc
      rw [List.mem_singleton] at hl
      subst hl
      exact hne (h.distinct e' entry' e entry hold he hatom.symm)
    · exact h.distinct e₁ entry₁ e₂ entry₂ (hlookup e₁ entry₁ h₁).2 (hlookup e₂ entry₂ h₂).2
    · cases statusOnly with
      | true => exact hkept _ true h.blocking (by simp [hb])
      | false => exact hdropped _ true h.blocking h.blocking_nodup hlast
    · cases statusOnly with
      | true => exact hdropped _ false h.status h.status_nodup hlast
      | false => exact hkept _ false h.status (by simp [hb])
    · cases statusOnly with
      | true => exact h.blocking_nodup
      | false => exact (List.dropLast_sublist _).nodup h.blocking_nodup
    · cases statusOnly with
      | true => exact (List.dropLast_sublist _).nodup h.status_nodup
      | false => exact h.status_nodup
    · rcases List.mem_cons.mp hc with rfl | hc
      · rw [List.mem_singleton] at hl
        subst hl
        exact h.selector_lt he
      · exact h.allocated c hc l hl
    · exact h.unnamed s l e' entry' hl (hlookup e' entry' he').2

/-- Retiring shortens the cache by one entry, if there is something to retire. -/
theorem Consistent.cacheSize_retireBack {st : PredecessorAssumptionSolver} (h : st.Consistent)
    {statusOnly : Bool} (hne : st.recency statusOnly ≠ []) :
    (st.retireBack statusOnly).cacheSize + 1 = st.cacheSize := by
  obtain ⟨e, hlast⟩ := Option.isSome_iff_exists.mp (List.getLast?_isSome.mpr hne)
  obtain ⟨entry, he, _⟩ := h.mem_recency (List.mem_of_getLast? hlast)
  have hmem : e ∈ st.q2SelectorByExclusionClause.keys := by
    rw [← AList.mem_keys, ← AList.lookup_isSome, he]
    rfl
  have hpos := List.length_pos_of_mem hmem
  rw [retireBack_eq hlast he]
  unfold cacheSize
  rw [AList.keys_erase, @List.length_erase_of_mem _ instBEqOfDecidableEq _ _ _ hmem]
  omega

/-- A cache that is not empty has something to retire, a status-only clause if any. -/
theorem Consistent.recency_ne_nil {st : PredecessorAssumptionSolver} (h : st.Consistent)
    (hpos : 0 < st.cacheSize) : st.recency (!st.q2StatusSelectorRecency.isEmpty) ≠ [] := by
  cases hstatus : st.q2StatusSelectorRecency with
  | cons e l => simp [recency, hstatus]
  | nil =>
    have hlength := h.partition.length_eq
    rw [List.length_append, hstatus, List.length_nil, Nat.add_zero] at hlength
    intro hnil
    have hblocking : st.q2BlockingSelectorRecency = [] := hnil
    rw [hblocking] at hlength
    unfold cacheSize at hpos
    rw [← hlength] at hpos
    cases hpos

theorem cacheLimit_retireBack (st : PredecessorAssumptionSolver) (statusOnly : Bool) :
    (st.retireBack statusOnly).cacheLimit = st.cacheLimit := by
  unfold retireBack
  simp only
  split
  · rfl
  · split <;> rfl

theorem Consistent.evict {st : PredecessorAssumptionSolver} (h : st.Consistent) (fuel : Nat) :
    (evict fuel st).Consistent := by
  induction fuel generalizing st with
  | zero => exact h
  | succ fuel ih =>
    unfold PredecessorAssumptionSolver.evict
    split
    · exact ih (h.retireBack _)
    · exact h

theorem Consistent.cacheSize_evict {st : PredecessorAssumptionSolver} (h : st.Consistent)
    {fuel : Nat} (hfuel : st.cacheSize ≤ fuel + st.cacheLimit) :
    (PredecessorAssumptionSolver.evict fuel st).cacheSize ≤
      (PredecessorAssumptionSolver.evict fuel st).cacheLimit := by
  induction fuel generalizing st with
  | zero => simpa [PredecessorAssumptionSolver.evict] using hfuel
  | succ fuel ih =>
    unfold PredecessorAssumptionSolver.evict
    split
    · rename_i hover
      have hsize := h.cacheSize_retireBack (h.recency_ne_nil (by omega))
      have hlimit := cacheLimit_retireBack st (!st.q2StatusSelectorRecency.isEmpty)
      exact ih (h.retireBack _) (by omega)
    · omega

theorem evict_of_le {st : PredecessorAssumptionSolver} (h : st.cacheSize ≤ st.cacheLimit)
    (fuel : Nat) : evict fuel st = st := by
  cases fuel with
  | zero => rfl
  | succ fuel =>
    unfold evict
    rw [if_neg (Nat.not_lt.mpr h)]

theorem cacheSize_insertSelector {st : PredecessorAssumptionSolver} {e : StateClause}
    {satLiterals : List SatLit} {blockingQuery : Bool}
    (he : st.q2SelectorByExclusionClause.lookup e = none) :
    (st.insertSelector e satLiterals blockingQuery).cacheSize = st.cacheSize + 1 := by
  have hmem : e ∉ st.q2SelectorByExclusionClause.keys := by
    rw [← AList.mem_keys]
    exact AList.lookup_eq_none.mp he
  unfold cacheSize insertSelector
  rw [AList.keys_insert, @List.erase_of_not_mem _ instBEqOfDecidableEq _ _ _ hmem]
  rfl

/-! ## Every sequence of calls -/

/-- What one call does, guards included. -/
theorem q2SelectorFor_cases {st st' : PredecessorAssumptionSolver} {e : StateClause} {frame : Nat}
    {blockingQuery : Bool} {selector : SatLit}
    (h : st.q2SelectorFor e frame blockingQuery = .ok (selector, st')) :
    (∃ entry, st.q2SelectorByExclusionClause.lookup e = some entry ∧ selector = entry.selector ∧
      st' = st.touch e entry blockingQuery) ∨
    (∃ satLiterals, st.q2SelectorByExclusionClause.lookup e = none ∧
      st.exclusion e = .ok satLiterals ∧ selector = ⟨st.vars + 2, true⟩ ∧
      st' = evict (st.cacheSize + 1) (st.insertSelector e satLiterals blockingQuery)) := by
  unfold q2SelectorFor at h
  cases he : st.q2SelectorByExclusionClause.lookup e with
  | some entry =>
    simp only [he, Except.ok.injEq, Prod.mk.injEq] at h
    exact .inl ⟨entry, rfl, h.1.symm, h.2.symm⟩
  | none =>
    rw [he] at h
    cases hlits : st.exclusionLiterals frame e.length e with
    | error msg =>
      rw [hlits] at h
      cases h
    | ok satLiterals =>
      rw [hlits] at h
      have hsize : (st.insertSelector e satLiterals blockingQuery).cacheSize = st.cacheSize + 1 :=
        cacheSize_insertSelector he
      rw [← hsize]
      cases h
      exact .inr ⟨satLiterals, rfl, exclusion_of_exclusionLiterals hlits, rfl, rfl⟩

/-- The selector stays enabled exactly then: the clause is cached, or it is inserted
where the next eviction does not look for it. -/
def RetainsSelector (st : PredecessorAssumptionSolver) (e : StateClause) (blockingQuery : Bool) :
    Prop :=
  e = [] ∨ (st.q2SelectorByExclusionClause.lookup e).isSome ∨ blockingQuery = true ∨
    st.cacheSize < st.cacheLimit ∨ st.q2StatusSelectorRecency ≠ []

theorem cacheSize_touch {st : PredecessorAssumptionSolver} {e : StateClause}
    {entry : Q2SelectorCacheEntry} {blockingQuery : Bool}
    (he : st.q2SelectorByExclusionClause.lookup e = some entry) :
    (st.touch e entry blockingQuery).cacheSize = st.cacheSize := by
  have hmem : e ∈ st.q2SelectorByExclusionClause.keys := by
    rw [← AList.mem_keys, ← AList.lookup_isSome, he]
    rfl
  have hpos := List.length_pos_of_mem hmem
  unfold touch
  split
  · unfold cacheSize
    rw [AList.keys_insert, List.length_cons,
      @List.length_erase_of_mem _ instBEqOfDecidableEq _ _ _ hmem]
    omega
  · split <;> rfl

theorem cacheLimit_touch (st : PredecessorAssumptionSolver) (e : StateClause)
    (entry : Q2SelectorCacheEntry) (blockingQuery : Bool) :
    (st.touch e entry blockingQuery).cacheLimit = st.cacheLimit := by
  unfold touch
  split
  · rfl
  · split <;> rfl

/-- The cache is consistent and within its limit. -/
structure Bounded (st : PredecessorAssumptionSolver) : Prop where
  consistent : st.Consistent
  size : st.cacheSize ≤ st.cacheLimit

theorem Bounded.retireAll {st : PredecessorAssumptionSolver} (h : st.Bounded) (fuel : Nat) :
    (retireAll fuel st).Bounded := by
  induction fuel generalizing st with
  | zero => exact h
  | succ fuel ih =>
    unfold PredecessorAssumptionSolver.retireAll
    cases hstatus : st.q2StatusSelectorRecency with
    | nil => exact h
    | cons e l =>
      have hne : st.recency true ≠ [] := by simp [recency, hstatus]
      have hsize := h.consistent.cacheSize_retireBack hne
      have hlimit := cacheLimit_retireBack st true
      have hbound := h.size
      exact ih ⟨h.consistent.retireBack true, by omega⟩

theorem Bounded.step {st st' : PredecessorAssumptionSolver} {call : Call} (h : st.Bounded)
    (hstep : Step st call st') : st'.Bounded := by
  cases call with
  | q2SelectorFor e frame blockingQuery =>
    obtain ⟨selector, hcall⟩ := hstep
    rcases q2SelectorFor_cases hcall with ⟨entry, he, _, rfl⟩ | ⟨lits, he, hlits, _, rfl⟩
    · refine ⟨h.consistent.touch he, ?_⟩
      rw [cacheSize_touch he, cacheLimit_touch]
      exact h.size
    · have hinserted := h.consistent.insertSelector blockingQuery he hlits
      refine ⟨hinserted.evict _, hinserted.cacheSize_evict ?_⟩
      rw [cacheSize_insertSelector he]
      omega
  | retireStatusQ2Selectors =>
    cases hstep
    exact h.retireAll _
  | encode =>
    have hsurface := hstep.surface
    have hsize := h.size
    refine ⟨h.consistent.encodes hstep, ?_⟩
    unfold cacheSize cacheLimit at *
    rw [hstep.cache]
    omega

theorem bounded_inductive : calls.Inductive Bounded where
  init st h := by
    refine ⟨consistent_of_created h, ?_⟩
    unfold cacheSize
    rw [h.cache]
    exact Nat.zero_le _
  step _ _ _ h hstep := h.step hstep

/-! ## The returned selector -/

theorem Consistent.retireBack_keeps {st : PredecessorAssumptionSolver} (h : st.Consistent)
    {statusOnly : Bool} {e : StateClause} {entry : Q2SelectorCacheEntry}
    (he : st.q2SelectorByExclusionClause.lookup e = some entry)
    (hne : (st.recency statusOnly).getLast? ≠ some e) :
    (st.retireBack statusOnly).q2SelectorByExclusionClause.lookup e = some entry := by
  cases hlast : (st.recency statusOnly).getLast? with
  | none =>
    unfold recency at hlast
    unfold PredecessorAssumptionSolver.retireBack
    simp only [hlast]
    exact he
  | some e' =>
    obtain ⟨entry', he', _⟩ := h.mem_recency (List.mem_of_getLast? hlast)
    rw [retireBack_eq hlast he']
    have hother : e ≠ e' := by
      rintro rfl
      exact hne hlast
    exact (AList.lookup_erase_ne hother).trans he

/-- One entry too many costs one eviction. -/
theorem Consistent.evict_eq {st : PredecessorAssumptionSolver} (h : st.Consistent)
    (hover : st.cacheSize = st.cacheLimit + 1) (fuel : Nat) :
    PredecessorAssumptionSolver.evict (fuel + 1) st =
      st.retireBack (!st.q2StatusSelectorRecency.isEmpty) := by
  have hsize := h.cacheSize_retireBack (h.recency_ne_nil (by omega))
  have hlimit := cacheLimit_retireBack st (!st.q2StatusSelectorRecency.isEmpty)
  unfold PredecessorAssumptionSolver.evict
  rw [if_pos (by omega), evict_of_le (by omega)]

theorem getLast?_cons_ne {α : Type} {e : α} {l : List α} (he : e ∉ l) (hl : l ≠ []) :
    (e :: l).getLast? ≠ some e := by
  intro hlast
  rw [List.getLast?_cons_of_ne_nil hl] at hlast
  exact he (List.mem_of_getLast? hlast)

/-- The eviction after an insertion spares the inserted clause, unless it is
status-only and the other clauses are all blocking. -/
theorem lookup_evict_insertSelector {st : PredecessorAssumptionSolver} (h : st.Bounded)
    {e : StateClause} {satLiterals : List SatLit} {blockingQuery : Bool}
    (he : st.q2SelectorByExclusionClause.lookup e = none)
    (hlits : st.exclusion e = .ok satLiterals)
    (hspared : blockingQuery = true ∨ st.cacheSize < st.cacheLimit ∨
      st.q2StatusSelectorRecency ≠ []) :
    (evict (st.cacheSize + 1)
      (st.insertSelector e satLiterals blockingQuery)).q2SelectorByExclusionClause.lookup e =
        some ⟨⟨st.vars + 2, true⟩, blockingQuery⟩ := by
  have hinserted := h.consistent.insertSelector blockingQuery he hlits
  have hentry : (st.insertSelector e satLiterals blockingQuery).q2SelectorByExclusionClause.lookup
      e = some ⟨⟨st.vars + 2, true⟩, blockingQuery⟩ := AList.lookup_insert _
  have hsize : (st.insertSelector e satLiterals blockingQuery).cacheSize = st.cacheSize + 1 :=
    cacheSize_insertSelector he
  have hlimit : (st.insertSelector e satLiterals blockingQuery).cacheLimit = st.cacheLimit := rfl
  have hbound := h.size
  obtain ⟨hblocking, hstatus⟩ := h.consistent.not_mem he
  by_cases hroom : st.cacheSize < st.cacheLimit
  · rw [evict_of_le (by omega)]
    exact hentry
  · rw [hinserted.evict_eq (by omega)]
    apply hinserted.retireBack_keeps hentry
    have hcached : 0 < st.cacheSize := by
      unfold cacheLimit at hroom hbound
      omega
    cases blockingQuery with
    | true =>
      cases hcase : st.q2StatusSelectorRecency with
      | nil =>
        -- the blocking list holds the new clause and at least one more
        have hne := h.consistent.recency_ne_nil hcached
        rw [hcase] at hne
        simp only [PredecessorAssumptionSolver.insertSelector, recency, hcase]
        exact getLast?_cons_ne hblocking hne
      | cons e' l =>
        simp only [PredecessorAssumptionSolver.insertSelector, recency, hcase]
        intro hlast
        apply hstatus
        rw [hcase]
        exact List.mem_of_getLast? hlast
    | false =>
      have hne : st.q2StatusSelectorRecency ≠ [] := by
        rcases hspared with hspared | hspared | hspared
        · cases hspared
        · exact absurd hspared hroom
        · exact hspared
      exact getLast?_cons_ne hstatus hne

/-- A status-only clause that is inserted among blocking clauses is evicted at once. -/
theorem unit_mem_evict_insertSelector {st : PredecessorAssumptionSolver} (h : st.Bounded)
    {e : StateClause} {satLiterals : List SatLit}
    (he : st.q2SelectorByExclusionClause.lookup e = none)
    (hlits : st.exclusion e = .ok satLiterals) (hfull : ¬ st.cacheSize < st.cacheLimit)
    (hstatus : st.q2StatusSelectorRecency = []) :
    [Lit.neg ⟨st.vars + 2, true⟩] ∈
      (evict (st.cacheSize + 1) (st.insertSelector e satLiterals false)).clauses := by
  have hinserted := h.consistent.insertSelector false he hlits
  have hsize : (st.insertSelector e satLiterals false).cacheSize = st.cacheSize + 1 :=
    cacheSize_insertSelector he
  have hlimit : (st.insertSelector e satLiterals false).cacheLimit = st.cacheLimit := rfl
  have hbound := h.size
  have hrecency : (st.insertSelector e satLiterals false).q2StatusSelectorRecency = [e] := by
    simp [PredecessorAssumptionSolver.insertSelector, hstatus]
  have hentry : (st.insertSelector e satLiterals false).q2SelectorByExclusionClause.lookup e =
      some ⟨⟨st.vars + 2, true⟩, false⟩ := AList.lookup_insert _
  rw [hinserted.evict_eq (by omega), hrecency]
  have hlast : ((st.insertSelector e satLiterals false).recency true).getLast? = some e := by
    simp [recency, hrecency]
  simp only [List.isEmpty_cons, Bool.not_false]
  rw [retireBack_eq hlast hentry]
  exact List.mem_cons_self

theorem enabled_nil {st : PredecessorAssumptionSolver} {selector : SatLit}
    (h : [selector.neg] ∈ st.clauses) : st.Enabled [] selector := by
  refine ⟨fun hne => absurd rfl hne, [], rfl, ?_⟩
  constructor
  · rintro ⟨val, hval, hselector⟩
    have hunit := (evalQuery_iff val).mp hval _ h
    rw [evalClause_singleton, evalLit_neg, hselector] at hunit
    cases hunit
  · rintro ⟨val, hval⟩
    rw [evalQuery_cons, Bool.and_eq_true] at hval
    cases hval.1

theorem Bounded.enabled {st : PredecessorAssumptionSolver} (h : st.Bounded) {e : StateClause}
    {entry : Q2SelectorCacheEntry} (he : st.q2SelectorByExclusionClause.lookup e = some entry) :
    st.Enabled e entry.selector := by
  obtain ⟨_, hguards⟩ := h.consistent.guards e entry he
  exact hguards.enabled

/-- After every sequence of calls, on every symbol surface: the cached selectors are
enabled, the cache is within its limit and the recency lists partition it; and the
next selector is enabled exactly when its clause is retained. -/
theorem q2SelectorFor_enabled_iff {st : PredecessorAssumptionSolver} (h : calls.Reachable st) :
    (∀ e entry, st.q2SelectorByExclusionClause.lookup e = some entry →
      st.Enabled e entry.selector) ∧
    st.cacheSize ≤ st.cacheLimit ∧
    (st.q2BlockingSelectorRecency ++ st.q2StatusSelectorRecency).Perm
      st.q2SelectorByExclusionClause.keys ∧
    ∀ e frame blockingQuery selector st',
      st.q2SelectorFor e frame blockingQuery = .ok (selector, st') →
      (st'.Enabled e selector ↔ st.RetainsSelector e blockingQuery) := by
  have hbounded := bounded_inductive.reachable h
  refine ⟨fun e entry he => hbounded.enabled he, hbounded.size, hbounded.consistent.partition, ?_⟩
  intro e frame blockingQuery selector st' hcall
  have hstep : Step st (.q2SelectorFor e frame blockingQuery) st' := ⟨selector, hcall⟩
  have hbounded' := hbounded.step hstep
  rcases q2SelectorFor_cases hcall with ⟨entry, he, rfl, rfl⟩ | ⟨lits, he, hlits, rfl, rfl⟩
  · have hcached : (st.touch e entry blockingQuery).Enabled e entry.selector := by
      obtain ⟨_, hguards⟩ := hbounded.consistent.guards e entry he
      have htouched : (st.touch e entry blockingQuery).clauses = st.clauses ∧
          (st.touch e entry blockingQuery).symbolFrameLits = st.symbolFrameLits := by
        unfold touch
        split
        · exact ⟨rfl, rfl⟩
        · split <;> exact ⟨rfl, rfl⟩
      refine (hguards.mono [] htouched.1 (by simp) fun s l hs => ?_).enabled
      rw [htouched.2]
      exact hs
    exact ⟨fun _ => .inr (.inl (by rw [he]; rfl)), fun _ => hcached⟩
  · by_cases hspared : blockingQuery = true ∨ st.cacheSize < st.cacheLimit ∨
        st.q2StatusSelectorRecency ≠ []
    · have hentry := lookup_evict_insertSelector hbounded he hlits hspared
      exact ⟨fun _ => .inr (.inr hspared), fun _ => hbounded'.enabled hentry⟩
    · have hevicted := hspared
      simp only [not_or, not_not, Bool.not_eq_true] at hevicted
      obtain ⟨rfl, hfull, hstatus⟩ := hevicted
      have hunit := unit_mem_evict_insertSelector hbounded he hlits hfull hstatus
      constructor
      · intro henabled
        by_cases hnil : e = []
        · exact .inl hnil
        · exact absurd hunit (henabled.noUnit hnil)
      · rintro (rfl | hcached | hspared')
        · exact enabled_nil hunit
        · rw [he] at hcached
          cases hcached
        · exact absurd hspared' hspared

/-- Two state symbols, so at most four cached clauses. -/
def twoSymbolSolver : PredecessorAssumptionSolver where
  solverSymbols := [2, 3]
  vars := 2
  clauses := []
  symbolFrameLits := fun s => if s = 2 then some ⟨2, true⟩ else if s = 3 then some ⟨3, true⟩ else none
  q2SelectorByExclusionClause := ∅
  q2BlockingSelectorRecency := []
  q2StatusSelectorRecency := []

theorem twoSymbolSolver_created : calls.Reachable twoSymbolSolver := by
  refine .init ⟨by simp [twoSymbolSolver], fun s l hl => ?_, rfl, rfl, rfl⟩
  unfold twoSymbolSolver at hl ⊢
  simp only at hl ⊢
  split at hl
  · cases hl
    decide
  · split at hl
    · cases hl
      decide
    · cases hl

/-- The selector of a status-only clause in a cache with room is enabled. -/
theorem q2SelectorFor_enabled_iff_twoSymbol :
    twoSymbolSolver.cacheSize ≤ twoSymbolSolver.cacheLimit ∧
    ∀ selector st', twoSymbolSolver.q2SelectorFor [⟨2, true⟩] 0 false = .ok (selector, st') →
      st'.Enabled [⟨2, true⟩] selector := by
  obtain ⟨_, hsize, _, henabled⟩ := q2SelectorFor_enabled_iff twoSymbolSolver_created
  refine ⟨hsize, fun selector st' hcall => (henabled _ _ _ _ _ hcall).mpr ?_⟩
  exact .inr (.inr (.inr (.inl (by decide))))

/-- Blocking calls, one after the other. -/
def blockAll (st : PredecessorAssumptionSolver) : List StateClause → PredecessorAssumptionSolver
  | [] => st
  | e :: rest =>
    match st.q2SelectorFor e 0 true with
    | .ok (_, st') => blockAll st' rest
    | .error _ => st

theorem reachable_blockAll {st : PredecessorAssumptionSolver} (h : calls.Reachable st)
    (clauses : List StateClause) : calls.Reachable (st.blockAll clauses) := by
  induction clauses generalizing st with
  | nil => exact h
  | cons e rest ih =>
    unfold blockAll
    split
    · rename_i selector st' hcall
      have hstep : calls.step st (.q2SelectorFor e 0 true) st' := ⟨selector, hcall⟩
      exact ih (.step h hstep)
    · exact h

/-- Four blocking clauses fill the cache; the selector of the next status-only clause
comes back disabled. -/
theorem q2SelectorFor_disabled : ∃ st selector st', calls.Reachable st ∧
    st.q2SelectorFor [⟨2, true⟩, ⟨3, true⟩] 0 false = .ok (selector, st') ∧
    [selector.neg] ∈ st'.clauses := by
  refine ⟨twoSymbolSolver.blockAll [[⟨2, true⟩], [⟨2, false⟩], [⟨3, true⟩], [⟨3, false⟩]],
    ⟨8, true⟩, _, reachable_blockAll twoSymbolSolver_created _, rfl, by decide⟩

end PredecessorAssumptionSolver
end KeplerFormal
