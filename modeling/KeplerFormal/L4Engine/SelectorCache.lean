import Mathlib.Data.List.AList
import Mathlib.Data.List.Perm.Basic
import KeplerFormal.Core.Runs
import KeplerFormal.Core.SatQuery

/-!
# The Q2 selector cache (`src/sec/pdr/PDREngine.cpp`)

A relative-induction query excludes its target cube from the current frame through a
selector literal. `q2SelectorFor` keeps the selectors of recent exclusion clauses, in
two recency lists, and retires the least recently used ones with a unit clause.

* `Guards.enabled`: a selector that occurs in its guard only switches the exclusion
  clause on, and no unit clause disables it.
* `Consistent`: every cached selector occurs in its guard only, and the recency lists
  hold the cached clauses (`Consistent.partition`).
* `Consistent.touch`, `Consistent.insertSelector`, `Consistent.encodes`: reuse, insertion
  and whatever the solver encodes in between keep it.
-/
namespace KeplerFormal

open Core

abbrev SatLit := Lit Nat

/-- mirrors src/sec/pdr/PDREngine.cpp:229-236 -/
structure ClauseLiteral where
  symbol : Nat
  positive : Bool
  deriving DecidableEq

abbrev StateClause := List ClauseLiteral

structure Q2SelectorCacheEntry where
  selector : SatLit
  blockingQuery : Bool

/-- The parts of a predecessor solver that the selector cache reads or changes:
`vars` counts the variables of the SAT solver, `symbolFrameLits` is the literal of each
symbol in the only frame of its variable store.
mirrors src/sec/pdr/PDREngine.cpp:959-1018 -/
structure PredecessorAssumptionSolver where
  solverSymbols : List Nat
  vars : Nat
  clauses : Query Nat
  symbolFrameLits : Nat → Option SatLit
  q2SelectorByExclusionClause : AList fun _ : StateClause => Q2SelectorCacheEntry
  q2BlockingSelectorRecency : List StateClause
  q2StatusSelectorRecency : List StateClause

namespace PredecessorAssumptionSolver

/-- mirrors src/sec/kinduction/SatEncoding.cpp:125-132 -/
def getLiteral (st : PredecessorAssumptionSolver) (symbol frame : Nat) : Except String SatLit :=
  match st.symbolFrameLits symbol with
  | some l => if frame = 0 then .ok l else .error s!"Missing frame variable for symbol {symbol}"
  | none => .error s!"Missing frame variable for symbol {symbol}"

/-- The literals of the exclusion clause; `size` is the size of the whole clause.
mirrors src/sec/pdr/PDREngine.cpp:3055-3066 -/
def exclusionLiterals (st : PredecessorAssumptionSolver) (frame size : Nat) :
    StateClause → Except String (List SatLit)
  | [] => .ok []
  | literal :: rest => do
    if (st.symbolFrameLits literal.symbol).isNone then
      throw s!"PDR cached negated-cube encoding missing symbol {literal.symbol} at frame {frame} in cube of size {size}"
    let satLiteral ← st.getLiteral literal.symbol frame
    let satLiterals ← st.exclusionLiterals frame size rest
    return (if literal.positive then satLiteral else satLiteral.neg) :: satLiterals

/-- The SAT clause of an exclusion clause. -/
def exclusion (st : PredecessorAssumptionSolver) (e : StateClause) : Except String (List SatLit) :=
  st.exclusionLiterals 0 e.length e

/-- mirrors src/sec/pdr/PDREngine.cpp:3081-3082 -/
def cacheLimit (st : PredecessorAssumptionSolver) : Nat := 2 * max st.solverSymbols.length 1

def cacheSize (st : PredecessorAssumptionSolver) : Nat := st.q2SelectorByExclusionClause.keys.length

/-- A cached clause moves to the front of its list; a status-only clause that a
blocking query asks for moves to the blocking list.
mirrors src/sec/pdr/PDREngine.cpp:3025-3037 -/
def touch (st : PredecessorAssumptionSolver) (e : StateClause) (entry : Q2SelectorCacheEntry)
    (blockingQuery : Bool) : PredecessorAssumptionSolver :=
  if blockingQuery && !entry.blockingQuery then
    { st with
      q2StatusSelectorRecency := st.q2StatusSelectorRecency.erase e
      q2BlockingSelectorRecency := e :: st.q2BlockingSelectorRecency
      q2SelectorByExclusionClause :=
        st.q2SelectorByExclusionClause.insert e { entry with blockingQuery := true } }
  else if entry.blockingQuery then
    { st with q2BlockingSelectorRecency := e :: st.q2BlockingSelectorRecency.erase e }
  else
    { st with q2StatusSelectorRecency := e :: st.q2StatusSelectorRecency.erase e }

/-- mirrors src/sec/pdr/PDREngine.cpp:3050-3076 -/
def insertSelector (st : PredecessorAssumptionSolver) (e : StateClause) (satLiterals : List SatLit)
    (blockingQuery : Bool) : PredecessorAssumptionSolver :=
  let selector : SatLit := ⟨st.vars + 2, true⟩
  { st with
    vars := st.vars + 1
    clauses := (selector.neg :: satLiterals) :: st.clauses
    q2SelectorByExclusionClause :=
      st.q2SelectorByExclusionClause.insert e ⟨selector, blockingQuery⟩
    q2BlockingSelectorRecency :=
      if blockingQuery then e :: st.q2BlockingSelectorRecency else st.q2BlockingSelectorRecency
    q2StatusSelectorRecency :=
      if blockingQuery then st.q2StatusSelectorRecency else e :: st.q2StatusSelectorRecency }

/-- The least recently used clause of one of the lists leaves the cache, and a unit
clause disables its selector. -/
def retireBack (st : PredecessorAssumptionSolver) (statusOnly : Bool) :
    PredecessorAssumptionSolver :=
  let recency := if statusOnly then st.q2StatusSelectorRecency else st.q2BlockingSelectorRecency
  match recency.getLast? with
  | none => st
  | some e =>
    match st.q2SelectorByExclusionClause.lookup e with
    | none => st
    | some entry =>
      { st with
        clauses := [entry.selector.neg] :: st.clauses
        q2SelectorByExclusionClause := st.q2SelectorByExclusionClause.erase e
        q2BlockingSelectorRecency :=
          if statusOnly then st.q2BlockingSelectorRecency else recency.dropLast
        q2StatusSelectorRecency :=
          if statusOnly then recency.dropLast else st.q2StatusSelectorRecency }

/-- Each round erases one entry, so `fuel` is the number of entries. A status-only
clause goes first.
mirrors src/sec/pdr/PDREngine.cpp:3083-3108 -/
def evict : Nat → PredecessorAssumptionSolver → PredecessorAssumptionSolver
  | 0, st => st
  | fuel + 1, st =>
    if st.cacheLimit < st.cacheSize then
      evict fuel (st.retireBack (!st.q2StatusSelectorRecency.isEmpty))
    else st

/-- Returns the selector of an exclusion clause.
mirrors src/sec/pdr/PDREngine.cpp:3019-3110 -/
def q2SelectorFor (st : PredecessorAssumptionSolver) (e : StateClause) (frame : Nat)
    (blockingQuery : Bool) : Except String (SatLit × PredecessorAssumptionSolver) :=
  match st.q2SelectorByExclusionClause.lookup e with
  | some entry => .ok (entry.selector, st.touch e entry blockingQuery)
  | none => do
    let satLiterals ← st.exclusionLiterals frame e.length e
    let inserted := st.insertSelector e satLiterals blockingQuery
    return (⟨st.vars + 2, true⟩, evict inserted.cacheSize inserted)

def retireAll : Nat → PredecessorAssumptionSolver → PredecessorAssumptionSolver
  | 0, st => st
  | fuel + 1, st =>
    if st.q2StatusSelectorRecency.isEmpty then st else retireAll fuel (st.retireBack true)

/-- mirrors src/sec/pdr/PDREngine.cpp:3112-3131 -/
def retireStatusQ2Selectors (st : PredecessorAssumptionSolver) : PredecessorAssumptionSolver :=
  retireAll st.q2StatusSelectorRecency.length st

/-! ## Runs -/

/-- What happens to the solver between the calls: it allocates variables, encodes
formulas and frame clauses, and widens its symbol surface. None of these knows a
selector.
mirrors src/sec/pdr/PDREngine.cpp:4456-4506 -/
structure Encodes (st st' : PredecessorAssumptionSolver) : Prop where
  vars : st.vars ≤ st'.vars
  clauses : ∃ added : Query Nat, st'.clauses = added ++ st.clauses ∧
    ∀ c ∈ added, ∀ l ∈ c, l.atom < st'.vars + 2 ∧
      ∀ e entry, st.q2SelectorByExclusionClause.lookup e = some entry →
        l.atom ≠ entry.selector.atom
  kept : ∀ s l, st.symbolFrameLits s = some l → st'.symbolFrameLits s = some l
  fresh : ∀ s l, st'.symbolFrameLits s = some l →
    st.symbolFrameLits s = some l ∨ st.vars + 2 ≤ l.atom ∧ l.atom < st'.vars + 2
  surface : st.solverSymbols.length ≤ st'.solverSymbols.length
  cache : st'.q2SelectorByExclusionClause = st.q2SelectorByExclusionClause
  blocking : st'.q2BlockingSelectorRecency = st.q2BlockingSelectorRecency
  status : st'.q2StatusSelectorRecency = st.q2StatusSelectorRecency

/-- A solver that has just been created. -/
structure Created (st : PredecessorAssumptionSolver) : Prop where
  allocated : ∀ c ∈ st.clauses, ∀ l ∈ c, l.atom < st.vars + 2
  named : ∀ s l, st.symbolFrameLits s = some l → l.atom < st.vars + 2
  cache : st.q2SelectorByExclusionClause = ∅
  blocking : st.q2BlockingSelectorRecency = []
  status : st.q2StatusSelectorRecency = []

inductive Call where
  | q2SelectorFor (e : StateClause) (frame : Nat) (blockingQuery : Bool)
  | retireStatusQ2Selectors
  | encode

def Step (st : PredecessorAssumptionSolver) : Call → PredecessorAssumptionSolver → Prop
  | .q2SelectorFor e frame blockingQuery, st' =>
    ∃ selector, st.q2SelectorFor e frame blockingQuery = .ok (selector, st')
  | .retireStatusQ2Selectors, st' => st' = st.retireStatusQ2Selectors
  | .encode, st' => Encodes st st'

def calls : LTS PredecessorAssumptionSolver Call := ⟨Created, Step⟩

/-! ## Guards -/

/-- The selector occurs in the clause that guards the exclusion clause, and in no
other. -/
structure Guards (st : PredecessorAssumptionSolver) (e : StateClause) (selector : SatLit)
    (satLiterals : List SatLit) : Prop where
  encoded : st.exclusion e = .ok satLiterals
  guard : selector.neg :: satLiterals ∈ st.clauses
  fresh : ∀ l ∈ satLiterals, l.atom ≠ selector.atom
  only : ∀ c ∈ st.clauses, (∃ l ∈ c, l.atom = selector.atom) → c = selector.neg :: satLiterals

/-- Solving under the selector is solving with the exclusion clause, and no unit clause
disables the selector. The guard of the empty clause is itself such a unit. -/
structure Enabled (st : PredecessorAssumptionSolver) (e : StateClause) (selector : SatLit) :
    Prop where
  noUnit : e ≠ [] → [selector.neg] ∉ st.clauses
  exact : ∃ satLiterals, st.exclusion e = .ok satLiterals ∧
    ((∃ val, evalQuery val st.clauses = true ∧ evalLit val selector = true) ↔
      ∃ val, evalQuery val (satLiterals :: st.clauses) = true)

theorem exclusionLiterals_cons {st : PredecessorAssumptionSolver} {frame size : Nat}
    {literal : ClauseLiteral} {rest : StateClause} {satLiterals : List SatLit}
    (h : st.exclusionLiterals frame size (literal :: rest) = .ok satLiterals) :
    ∃ l tail, st.symbolFrameLits literal.symbol = some l ∧ frame = 0 ∧
      st.exclusionLiterals frame size rest = .ok tail ∧
      satLiterals = (if literal.positive then l else l.neg) :: tail := by
  unfold exclusionLiterals at h
  cases hl : st.symbolFrameLits literal.symbol with
  | none =>
    rw [hl] at h
    cases h
  | some l =>
    unfold getLiteral at h
    rw [hl] at h
    by_cases hframe : frame = 0
    · subst hframe
      cases htail : st.exclusionLiterals 0 size rest with
      | error msg =>
        rw [htail] at h
        cases h
      | ok tail =>
        rw [htail] at h
        cases h
        exact ⟨l, tail, rfl, rfl, rfl, rfl⟩
    · simp only [if_neg hframe] at h
      cases h

/-- The literals do not change when the solver only gains symbols. -/
theorem exclusionLiterals_mono {st st' : PredecessorAssumptionSolver}
    {frame size : Nat} {e : StateClause} {satLiterals : List SatLit}
    (h : st.exclusionLiterals frame size e = .ok satLiterals)
    (hkept : ∀ s l, st.symbolFrameLits s = some l → st'.symbolFrameLits s = some l) :
    st'.exclusionLiterals frame size e = .ok satLiterals := by
  induction e generalizing satLiterals with
  | nil => exact h
  | cons literal rest ih =>
    obtain ⟨l, tail, hl, rfl, htail, rfl⟩ := exclusionLiterals_cons h
    unfold exclusionLiterals getLiteral
    rw [hkept _ _ hl, ih htail]
    rfl

theorem atom_of_mem_exclusionLiterals {st : PredecessorAssumptionSolver} {frame size : Nat}
    {e : StateClause} {satLiterals : List SatLit}
    (h : st.exclusionLiterals frame size e = .ok satLiterals) {l : SatLit} (hl : l ∈ satLiterals) :
    ∃ s l', st.symbolFrameLits s = some l' ∧ l.atom = l'.atom := by
  induction e generalizing satLiterals with
  | nil =>
    cases h
    cases hl
  | cons literal rest ih =>
    obtain ⟨l', tail, hl', rfl, htail, rfl⟩ := exclusionLiterals_cons h
    rcases List.mem_cons.mp hl with rfl | hl
    · refine ⟨literal.symbol, l', hl', ?_⟩
      cases literal.positive <;> rfl
    · exact ih htail hl

theorem eq_nil_of_exclusionLiterals {st : PredecessorAssumptionSolver} {frame size : Nat}
    {e : StateClause} (h : st.exclusionLiterals frame size e = .ok []) : e = [] := by
  cases e with
  | nil => rfl
  | cons literal rest =>
    obtain ⟨l, tail, _, _, _, hcons⟩ := exclusionLiterals_cons h
    cases hcons

theorem exclusion_of_exclusionLiterals {st : PredecessorAssumptionSolver} {frame : Nat}
    {e : StateClause} {satLiterals : List SatLit}
    (h : st.exclusionLiterals frame e.length e = .ok satLiterals) :
    st.exclusion e = .ok satLiterals := by
  cases e with
  | nil => exact h
  | cons literal rest =>
    obtain ⟨_, _, _, rfl, _, _⟩ := exclusionLiterals_cons h
    exact h

theorem Guards.enabled {st : PredecessorAssumptionSolver} {e : StateClause} {selector : SatLit}
    {satLiterals : List SatLit} (h : st.Guards e selector satLiterals) :
    st.Enabled e selector where
  noUnit hne hunit := by
    have hguard := h.only _ hunit ⟨selector.neg, by simp, rfl⟩
    have hnil : satLiterals = [] := by simpa using hguard.symm
    exact hne (eq_nil_of_exclusionLiterals (hnil ▸ h.encoded))
  exact := ⟨satLiterals, h.encoded, satisfiable_guarded h.guard h.fresh h.only⟩

/-- A guard survives as long as the new clauses do not mention the selector. -/
theorem Guards.mono {st st' : PredecessorAssumptionSolver} {e : StateClause} {selector : SatLit}
    {satLiterals : List SatLit} (h : st.Guards e selector satLiterals) (added : Query Nat)
    (hclauses : st'.clauses = added ++ st.clauses)
    (hadded : ∀ c ∈ added, ∀ l ∈ c, l.atom ≠ selector.atom)
    (hkept : ∀ s l, st.symbolFrameLits s = some l → st'.symbolFrameLits s = some l) :
    st'.Guards e selector satLiterals where
  encoded := exclusionLiterals_mono h.encoded hkept
  guard := by
    rw [hclauses]
    exact List.mem_append_right _ h.guard
  fresh := h.fresh
  only c hc hmem := by
    rw [hclauses, List.mem_append] at hc
    rcases hc with hc | hc
    · obtain ⟨l, hl, hatom⟩ := hmem
      exact absurd hatom (hadded c hc l hl)
    · exact h.only c hc hmem

/-! ## The invariant -/

structure Consistent (st : PredecessorAssumptionSolver) : Prop where
  guards : ∀ e entry, st.q2SelectorByExclusionClause.lookup e = some entry →
    ∃ satLiterals, st.Guards e entry.selector satLiterals
  distinct : ∀ e entry e' entry', st.q2SelectorByExclusionClause.lookup e = some entry →
    st.q2SelectorByExclusionClause.lookup e' = some entry' →
    entry.selector.atom = entry'.selector.atom → e = e'
  blocking : ∀ e, e ∈ st.q2BlockingSelectorRecency ↔
    ∃ entry, st.q2SelectorByExclusionClause.lookup e = some entry ∧ entry.blockingQuery = true
  status : ∀ e, e ∈ st.q2StatusSelectorRecency ↔
    ∃ entry, st.q2SelectorByExclusionClause.lookup e = some entry ∧ entry.blockingQuery = false
  blocking_nodup : st.q2BlockingSelectorRecency.Nodup
  status_nodup : st.q2StatusSelectorRecency.Nodup
  allocated : ∀ c ∈ st.clauses, ∀ l ∈ c, l.atom < st.vars + 2
  named : ∀ s l, st.symbolFrameLits s = some l → l.atom < st.vars + 2
  unnamed : ∀ s l e entry, st.symbolFrameLits s = some l →
    st.q2SelectorByExclusionClause.lookup e = some entry → l.atom ≠ entry.selector.atom

theorem Consistent.selector_lt {st : PredecessorAssumptionSolver} (h : st.Consistent)
    {e : StateClause} {entry : Q2SelectorCacheEntry}
    (he : st.q2SelectorByExclusionClause.lookup e = some entry) :
    entry.selector.atom < st.vars + 2 := by
  obtain ⟨satLiterals, hguards⟩ := h.guards e entry he
  exact h.allocated _ hguards.guard entry.selector.neg (by simp)

/-- The recency lists hold each cached clause once. -/
theorem Consistent.partition {st : PredecessorAssumptionSolver} (h : st.Consistent) :
    (st.q2BlockingSelectorRecency ++ st.q2StatusSelectorRecency).Perm
      st.q2SelectorByExclusionClause.keys := by
  rw [List.perm_ext_iff_of_nodup ?_ st.q2SelectorByExclusionClause.keys_nodup]
  · intro e
    rw [List.mem_append, h.blocking, h.status, ← AList.mem_keys, ← AList.lookup_isSome,
      Option.isSome_iff_exists]
    constructor
    · rintro (⟨entry, he, _⟩ | ⟨entry, he, _⟩) <;> exact ⟨entry, he⟩
    · rintro ⟨entry, he⟩
      cases hb : entry.blockingQuery with
      | true => exact .inl ⟨entry, he, hb⟩
      | false => exact .inr ⟨entry, he, hb⟩
  · rw [List.nodup_append]
    refine ⟨h.blocking_nodup, h.status_nodup, ?_⟩
    rintro e hblocking _ hstatus rfl
    obtain ⟨entry, he, hb⟩ := (h.blocking e).mp hblocking
    obtain ⟨entry', he', hb'⟩ := (h.status e).mp hstatus
    rw [he] at he'
    cases he'
    rw [hb] at hb'
    cases hb'

theorem consistent_of_created {st : PredecessorAssumptionSolver} (h : st.Created) :
    st.Consistent where
  guards e entry he := by simp [h.cache] at he
  distinct e entry e' entry' he := by simp [h.cache] at he
  blocking e := by simp [h.cache, h.blocking]
  status e := by simp [h.cache, h.status]
  blocking_nodup := by simp [h.blocking]
  status_nodup := by simp [h.status]
  allocated := h.allocated
  named := h.named
  unnamed s l e entry _ he := by simp [h.cache] at he

theorem Consistent.encodes {st st' : PredecessorAssumptionSolver} (h : st.Consistent)
    (hencodes : Encodes st st') : st'.Consistent := by
  obtain ⟨added, hclauses, hadded⟩ := hencodes.clauses
  refine ⟨fun e entry he => ?_, ?_, ?_, ?_, ?_, ?_, fun c hc l hl => ?_, fun s l hl => ?_,
    fun s l e entry hl he => ?_⟩
  · rw [hencodes.cache] at he
    obtain ⟨satLiterals, hguards⟩ := h.guards e entry he
    exact ⟨satLiterals, hguards.mono added hclauses
      (fun c hc l hl => (hadded c hc l hl).2 e entry he) hencodes.kept⟩
  · rw [hencodes.cache]
    exact h.distinct
  · rw [hencodes.cache, hencodes.blocking]
    exact h.blocking
  · rw [hencodes.cache, hencodes.status]
    exact h.status
  · rw [hencodes.blocking]
    exact h.blocking_nodup
  · rw [hencodes.status]
    exact h.status_nodup
  · have hvars := hencodes.vars
    rw [hclauses, List.mem_append] at hc
    rcases hc with hc | hc
    · exact (hadded c hc l hl).1
    · have := h.allocated c hc l hl
      omega
  · have hvars := hencodes.vars
    rcases hencodes.fresh s l hl with hl | ⟨_, hl⟩
    · have := h.named s l hl
      omega
    · exact hl
  · rw [hencodes.cache] at he
    rcases hencodes.fresh s l hl with hl | ⟨hl, _⟩
    · exact h.unnamed s l e entry hl he
    · have := h.selector_lt he
      omega

/-! ## One call -/

theorem Consistent.touch {st : PredecessorAssumptionSolver} (h : st.Consistent) {e : StateClause}
    {entry : Q2SelectorCacheEntry} {blockingQuery : Bool}
    (he : st.q2SelectorByExclusionClause.lookup e = some entry) :
    (st.touch e entry blockingQuery).Consistent := by
  unfold PredecessorAssumptionSolver.touch
  split
  · -- promotion: the entry changes lists and its flag with it
    rename_i hpromote
    rw [Bool.and_eq_true, Bool.not_eq_true'] at hpromote
    have hold : e ∉ st.q2BlockingSelectorRecency := by
      intro hmem
      obtain ⟨entry', he', hb⟩ := (h.blocking e).mp hmem
      rw [he] at he'
      cases he'
      rw [hpromote.2] at hb
      cases hb
    have hlookup : ∀ e' entry', (st.q2SelectorByExclusionClause.insert e
        { entry with blockingQuery := true }).lookup e' = some entry' →
        ∃ old, st.q2SelectorByExclusionClause.lookup e' = some old ∧
          old.selector = entry'.selector := by
      intro e' entry' he'
      by_cases heq : e' = e
      · subst heq
        rw [AList.lookup_insert] at he'
        cases he'
        exact ⟨entry, he, rfl⟩
      · rw [AList.lookup_insert_ne heq] at he'
        exact ⟨entry', he', rfl⟩
    refine ⟨fun e' entry' he' => ?_, fun e₁ entry₁ e₂ entry₂ h₁ h₂ hatom => ?_, fun e' => ?_,
      fun e' => ?_, ?_, ?_, h.allocated, h.named, fun s l e' entry' hl he' => ?_⟩
    · obtain ⟨old, hold, hselector⟩ := hlookup e' entry' he'
      obtain ⟨satLiterals, hguards⟩ := h.guards e' old hold
      rw [hselector] at hguards
      exact ⟨satLiterals, hguards.mono [] rfl (by simp) fun _ _ hs => hs⟩
    · obtain ⟨old₁, hold₁, hs₁⟩ := hlookup e₁ entry₁ h₁
      obtain ⟨old₂, hold₂, hs₂⟩ := hlookup e₂ entry₂ h₂
      exact h.distinct e₁ old₁ e₂ old₂ hold₁ hold₂ (by rw [hs₁, hs₂, hatom])
    · rw [List.mem_cons]
      by_cases heq : e' = e
      · subst heq
        simp [AList.lookup_insert]
      · rw [AList.lookup_insert_ne heq, ← h.blocking]
        simp [heq]
    · rw [h.status_nodup.mem_erase_iff]
      by_cases heq : e' = e
      · subst heq
        simp [AList.lookup_insert]
      · rw [AList.lookup_insert_ne heq, ← h.status]
        simp [heq]
    · exact List.nodup_cons.mpr ⟨hold, h.blocking_nodup⟩
    · exact h.status_nodup.erase e
    · obtain ⟨old, hold, hselector⟩ := hlookup e' entry' he'
      rw [← hselector]
      exact h.unnamed s l e' old hl hold
  · have hsplice : ∀ l : List StateClause, l.Nodup → e ∈ l →
        (e :: l.erase e).Nodup ∧ ∀ e', e' ∈ e :: l.erase e ↔ e' ∈ l := by
      intro l hl hmem
      refine ⟨List.nodup_cons.mpr ⟨hl.not_mem_erase, hl.erase e⟩, fun e' => ?_⟩
      rw [List.mem_cons, hl.mem_erase_iff]
      by_cases heq : e' = e
      · simp [heq, hmem]
      · simp [heq]
    have hguards : ∀ e entry, st.q2SelectorByExclusionClause.lookup e = some entry →
        ∃ satLiterals, st.Guards e entry.selector satLiterals := h.guards
    split
    · rename_i hb
      obtain ⟨hnodup, hmem⟩ := hsplice _ h.blocking_nodup ((h.blocking e).mpr ⟨entry, he, hb⟩)
      refine ⟨fun e' entry' he' => ?_, h.distinct, fun e' => ?_, h.status, hnodup, h.status_nodup,
        h.allocated, h.named, h.unnamed⟩
      · obtain ⟨satLiterals, hg⟩ := hguards e' entry' he'
        exact ⟨satLiterals, hg.mono [] rfl (by simp) fun _ _ hs => hs⟩
      · exact (hmem e').trans (h.blocking e')
    · rename_i hb
      rw [Bool.not_eq_true] at hb
      obtain ⟨hnodup, hmem⟩ := hsplice _ h.status_nodup ((h.status e).mpr ⟨entry, he, hb⟩)
      refine ⟨fun e' entry' he' => ?_, h.distinct, h.blocking, fun e' => ?_, h.blocking_nodup,
        hnodup, h.allocated, h.named, h.unnamed⟩
      · obtain ⟨satLiterals, hg⟩ := hguards e' entry' he'
        exact ⟨satLiterals, hg.mono [] rfl (by simp) fun _ _ hs => hs⟩
      · exact (hmem e').trans (h.status e')

theorem Consistent.not_mem {st : PredecessorAssumptionSolver} (h : st.Consistent) {e : StateClause}
    (he : st.q2SelectorByExclusionClause.lookup e = none) :
    e ∉ st.q2BlockingSelectorRecency ∧ e ∉ st.q2StatusSelectorRecency := by
  rw [h.blocking, h.status, he]
  simp

theorem Consistent.insertSelector {st : PredecessorAssumptionSolver} (h : st.Consistent)
    {e : StateClause} {satLiterals : List SatLit} (blockingQuery : Bool)
    (he : st.q2SelectorByExclusionClause.lookup e = none)
    (hencoded : st.exclusion e = .ok satLiterals) :
    (st.insertSelector e satLiterals blockingQuery).Consistent := by
  have hlits : ∀ l ∈ satLiterals, l.atom < st.vars + 2 := by
    intro l hl
    obtain ⟨s, l', hl', hatom⟩ := atom_of_mem_exclusionLiterals hencoded hl
    rw [hatom]
    exact h.named s l' hl'
  have hencoded' : (st.insertSelector e satLiterals blockingQuery).exclusion e = .ok satLiterals :=
    exclusionLiterals_mono hencoded fun _ _ hs => hs
  obtain ⟨hblocking, hstatus⟩ := h.not_mem he
  -- an old entry keeps its selector, which is an older variable
  have hlookup : ∀ e' entry', e' ≠ e →
      (st.insertSelector e satLiterals blockingQuery).q2SelectorByExclusionClause.lookup e' =
        some entry' → st.q2SelectorByExclusionClause.lookup e' = some entry' := by
    intro e' entry' hne he'
    exact (AList.lookup_insert_ne hne).symm.trans he'
  have hself : ∀ entry',
      (st.insertSelector e satLiterals blockingQuery).q2SelectorByExclusionClause.lookup e =
        some entry' → entry' = ⟨⟨st.vars + 2, true⟩, blockingQuery⟩ := by
    intro entry' he'
    exact (Option.some.inj ((AList.lookup_insert _).symm.trans he')).symm
  refine ⟨fun e' entry' he' => ?_, fun e₁ entry₁ e₂ entry₂ h₁ h₂ hatom => ?_, fun e' => ?_,
    fun e' => ?_, ?_, ?_, fun c hc l hl => ?_, fun s l hl => ?_, fun s l e' entry' hl he' => ?_⟩
  · by_cases heq : e' = e
    · subst heq
      cases hself entry' he'
      refine ⟨satLiterals, hencoded', List.mem_cons_self, fun l hl => Nat.ne_of_lt (hlits l hl),
        fun c hc hmem => ?_⟩
      rcases List.mem_cons.mp hc with rfl | hc
      · rfl
      · obtain ⟨l, hl, hatom⟩ := hmem
        have := h.allocated c hc l hl
        simp only at hatom
        omega
    · have hold := hlookup e' entry' heq he'
      obtain ⟨lits, hguards⟩ := h.guards e' entry' hold
      have hlt := h.selector_lt hold
      refine ⟨lits, hguards.mono [Lit.neg ⟨st.vars + 2, true⟩ :: satLiterals] rfl
        (fun c hc l hl hatom => ?_) fun _ _ hs => hs⟩
      rw [List.mem_singleton] at hc
      subst hc
      rcases List.mem_cons.mp hl with rfl | hl
      · simp only [Lit.neg] at hatom
        omega
      · obtain ⟨s, l', hl', hatom'⟩ := atom_of_mem_exclusionLiterals hencoded hl
        exact h.unnamed s l' e' entry' hl' hold (hatom' ▸ hatom)
  · by_cases heq₁ : e₁ = e
    · by_cases heq₂ : e₂ = e
      · rw [heq₁, heq₂]
      · subst heq₁
        cases hself entry₁ h₁
        have := h.selector_lt (hlookup e₂ entry₂ heq₂ h₂)
        simp only at hatom
        omega
    · by_cases heq₂ : e₂ = e
      · subst heq₂
        cases hself entry₂ h₂
        have := h.selector_lt (hlookup e₁ entry₁ heq₁ h₁)
        simp only at hatom
        omega
      · exact h.distinct e₁ entry₁ e₂ entry₂ (hlookup e₁ entry₁ heq₁ h₁)
          (hlookup e₂ entry₂ heq₂ h₂) hatom
  · unfold PredecessorAssumptionSolver.insertSelector
    by_cases heq : e' = e
    · subst heq
      cases blockingQuery <;> simp [AList.lookup_insert, hblocking]
    · rw [AList.lookup_insert_ne heq, ← h.blocking]
      cases blockingQuery <;> simp [heq]
  · unfold PredecessorAssumptionSolver.insertSelector
    by_cases heq : e' = e
    · subst heq
      cases blockingQuery <;> simp [AList.lookup_insert, hstatus]
    · rw [AList.lookup_insert_ne heq, ← h.status]
      cases blockingQuery <;> simp [heq]
  · unfold PredecessorAssumptionSolver.insertSelector
    cases blockingQuery with
    | true => exact List.nodup_cons.mpr ⟨hblocking, h.blocking_nodup⟩
    | false => exact h.blocking_nodup
  · unfold PredecessorAssumptionSolver.insertSelector
    cases blockingQuery with
    | true => exact h.status_nodup
    | false => exact List.nodup_cons.mpr ⟨hstatus, h.status_nodup⟩
  · change l.atom < st.vars + 1 + 2
    rcases List.mem_cons.mp hc with rfl | hc
    · rcases List.mem_cons.mp hl with rfl | hl
      · simp only [Lit.neg]
        omega
      · have := hlits l hl
        omega
    · have := h.allocated c hc l hl
      omega
  · have hlt := h.named s l hl
    change l.atom < st.vars + 1 + 2
    omega
  · by_cases heq : e' = e
    · subst heq
      cases hself entry' he'
      exact Nat.ne_of_lt (h.named s l hl)
    · exact h.unnamed s l e' entry' hl (hlookup e' entry' heq he')

end PredecessorAssumptionSolver
end KeplerFormal
