import KeplerFormal.Core.Programs
import KeplerFormal.L3Query.BaseCounterexample
import KeplerFormal.L5Strategy.PdrSystem

/-!
# The invariant that PDR runs share (`src/sec/pdr/PDREngine.cpp`)

The runs of a route share a cache. The frame clauses that a run leaves are candidates; before the
next run explores, the largest part of them that its queries certify joins an invariant, and every
frame of the run starts with its clauses.

* `storeReusableInvariantCandidates`, `refreshReusableInvariant`: what a run leaves and what the
  next one makes of it. The queries and their budget are a parameter.
* `findMaximumInductiveSubset`: candidates that a step violates are dropped until none is.
* `CertificationQueries.Right`: what is asked of the answers of the queries.
* `PDRExactInitCache.Certified`: the clauses of the invariant are inductive;
  `refreshReusableInvariant_spec` and `Certified.store` keep it.
-/
namespace KeplerFormal

open Core

def kMaxReusableInvariantCandidateLiterals : Nat := 256 * 1024

/-- What depends on the transition system alone. The solvers and indexes kept for queries, and the
budget of the certification, belong to the queries.
mirrors src/sec/pdr/PDREngine.cpp:1354-1462 -/
structure PDRExactInitCache where
  sourceProblem : KInductionProblem
  solverType : SolverType
  reusableInvariantCandidates : List StateClause := []
  reusableInvariant : FrameClauses := { clauses := [], addedClauseLog := [] }
  reusableInvariantCandidateLiteralCount : Nat := 0
  reusableInvariantCandidateRevision : Nat := 0
  reusableInvariantCertifiedRevision : Nat := 0
  reusableInvariantCertificationDisabled : Bool := false
  initFacts : Option InitFactIndex := none

/-- The clauses are sorted, and the first one that is not less is looked at.
mirrors src/sec/pdr/PDREngine.cpp:3371-3376 -/
def hasExactClause (clauses : List StateClause) (clause : StateClause) : Bool :=
  clauses.find? (fun c => !stateClauseLess c clause) == some clause

/-- Before the first clause that is not less. -/
def insertClause (clause : StateClause) (clauses : List StateClause) : List StateClause :=
  clauses.orderedInsert (fun a b => !stateClauseLess b a) clause

/-- mirrors src/sec/pdr/PDREngine.cpp:3378-3389 -/
def addReusableInvariantCandidate (candidates : List StateClause) (clause : StateClause) :
    List StateClause :=
  if hasExactClause candidates (normalizeClause clause) then candidates
  else insertClause (normalizeClause clause) candidates

/-- The candidates that are on: the flags go with the candidates. -/
def activeClauses (candidates : List StateClause) (active : List Bool) : List StateClause :=
  ((candidates.zip active).filter (·.2)).map (·.1)

/-- The queries over a problem and its start formula. A query that throws counts as unknown, as its
callers treat it. -/
structure CertificationQueries (κ : Type) where
  /-- a start state in which every literal of the clause is false -/
  violatedInitially : StateClause → Program Empty κ SolveStatus
  /-- a step from the base and the active candidates to a state that violates one of these; a model
  tells for each candidate whether it holds after the step -/
  violatedNext : List StateClause → List StateClause → List Bool →
    Program Empty κ (Answer (Nat → Bool))
  certificationBudgetExhausted : κ → Bool

namespace PDRExactInitCache
variable (cache : PDRExactInitCache)

/-- The comparison of addresses that comes first only saves this one.
mirrors src/sec/pdr/PDREngine.cpp:1379-1430 -/
def validFor (candidate : KInductionProblem) (candidateSolverType : SolverType) : Bool :=
  cache.solverType == candidateSolverType && cache.sourceProblem.sameModel candidate

/-- mirrors src/sec/pdr/PDREngine.cpp:3391-3408 -/
def injectReusableInvariantClauses (target : FrameClauses) : FrameClauses :=
  addClauses target cache.reusableInvariant.clauses

/-- The clauses of the frames above 0 that are not candidates yet. -/
def newCandidates (frames : List FrameClauses) : List StateClause :=
  ((frames.drop 1).flatMap (·.clauses)).foldl (fun additions clause =>
    if hasExactClause cache.reusableInvariantCandidates clause || hasExactClause additions clause
    then additions else insertClause clause additions) []

/-- mirrors src/sec/pdr/PDREngine.cpp:3410-3461 -/
def storeReusableInvariantCandidates (frames : List FrameClauses) : PDRExactInitCache :=
  if cache.reusableInvariantCertificationDisabled then cache
  else
    let additions := cache.newCandidates frames
    let additionalLiterals := (additions.map List.length).sum
    if additions = [] then cache
    else if kMaxReusableInvariantCandidateLiterals <
        cache.reusableInvariantCandidateLiteralCount + additionalLiterals then cache
    else { cache with
      reusableInvariantCandidates :=
        additions.foldl addReusableInvariantCandidate cache.reusableInvariantCandidates
      reusableInvariantCandidateLiteralCount :=
        cache.reusableInvariantCandidateLiteralCount + additionalLiterals
      reusableInvariantCandidateRevision := cache.reusableInvariantCandidateRevision + 1 }

/-! ## The finder -/

/-- mirrors src/sec/pdr/PDREngine.cpp:3642-3653 -/
def uncertifiedCandidates : List StateClause :=
  cache.reusableInvariantCandidates.filter fun candidate =>
    !hasExactClause cache.reusableInvariant.clauses candidate

/-- mirrors src/sec/pdr/PDREngine.cpp:3729-3741 -/
def hasKnownInitConflict (candidate : StateClause) : Bool :=
  match cache.initFacts with
  | some initFacts => (initFacts.knownInitConflictCube (cubeFromClauseNegation candidate)).isSome
  | none => cubeContradictsKnownInitFacts cache.sourceProblem (cubeFromClauseNegation candidate)

section Finder
variable {κ : Type} (Q : CertificationQueries κ)

/-- Whether each candidate holds in every start state; `none` where a query is unknown.
mirrors src/sec/pdr/PDREngine.cpp:3697-3793 -/
def findInitiallyValidCandidates : List StateClause → Program Empty κ (Option (List Bool))
  | [] => return some []
  | candidate :: candidates => do
    if cache.hasKnownInitConflict candidate then
      let initiallyValid ← findInitiallyValidCandidates candidates
      return initiallyValid.map (true :: ·)
    else
      match ← Q.violatedInitially candidate with
      | .unknown => return none
      | status =>
        let initiallyValid ← findInitiallyValidCandidates candidates
        return initiallyValid.map ((status == .unsat) :: ·)

end Finder

end PDRExactInitCache

/-- mirrors src/sec/pdr/PDREngine.cpp:3980-3987 -/
def buildInvariant (base : FrameClauses) (candidates : List StateClause) (active : List Bool) :
    FrameClauses :=
  { addClauses base (activeClauses candidates active) with addedClauseLog := [] }

/-- mirrors src/sec/pdr/PDREngine.cpp:3928-3938 -/
def removeViolatedCandidates (nextHolds : Nat → Bool) (active : List Bool) : List Bool :=
  active.mapIdx fun i on => on && nextHolds i

/-- Each turn turns a candidate off, so as many turns as there are active ones are enough.
mirrors src/sec/pdr/PDREngine.cpp:3989-4068 -/
def findMaximumInductiveSubset {κ : Type} (Q : CertificationQueries κ) (base : FrameClauses)
    (candidates : List StateClause) : Nat → List Bool → Program Empty κ (Option FrameClauses)
  | 0, _ => return some base
  | turns + 1, active => do
    if true ∈ active then
      match ← Q.violatedNext base.clauses candidates active with
      | .unknown => return none
      | .unsat => return some (buildInvariant base candidates active)
      | .sat nextHolds =>
        if removeViolatedCandidates nextHolds active = active then return none
        else
          findMaximumInductiveSubset Q base candidates turns
            (removeViolatedCandidates nextHolds active)
    else return some base

namespace PDRExactInitCache
variable (cache : PDRExactInitCache) {κ : Type} (Q : CertificationQueries κ)

/-- mirrors src/sec/pdr/PDREngine.cpp:3657-3678 -/
def findReusableInvariant : Program Empty κ (Option FrameClauses) := do
  if cache.uncertifiedCandidates = [] then return some cache.reusableInvariant
  else
    match ← cache.findInitiallyValidCandidates Q cache.uncertifiedCandidates with
    | none => return none
    | some active =>
      if true ∈ active then
        findMaximumInductiveSubset Q cache.reusableInvariant cache.uncertifiedCandidates
          (active.count true) active
      else return some cache.reusableInvariant

/-- mirrors src/sec/pdr/PDREngine.cpp:4091-4100 -/
def retainOnlyCertifiedReusableInvariant : PDRExactInitCache :=
  { cache with
    reusableInvariantCandidates := cache.reusableInvariant.clauses
    reusableInvariantCandidateLiteralCount := (cache.reusableInvariant.clauses.map List.length).sum
    reusableInvariantCertifiedRevision := cache.reusableInvariantCandidateRevision }

/-- mirrors src/sec/pdr/PDREngine.cpp:4124-4148 -/
def disableReusableInvariantCertification : PDRExactInitCache :=
  { cache.retainOnlyCertifiedReusableInvariant with reusableInvariantCertificationDisabled := true }

/-- The certification ends for good when its budget is exhausted. -/
def disableIfExhausted (caches : κ) : PDRExactInitCache :=
  if Q.certificationBudgetExhausted caches then cache.disableReusableInvariantCertification
  else cache

/-- mirrors src/sec/pdr/PDREngine.cpp:4150-4208 -/
def refreshReusableInvariant : Program Empty κ PDRExactInitCache := do
  if cache.reusableInvariantCertificationDisabled ||
      cache.reusableInvariantCandidateRevision == cache.reusableInvariantCertifiedRevision then
    return cache
  else
    let result ← cache.findReusableInvariant Q
    let caches ← get
    match result with
    | none => return cache.disableIfExhausted Q caches
    | some invariant =>
      return ({ cache with reusableInvariant := invariant
        }.retainOnlyCertifiedReusableInvariant).disableIfExhausted Q caches

end PDRExactInitCache

/-! ## Turns of the finder -/

theorem removeViolatedCandidates_cons (nextHolds : Nat → Bool) (on : Bool) (active : List Bool) :
    removeViolatedCandidates nextHolds (on :: active) =
      (on && nextHolds 0) :: removeViolatedCandidates (fun i => nextHolds (i + 1)) active :=
  List.mapIdx_cons

/-- A turn that goes on turns a candidate off. -/
theorem count_removeViolatedCandidates (nextHolds : Nat → Bool) (active : List Bool) :
    (removeViolatedCandidates nextHolds active).count true ≤ active.count true ∧
      (removeViolatedCandidates nextHolds active ≠ active →
        (removeViolatedCandidates nextHolds active).count true < active.count true) := by
  induction active generalizing nextHolds with
  | nil => exact ⟨Nat.le_refl _, fun hne => absurd rfl hne⟩
  | cons on active ih =>
    obtain ⟨hle, hlt⟩ := ih fun i => nextHolds (i + 1)
    rw [removeViolatedCandidates_cons]
    cases on with
    | false =>
      simp only [Bool.false_and, List.count_cons, beq_iff_eq, Bool.false_eq_true, if_false,
        Nat.add_zero, ne_eq, List.cons.injEq, true_and]
      exact ⟨hle, hlt⟩
    | true =>
      cases nextHolds 0 with
      | true =>
        simp only [Bool.and_self, List.count_cons_self, ne_eq, List.cons.injEq, true_and]
        exact ⟨by omega, fun hne => by have := hlt hne; omega⟩
      | false =>
        have hoff : (false :: removeViolatedCandidates (fun i => nextHolds (i + 1)) active).count
            true = (removeViolatedCandidates (fun i => nextHolds (i + 1)) active).count true :=
          List.count_cons_of_ne Bool.false_ne_true
        rw [Bool.and_false, hoff, List.count_cons_self]
        omega

/-- More turns than active candidates change nothing. -/
theorem findMaximumInductiveSubset_turns {κ : Type} (Q : CertificationQueries κ)
    (base : FrameClauses) (candidates : List StateClause) {turns : Nat} {active : List Bool}
    (h : active.count true ≤ turns) :
    findMaximumInductiveSubset Q base candidates (turns + 1) active =
      findMaximumInductiveSubset Q base candidates turns active := by
  induction turns generalizing active with
  | zero =>
    have hnone : true ∉ active := List.count_eq_zero.mp (Nat.le_zero.mp h)
    change (if true ∈ active then _ else pure (some base)) = _
    rw [if_neg hnone]
    rfl
  | succ turns ih =>
    rw [findMaximumInductiveSubset, findMaximumInductiveSubset]
    split
    · congr 1
      funext answer
      cases answer with
      | unknown => rfl
      | unsat => rfl
      | sat nextHolds =>
        dsimp only
        split
        · rfl
        · next hne =>
          have hlt := (count_removeViolatedCandidates nextHolds active).2 hne
          exact ih (by omega)
    · rfl

/-! ## Certified clauses -/

def ClausesHold (clauses : List StateClause) (v : Valuation) : Prop :=
  ∀ clause ∈ clauses, ClauseHolds (lit v) clause

/-- The answers of the queries are right where they exclude something: `Idle` is what the caches of
the queries keep between runs. -/
structure CertificationQueries.Right {κ : Type} (Q : CertificationQueries κ)
    (T : LTS Valuation Unit) (Idle : κ → Prop) : Prop where
  initially : ∀ clause, Program.Triple Idle (Q.violatedInitially clause) fun status caches =>
    Idle caches ∧ (status = .unsat → ∀ v, T.init v → ClauseHolds (lit v) clause)
  next : ∀ base candidates active, Program.Triple Idle (Q.violatedNext base candidates active)
    fun answer caches => Idle caches ∧ (answer = .unsat → ∀ v v', T.step v () v' →
      ClausesHold base v → ClausesHold (activeClauses candidates active) v →
        ClausesHold (activeClauses candidates active) v')

/-- The shared invariant is one of the system from its exact start states. -/
structure PDRExactInitCache.Certified (cache : PDRExactInitCache) : Prop where
  kept : ∃ accepted added, FrameInv cache.reusableInvariant accepted added
  facts : ∀ index, cache.initFacts = some index → index = cache.sourceProblem.buildInitFactIndex
  invariant : ∀ initFormula, cache.sourceProblem.buildExactPdrInitFormula = .ok initFormula →
    (cache.sourceProblem.pdrSystem initFormula).Inductive
      (ClausesHold cache.reusableInvariant.clauses)

theorem activeClauses_cons (candidate : StateClause) (candidates : List StateClause) (on : Bool)
    (active : List Bool) : activeClauses (candidate :: candidates) (on :: active) =
      if on then candidate :: activeClauses candidates active
      else activeClauses candidates active := by
  cases on <;> rfl

theorem activeClauses_removeViolatedCandidates {nextHolds : Nat → Bool}
    {candidates : List StateClause} {active : List Bool} {v : Valuation}
    (h : ClausesHold (activeClauses candidates active) v) :
    ClausesHold (activeClauses candidates (removeViolatedCandidates nextHolds active)) v := by
  induction candidates generalizing active nextHolds with
  | nil => exact fun clause hclause => absurd hclause List.not_mem_nil
  | cons candidate candidates ih =>
    cases active with
    | nil => exact fun clause hclause => absurd hclause List.not_mem_nil
    | cons on active =>
      rw [removeViolatedCandidates_cons]
      rw [activeClauses_cons] at h ⊢
      cases on with
      | false => exact ih h
      | true =>
        obtain ⟨hfirst, hrest⟩ := List.forall_mem_cons.mp h
        cases nextHolds 0 with
        | true => exact List.forall_mem_cons.mpr ⟨hfirst, ih hrest⟩
        | false => exact ih hrest

theorem FrameInv.clearLog {frame : FrameClauses} {accepted added : List StateClause}
    (h : FrameInv frame accepted added) :
    FrameInv { frame with addedClauseLog := [] } [] added where
  normalized := h.normalized
  sorted := h.sorted
  antichain := h.antichain
  closure := h.closure
  log := rfl
  once := List.nodup_nil
  covered _ hc := absurd hc List.not_mem_nil

namespace PDRExactInitCache
variable {κ : Type} {Q : CertificationQueries κ} {Idle : κ → Prop} {cache : PDRExactInitCache}
  {initFormula : BoolExpr}

/-! ## The finder -/

section Finder
variable (hinit : cache.sourceProblem.buildExactPdrInitFormula = .ok initFormula)
  (hQ : Q.Right (cache.sourceProblem.pdrSystem initFormula) Idle)

include hinit

theorem clauseHolds_of_knownInitConflict (hcache : cache.Certified) {candidate : StateClause}
    (h : cache.hasKnownInitConflict candidate = true) {v : Valuation}
    (hv : (cache.sourceProblem.pdrSystem initFormula).init v) :
    ClauseHolds (lit v) candidate := by
  have hout : ¬ (cubeFromClauseNegation candidate).Holds v := by
    unfold hasKnownInitConflict at h
    split at h
    · next index hindex =>
      obtain ⟨conflict, hconflict⟩ := Option.isSome_iff_exists.mp h
      rw [hcache.facts index hindex] at hconflict
      exact (KInductionProblem.outside_of_knownConflict hconflict
        (KInductionProblem.startFacts_of_init hinit hv)).2
    · exact KInductionProblem.outside_of_contradicts h hinit hv
  rwa [holds_cubeFromClauseNegation, not_not] at hout

include hQ

/-- The candidates that stay on hold in every start state. -/
theorem findInitiallyValidCandidates_spec (hcache : cache.Certified)
    (candidates : List StateClause) :
    Program.Triple Idle (cache.findInitiallyValidCandidates Q candidates) fun found caches =>
      Idle caches ∧ ∀ active, found = some active →
        ∀ v, (cache.sourceProblem.pdrSystem initFormula).init v →
          ClausesHold (activeClauses candidates active) v := by
  induction candidates with
  | nil =>
    refine .ret _ fun caches h => ⟨h, fun active _ v _ clause hclause => ?_⟩
    exact absurd hclause List.not_mem_nil
  | cons candidate candidates ih =>
    have hjoin : ∀ on, (on = true → ∀ v, (cache.sourceProblem.pdrSystem initFormula).init v →
        ClauseHolds (lit v) candidate) →
        Program.Triple Idle (do
          let initiallyValid ← cache.findInitiallyValidCandidates Q candidates
          return initiallyValid.map (on :: ·)) fun found caches =>
        Idle caches ∧ ∀ active, found = some active →
          ∀ v, (cache.sourceProblem.pdrSystem initFormula).init v →
            ClausesHold (activeClauses (candidate :: candidates) active) v := by
      intro on hon
      refine ih.known fun found hfound => .ret _ fun caches h => ⟨h, fun active hactive v hv => ?_⟩
      obtain ⟨rest, rfl, rfl⟩ := Option.map_eq_some_iff.mp hactive
      have hrest := hfound rest rfl v hv
      rw [activeClauses_cons]
      cases on with
      | false => exact hrest
      | true => exact List.forall_mem_cons.mpr ⟨hon rfl v hv, hrest⟩
    rw [findInitiallyValidCandidates]
    refine .ite (fun hknown => hjoin true fun _ v hv =>
      clauseHolds_of_knownInitConflict hinit hcache hknown hv) fun _ => ?_
    refine (hQ.initially candidate).known fun status hstatus => ?_
    cases status with
    | unknown => exact .ret _ fun caches h => ⟨h, fun active heq => by cases heq⟩
    | sat => exact hjoin false fun heq => by cases heq
    | unsat => exact hjoin true fun _ => hstatus rfl

omit hinit in
/-- What stays on is inductive together with the base. -/
theorem findMaximumInductiveSubset_spec {base : FrameClauses} {candidates : List StateClause}
    (hkept : ∃ accepted added, FrameInv base accepted added)
    (hbase : (cache.sourceProblem.pdrSystem initFormula).Inductive (ClausesHold base.clauses))
    (turns : Nat) (active : List Bool)
    (hactive : ∀ v, (cache.sourceProblem.pdrSystem initFormula).init v →
      ClausesHold (activeClauses candidates active) v) :
    Program.Triple Idle (findMaximumInductiveSubset Q base candidates turns active)
      fun found caches => Idle caches ∧ ∀ invariant, found = some invariant →
        (∃ accepted added, FrameInv invariant accepted added) ∧
        (cache.sourceProblem.pdrSystem initFormula).Inductive (ClausesHold invariant.clauses) := by
  have hstays : ∀ caches, Idle caches → Idle caches ∧ ∀ invariant, some base = some invariant →
      (∃ accepted added, FrameInv invariant accepted added) ∧
      (cache.sourceProblem.pdrSystem initFormula).Inductive (ClausesHold invariant.clauses) := by
    intro caches h
    refine ⟨h, fun invariant heq => ?_⟩
    rw [← Option.some.inj heq]
    exact ⟨hkept, hbase⟩
  induction turns generalizing active with
  | zero => exact .ret _ hstays
  | succ turns ih =>
    refine .ite (fun _ => ?_) fun _ => .ret _ hstays
    refine (hQ.next base.clauses candidates active).known fun answer hanswer => ?_
    cases answer with
    | unknown => exact .ret _ fun caches h => ⟨h, fun invariant heq => by cases heq⟩
    | sat nextHolds =>
      exact .ite (fun _ => .ret _ fun caches h => ⟨h, fun invariant heq => by cases heq⟩)
        fun _ => ih _ fun v hv => activeClauses_removeViolatedCandidates (hactive v hv)
    | unsat =>
      refine .ret _ fun caches h => ⟨h, fun invariant heq => ?_⟩
      rw [← Option.some.inj heq]
      obtain ⟨accepted, added, hframe⟩ := hkept
      obtain ⟨⟨accepted', added', hframe'⟩, hholds⟩ :=
        hframe.addClauses (activeClauses candidates active)
      have hboth : ∀ v, ClausesHold (buildInvariant base candidates active).clauses v ↔
          ClausesHold base.clauses v ∧ ClausesHold (activeClauses candidates active) v :=
        fun v => hholds (lit v)
      refine ⟨⟨[], added', hframe'.clearLog⟩, fun v hv => ?_, fun v l v' hv hstep => ?_⟩
      · exact (hboth v).mpr ⟨hbase.init v hv, hactive v hv⟩
      · obtain ⟨hold, hon⟩ := (hboth v).mp hv
        exact (hboth v').mpr ⟨hbase.step v l v' hold hstep, hanswer rfl v v' hstep hold hon⟩

theorem findReusableInvariant_spec (hcache : cache.Certified) :
    Program.Triple Idle (cache.findReusableInvariant Q) fun found caches =>
      Idle caches ∧ ∀ invariant, found = some invariant →
        (∃ accepted added, FrameInv invariant accepted added) ∧
        (cache.sourceProblem.pdrSystem initFormula).Inductive (ClausesHold invariant.clauses) := by
  have hstays : ∀ caches, Idle caches → Idle caches ∧
      ∀ invariant, some cache.reusableInvariant = some invariant →
        (∃ accepted added, FrameInv invariant accepted added) ∧
        (cache.sourceProblem.pdrSystem initFormula).Inductive (ClausesHold invariant.clauses) := by
    intro caches h
    refine ⟨h, fun invariant heq => ?_⟩
    rw [← Option.some.inj heq]
    exact ⟨hcache.kept, hcache.invariant initFormula hinit⟩
  refine .ite (fun _ => .ret _ hstays) fun _ => ?_
  refine (findInitiallyValidCandidates_spec hinit hQ hcache _).known fun found hfound => ?_
  cases found with
  | none => exact .ret _ fun caches h => ⟨h, fun invariant heq => by cases heq⟩
  | some active =>
    refine .ite (fun _ => ?_) fun _ => .ret _ hstays
    exact findMaximumInductiveSubset_spec hQ hcache.kept (hcache.invariant initFormula hinit) _
      active (hfound active rfl)

end Finder

/-! ## The cache over runs -/

/-- The cache is still the one for its problem. -/
structure SameSource (cache cache' : PDRExactInitCache) : Prop where
  problem : cache'.sourceProblem = cache.sourceProblem
  solver : cache'.solverType = cache.solverType

theorem Certified.retain (h : cache.Certified) :
    cache.retainOnlyCertifiedReusableInvariant.Certified := ⟨h.kept, h.facts, h.invariant⟩

theorem Certified.disableIfExhausted (h : cache.Certified) (caches : κ) :
    (cache.disableIfExhausted Q caches).Certified ∧
      cache.SameSource (cache.disableIfExhausted Q caches) := by
  unfold PDRExactInitCache.disableIfExhausted
  split
  · exact ⟨⟨h.kept, h.facts, h.invariant⟩, rfl, rfl⟩
  · exact ⟨h, rfl, rfl⟩

/-- A run starts with a certified invariant. -/
theorem refreshReusableInvariant_spec (hcache : cache.Certified)
    (hinit : cache.sourceProblem.buildExactPdrInitFormula = .ok initFormula)
    (hQ : Q.Right (cache.sourceProblem.pdrSystem initFormula) Idle) :
    Program.Triple Idle (cache.refreshReusableInvariant Q) fun refreshed caches =>
      Idle caches ∧ refreshed.Certified ∧ cache.SameSource refreshed := by
  refine .ite (fun _ => .ret _ fun caches h => ⟨h, hcache, rfl, rfl⟩) fun _ => ?_
  refine (findReusableInvariant_spec hinit hQ hcache).known fun found hfound =>
    Program.Triple.get.bind fun caches' => ?_
  cases found with
  | none => exact .ret _ fun caches h => ⟨h.1, hcache.disableIfExhausted caches'⟩
  | some invariant =>
    refine .ret _ fun caches h => ⟨h.1, ?_⟩
    obtain ⟨hkept, hinductive⟩ := hfound invariant rfl
    have hnew : ({ cache with reusableInvariant := invariant } : PDRExactInitCache).Certified := by
      refine ⟨hkept, hcache.facts, fun initFormula' hinit' => ?_⟩
      obtain rfl : initFormula = initFormula' := Except.ok.inj (hinit.symm.trans hinit')
      exact hinductive
    obtain ⟨hcertified, hsame⟩ := hnew.retain.disableIfExhausted (Q := Q) caches'
    exact ⟨hcertified, hsame.problem, hsame.solver⟩

/-- What a run leaves are candidates only. -/
theorem Certified.store (h : cache.Certified) (frames : List FrameClauses) :
    (cache.storeReusableInvariantCandidates frames).Certified ∧
      cache.SameSource (cache.storeReusableInvariantCandidates frames) := by
  unfold storeReusableInvariantCandidates
  dsimp only
  split
  · exact ⟨h, rfl, rfl⟩
  · split
    · exact ⟨h, rfl, rfl⟩
    · split
      · exact ⟨h, rfl, rfl⟩
      · exact ⟨⟨h.kept, h.facts, h.invariant⟩, rfl, rfl⟩

end PDRExactInitCache

end KeplerFormal
