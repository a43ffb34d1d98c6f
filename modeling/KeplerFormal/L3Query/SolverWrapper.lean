import Mathlib.Algebra.BigOperators.Group.List.Basic
import Mathlib.Algebra.Order.Ring.Abs
import Mathlib.Logic.Function.Basic
import KeplerFormal.Core.Runs
import KeplerFormal.L3Query.BaseCounterexample

/-!
# The solver wrapper (`src/sat/SATSolverWrapper.h`)

One class stands before three SAT libraries. Only the CaDiCaL one takes a cumulative work
budget: a bounded query is charged to the budget of the innermost scope, an exact query
is not. CaDiCaL consumes the assumptions enqueued since its last solve.

* `SolverLibraries`: the libraries, as functions of their hidden state.
* `SATSolverWrapper.query`: one query, with what it leaves behind when it throws.
* `wrapperSystem`: any number of wrappers and budgets, with scopes and edits of the
  clauses between the queries.
* `workBudget_discipline`: what holds in every run; `exactQuery_answers`: an exact query
  is answered after exhaustion.
* `exhaustiveLibraries`: a library that tries all models, for the runs at the end.
-/
namespace KeplerFormal

open Core

/-! ## The work budget -/

inductive Resource where
  | conflicts
  | decisions
  | ticks
  deriving DecidableEq, Repr

abbrev Work := Resource → Nat

/-- mirrors src/sat/SATSolverWrapper.h:37-92 -/
structure CadicalWorkBudget where
  limit : Work
  used : Work := fun _ => 0

namespace CadicalWorkBudget
variable (b : CadicalWorkBudget)

def remaining (r : Resource) : Nat := if b.limit r ≤ b.used r then 0 else b.limit r - b.used r

def exhausted : Bool :=
  b.remaining .conflicts == 0 || b.remaining .decisions == 0 || b.remaining .ticks == 0

def consume (work : Work) : CadicalWorkBudget :=
  { b with used := fun r => b.used r + min (work r) (b.remaining r) }

variable {b}

theorem exhausted_iff : b.exhausted = true ↔ ∃ r, b.limit r ≤ b.used r := by
  have hremaining : ∀ r, b.remaining r = 0 ↔ b.limit r ≤ b.used r := by
    intro r
    unfold remaining
    split
    · simp_all
    · omega
  simp only [exhausted, Bool.or_eq_true, beq_iff_eq, hremaining]
  constructor
  · intro h
    rcases h with (h | h) | h
    · exact ⟨_, h⟩
    · exact ⟨_, h⟩
    · exact ⟨_, h⟩
  · intro h
    obtain ⟨r, h⟩ := h
    cases r with
    | conflicts => exact .inl (.inl h)
    | decisions => exact .inl (.inr h)
    | ticks => exact .inr h

@[simp] theorem limit_consume (work : Work) : (b.consume work).limit = b.limit := rfl

/-- The charge is cut at the limit. -/
theorem used_consume (work : Work) {r : Resource} (h : b.used r ≤ b.limit r) :
    (b.consume work).used r = min (b.limit r) (b.used r + work r) := by
  unfold consume remaining
  simp only
  split <;> omega

end CadicalWorkBudget

/-! ## The libraries -/

/-- A variable and whether it is negated. -/
structure GlucoseLit where
  var : Nat
  sign : Bool
  deriving DecidableEq, Repr

/-- What the libraries compute from their hidden state `σ`. A CaDiCaL or Kissat solve
returns 10, 20 or something else; a Glucose solve returns its verdict and the final
conflict clause. -/
structure SolverLibraries (σ : Type) where
  cadicalResize : σ → Nat → σ
  cadicalSolve : σ → List Int → (Resource → Int) → Int × σ
  cadicalStatistic : σ → Resource → Int
  cadicalFailed : σ → Int → Bool
  kissatSetLimit : σ → Resource → Nat → σ
  kissatSolve : σ → Int × σ
  glucoseNewVars : σ → Nat → σ
  glucoseSolve : σ → List GlucoseLit → Option Int → Option Int → SolveStatus × List GlucoseLit × σ

/-- The final conflict clause negates assumptions, and there is one only without a model. -/
def SolverLibraries.ConflictClauses {σ : Type} (lib : SolverLibraries σ) : Prop :=
  ∀ s assumptions conflictBudget propagationBudget status conflict s',
    lib.glucoseSolve s assumptions conflictBudget propagationBudget = (status, conflict, s') →
      (status ≠ .unsat → conflict = []) ∧
        ∀ l ∈ conflict, (⟨l.var, !l.sign⟩ : GlucoseLit) ∈ assumptions

/-- `pending` are the assumptions CaDiCaL has not consumed, `conflict` is Glucose's clause. -/
structure SATSolverWrapper (σ : Type) where
  solverType : SolverType
  inner : σ
  pending : List Int := []
  conflict : List GlucoseLit := []
  cadicalNumVars : Nat := 0
  cadicalReservedVars : Nat := 0
  lastAssumptions : List Int := []
  lastAssumptionSolveStatus : SolveStatus := .unknown

/-- The calls that ask for an answer. A negative limit is none. -/
inductive SolverQuery where
  | solveStatus
  | solveWithResourceLimits (conflictLimit decisionLimit : Option Nat)
  | solveWithAssumptionsStatus (assumptions : List Int) (limits : Resource → Int)

namespace SolverQuery

def assumptions : SolverQuery → List Int
  | .solveWithAssumptionsStatus assumptions _ => assumptions
  | _ => []

/-- `useCumulativeBudget` of the query. -/
def bounded : SolverQuery → Bool
  | .solveStatus => false
  | .solveWithResourceLimits _ _ => true
  | .solveWithAssumptionsStatus _ limits =>
    decide (0 ≤ limits .conflicts) || decide (0 ≤ limits .decisions) || decide (0 ≤ limits .ticks)

end SolverQuery

def maxInt : Int := 2147483647

/-- mirrors src/sat/SATSolverWrapper.h:1149-1158 -/
def effectiveCadicalLimit (queryLimit : Int) (remainingBudget : Nat) : Int :=
  let boundedRemaining := min (remainingBudget : Int) maxInt
  if queryLimit < 0 then boundedRemaining else min queryLimit boundedRemaining

def cadicalApiLimit (limit : Int) : Int := if limit < 0 then -1 else min limit maxInt

def statusOfCode (result : Int) : SolveStatus :=
  if result = 10 then .sat else if result = 20 then .unsat else .unknown

namespace SATSolverWrapper
variable {σ : Type} (lib : SolverLibraries σ)

/-- What a solve leaves behind; `charge` is the argument of `consume`. -/
structure CadicalRun (σ : Type) where
  status : SolveStatus
  wrapper : SATSolverWrapper σ
  active : Option CadicalWorkBudget
  charge : Option Work := none

/-- The same of a call that may throw: an answer or the text of the exception. -/
structure Outcome (σ : Type) where
  answer : Except String SolveStatus
  wrapper : SATSolverWrapper σ
  active : Option CadicalWorkBudget
  charge : Option Work := none

def CadicalRun.outcome (run : CadicalRun σ) : Outcome σ :=
  ⟨.ok run.status, run.wrapper, run.active, run.charge⟩

def Outcome.threw (out : Outcome σ) : Bool :=
  match out.answer with
  | .ok _ => false
  | .error _ => true

/-- The query answered last, once this one is over. -/
def Outcome.lastAnswered (out : Outcome σ) (q : SolverQuery)
    (last : Option (List Int × SolveStatus)) : Option (List Int × SolveStatus) :=
  match out.answer with
  | .ok status => some (q.assumptions, status)
  | .error _ => last

/-- The work of a solve, from the statistics before and after it. -/
def measuredWork (before after : σ) : Work := fun r =>
  (lib.cadicalStatistic after r - lib.cadicalStatistic before r).toNat

/-- mirrors src/sat/SATSolverWrapper.h:1168-1228 -/
def solveCadicalWithResourceLimits (w : SATSolverWrapper σ) (active : Option CadicalWorkBudget)
    (limits : Resource → Int) (useCumulativeBudget : Bool) : CadicalRun σ :=
  match if useCumulativeBudget then active else none with
  | some budget =>
    if budget.exhausted then { status := .unknown, wrapper := w, active }
    else
      let run := lib.cadicalSolve w.inner w.pending fun r =>
        cadicalApiLimit (effectiveCadicalLimit (limits r) (budget.remaining r))
      let work := measuredWork lib w.inner run.2
      { status := statusOfCode run.1
        wrapper := { w with inner := run.2, pending := [] }
        active := some (budget.consume work)
        charge := some work }
  | none =>
    let run := lib.cadicalSolve w.inner w.pending fun r => cadicalApiLimit (limits r)
    { status := statusOfCode run.1, wrapper := { w with inner := run.2, pending := [] }, active }

/-- mirrors src/sat/SATSolverWrapper.h:298-321 -/
def reserveVars (w : SATSolverWrapper σ) (numVars : Nat) : Except String (SATSolverWrapper σ) :=
  if numVars ≤ w.cadicalReservedVars then .ok w
  else
    let growthSlack := max (w.cadicalReservedVars / 2) 4096
    let targetVars := if w.cadicalReservedVars = 0 then numVars
      else max numVars (w.cadicalReservedVars + growthSlack)
    if maxInt < (targetVars : Int) then .error "CaDiCaL variable reservation exceeds int range"
    else .ok { w with
      inner := lib.cadicalResize w.inner targetVars
      cadicalReservedVars := targetVars }

def cadicalLiteral (lit : Int) : Int := if 0 < lit then lit.natAbs - 1 else -(lit.natAbs - 1)

/-- The loop over the assumptions; an exception keeps the ones enqueued before it.
mirrors src/sat/SATSolverWrapper.h:671-695 -/
def assumeAll : SATSolverWrapper σ → List Int → Except String Unit × SATSolverWrapper σ
  | w, [] => (.ok (), w)
  | w, lit :: lits =>
    if lit = 0 ∨ lit = 1 then (.error "Constant literal (0/1) passed as CaDiCaL assumption", w)
    else if lit.natAbs < 2 then (.error "Invalid literal (<2) passed as CaDiCaL assumption", w)
    else
      let numVars := lit.natAbs - 1
      if w.cadicalNumVars < numVars then
        match reserveVars lib { w with cadicalNumVars := numVars } numVars with
        | .error message => (.error message, { w with cadicalNumVars := numVars })
        | .ok w => assumeAll { w with pending := w.pending ++ [cadicalLiteral lit] } lits
      else assumeAll { w with pending := w.pending ++ [cadicalLiteral lit] } lits

/-- The CaDiCaL branch of the query with assumptions.
mirrors src/sat/SATSolverWrapper.h:658-708 -/
def cadicalWithAssumptions (w : SATSolverWrapper σ) (active : Option CadicalWorkBudget)
    (assumptions : List Int) (limits : Resource → Int) (useCumulativeBudget : Bool) : Outcome σ :=
  let w := { w with lastAssumptions := assumptions, lastAssumptionSolveStatus := .unknown }
  if useCumulativeBudget && active.any (·.exhausted) then
    { answer := .ok .unknown, wrapper := { w with lastAssumptions := [] }, active }
  else
    match assumeAll lib w assumptions with
    | (.error message, w) => { answer := .error message, wrapper := w, active }
    | (.ok (), w) =>
      let run := solveCadicalWithResourceLimits lib w active limits useCumulativeBudget
      { run.outcome with
        wrapper := { run.wrapper with
          lastAssumptionSolveStatus := run.status
          lastAssumptions := if run.status = .unsat then run.wrapper.lastAssumptions else [] } }

def glucoseLit (lit : Int) : GlucoseLit := ⟨lit.natAbs - 2, decide (lit < 0)⟩

/-- mirrors src/sat/SATSolverWrapper.h:575-605 -/
def glucoseAssumptions : SATSolverWrapper σ → List Int →
    Except String (List GlucoseLit) × SATSolverWrapper σ
  | w, [] => (.ok [], w)
  | w, lit :: lits =>
    if lit = 0 ∨ lit = 1 then (.error "Constant literal (0/1) passed as Glucose assumption", w)
    else if lit.natAbs < 2 then (.error "Invalid literal (<2) passed as Glucose assumption", w)
    else
      match glucoseAssumptions { w with inner := lib.glucoseNewVars w.inner (lit.natAbs - 1) }
        lits with
      | (.error message, w) => (.error message, w)
      | (.ok rest, w) => (.ok (glucoseLit lit :: rest), w)

/-- A Glucose solve; without a budget its only verdicts are the two definite ones. -/
def solveGlucose (w : SATSolverWrapper σ) (assumptions : List GlucoseLit)
    (conflictBudget propagationBudget : Option Int) : SolveStatus × SATSolverWrapper σ :=
  let run := lib.glucoseSolve w.inner assumptions conflictBudget propagationBudget
  let definite := conflictBudget.isNone && propagationBudget.isNone
  (if definite && run.1 != .sat then .unsat else run.1,
    { w with inner := run.2.2, conflict := run.2.1 })

def solveKissat (w : SATSolverWrapper σ) : SolveStatus × SATSolverWrapper σ :=
  let run := lib.kissatSolve w.inner
  (statusOfCode run.1, { w with inner := run.2 })

/-- A limit that is set, for a library that takes none otherwise. -/
def setLimit (limit : Int) : Option Int := if 0 ≤ limit then some limit else none

def glucoseQuery (w : SATSolverWrapper σ) (active : Option CadicalWorkBudget) (q : SolverQuery) :
    Outcome σ :=
  match q with
  | .solveStatus =>
    let run := solveGlucose lib w [] none none
    { answer := .ok run.1, wrapper := run.2, active }
  | .solveWithResourceLimits conflictLimit decisionLimit =>
    let run := lib.glucoseSolve w.inner [] (conflictLimit.map Int.ofNat)
      (decisionLimit.map Int.ofNat)
    { answer := .ok run.1, wrapper := { w with inner := run.2.2, conflict := run.2.1 }, active }
  | .solveWithAssumptionsStatus assumptions limits =>
    match glucoseAssumptions lib w assumptions with
    | (.error message, w) => { answer := .error message, wrapper := w, active }
    | (.ok lits, w) =>
      let run := solveGlucose lib w lits (setLimit (limits .conflicts))
        (setLimit (limits .decisions))
      { answer := .ok run.1, wrapper := run.2, active }

def kissatQuery (w : SATSolverWrapper σ) (active : Option CadicalWorkBudget) (q : SolverQuery) :
    Outcome σ :=
  match q with
  | .solveStatus =>
    let run := solveKissat lib w
    { answer := .ok run.1, wrapper := run.2, active }
  | .solveWithResourceLimits conflictLimit decisionLimit =>
    let set (r : Resource) (limit : Option Nat) (s : σ) : σ :=
      match limit with
      | some n => lib.kissatSetLimit s r n
      | none => s
    let run := solveKissat lib
      { w with inner := set .decisions decisionLimit (set .conflicts conflictLimit w.inner) }
    { answer := .ok run.1, wrapper := run.2, active }
  | .solveWithAssumptionsStatus assumptions _ =>
    if assumptions = [] then
      let run := solveKissat lib w
      { answer := .ok run.1, wrapper := run.2, active }
    else
      { answer := .error "Kissat assumptions are not available in this build"
        wrapper := w
        active }

def cadicalQuery (w : SATSolverWrapper σ) (active : Option CadicalWorkBudget) (q : SolverQuery) :
    Outcome σ :=
  match q with
  | .solveStatus =>
    (solveCadicalWithResourceLimits lib
      { w with lastAssumptionSolveStatus := .unknown, lastAssumptions := [] } active
      (fun _ => -1) false).outcome
  | .solveWithResourceLimits conflictLimit decisionLimit =>
    let limits : Resource → Int := fun
      | .conflicts => conflictLimit.elim (-1) Int.ofNat
      | .decisions => decisionLimit.elim (-1) Int.ofNat
      | .ticks => -1
    (solveCadicalWithResourceLimits lib
      { w with lastAssumptionSolveStatus := .unknown, lastAssumptions := [] } active limits
      true).outcome
  | .solveWithAssumptionsStatus assumptions limits =>
    cadicalWithAssumptions lib w active assumptions limits q.bounded

/-- One query.
mirrors src/sat/SATSolverWrapper.h:446-712 -/
def query (w : SATSolverWrapper σ) (active : Option CadicalWorkBudget) (q : SolverQuery) :
    Outcome σ :=
  match w.solverType with
  | .glucose => glucoseQuery lib w active q
  | .kissat => kissatQuery lib w active q
  | .cadical => cadicalQuery lib w active q

/-- The caller's literal of a conflict literal. -/
def negatedConflictLiteral (lit : GlucoseLit) : Int :=
  let externalVar := Int.ofNat (lit.var + 2)
  let conflictLiteral := if lit.sign then -externalVar else externalVar
  Int.neg conflictLiteral

/-- mirrors src/sat/SATSolverWrapper.h:718-748 -/
def failedAssumptions (w : SATSolverWrapper σ) : List Int :=
  match w.solverType with
  | .glucose => w.conflict.map negatedConflictLiteral
  | .kissat => []
  | .cadical =>
    if w.lastAssumptionSolveStatus = .unsat then
      w.lastAssumptions.filter fun lit => lib.cadicalFailed w.inner (cadicalLiteral lit)
    else []

/-! ## What one call keeps -/

section Calls
variable {lib} {w : SATSolverWrapper σ} {active : Option CadicalWorkBudget}

/-- The budget after a call: the same, or charged by a call that found work left. -/
def BudgetStep (active : Option CadicalWorkBudget) (after : Option CadicalWorkBudget)
    (charge : Option Work) : Prop :=
  (charge = none ∧ after = active) ∨
    ∃ budget work, active = some budget ∧ budget.exhausted = false ∧ charge = some work ∧
      after = some (budget.consume work)

/-- What a solve leaves alone, and the assumptions it consumes. -/
theorem solveCadicalWithResourceLimits_spec (limits : Resource → Int) (useCumulativeBudget : Bool) :
    let run := solveCadicalWithResourceLimits lib w active limits useCumulativeBudget
    BudgetStep active run.active run.charge ∧ run.wrapper.solverType = w.solverType ∧
      run.wrapper.conflict = w.conflict ∧ run.wrapper.lastAssumptions = w.lastAssumptions ∧
      run.wrapper.lastAssumptionSolveStatus = w.lastAssumptionSolveStatus ∧
      (run.wrapper.pending = [] ∨
        run.wrapper.pending = w.pending ∧
          (useCumulativeBudget && active.any (·.exhausted)) = true) := by
  unfold solveCadicalWithResourceLimits
  cases useCumulativeBudget with
  | false => exact ⟨.inl ⟨rfl, rfl⟩, rfl, rfl, rfl, rfl, .inl rfl⟩
  | true =>
    cases active with
    | none => exact ⟨.inl ⟨rfl, rfl⟩, rfl, rfl, rfl, rfl, .inl rfl⟩
    | some budget =>
      simp only [if_true]
      cases hexhausted : budget.exhausted with
      | true => exact ⟨.inl ⟨rfl, rfl⟩, rfl, rfl, rfl, rfl, .inr ⟨rfl, by simp [hexhausted]⟩⟩
      | false =>
        exact ⟨.inr ⟨budget, _, rfl, hexhausted, rfl, rfl⟩, rfl, rfl, rfl, rfl, .inl rfl⟩

theorem solveCadicalWithResourceLimits_exhausted {limits : Resource → Int}
    {budget : CadicalWorkBudget} (h : budget.exhausted = true) :
    solveCadicalWithResourceLimits lib w (some budget) limits true =
      { status := .unknown, wrapper := w, active := some budget } := by
  simp [solveCadicalWithResourceLimits, h]

theorem reserveVars_spec {w' : SATSolverWrapper σ} {numVars : Nat}
    (h : reserveVars lib w numVars = .ok w') :
    w'.solverType = w.solverType ∧ w'.conflict = w.conflict ∧
      w'.lastAssumptions = w.lastAssumptions ∧
      w'.lastAssumptionSolveStatus = w.lastAssumptionSolveStatus := by
  unfold reserveVars at h
  split at h
  · cases h
    exact ⟨rfl, rfl, rfl, rfl⟩
  · dsimp only at h
    generalize (if w.cadicalReservedVars = 0 then numVars else _) = targetVars at h
    split at h
    · cases h
    · cases h
      exact ⟨rfl, rfl, rfl, rfl⟩

/-- Enqueueing changes the assumptions CaDiCaL holds and nothing the wrapper remembers. -/
theorem assumeAll_spec (lits : List Int) :
    (assumeAll lib w lits).2.solverType = w.solverType ∧
      (assumeAll lib w lits).2.conflict = w.conflict ∧
      (assumeAll lib w lits).2.lastAssumptions = w.lastAssumptions ∧
      (assumeAll lib w lits).2.lastAssumptionSolveStatus = w.lastAssumptionSolveStatus := by
  induction lits generalizing w with
  | nil => exact ⟨rfl, rfl, rfl, rfl⟩
  | cons lit lits ih =>
    unfold assumeAll
    split
    · exact ⟨rfl, rfl, rfl, rfl⟩
    · split
      · exact ⟨rfl, rfl, rfl, rfl⟩
      · dsimp only
        split
        · split
          · exact ⟨rfl, rfl, rfl, rfl⟩
          · rename_i w' hreserve
            obtain ⟨h1, h2, h3, h4⟩ := reserveVars_spec hreserve
            obtain ⟨i1, i2, i3, i4⟩ := ih
              (w := { w' with pending := w'.pending ++ [cadicalLiteral lit] })
            exact ⟨i1.trans h1, i2.trans h2, i3.trans h3, i4.trans h4⟩
        · exact ih

/-- The literals handed to Glucose, and that nothing else of interest changes. -/
theorem glucoseAssumptions_spec (lits : List Int) :
    (glucoseAssumptions lib w lits).2.solverType = w.solverType ∧
      (glucoseAssumptions lib w lits).2.conflict = w.conflict ∧
      (glucoseAssumptions lib w lits).2.pending = w.pending ∧
      ∀ ls, (glucoseAssumptions lib w lits).1 = .ok ls →
        ls = lits.map glucoseLit ∧ ∀ lit ∈ lits, 2 ≤ lit.natAbs := by
  induction lits generalizing w with
  | nil =>
    refine ⟨rfl, rfl, rfl, fun ls h => ?_⟩
    cases h
    exact ⟨rfl, fun lit hlit => by cases hlit⟩
  | cons lit lits ih =>
    unfold glucoseAssumptions
    split
    · exact ⟨rfl, rfl, rfl, fun ls h => by cases h⟩
    · split
      · exact ⟨rfl, rfl, rfl, fun ls h => by cases h⟩
      · rename_i hlit
        obtain ⟨h1, h2, h3, h4⟩ := ih
          (w := { w with inner := lib.glucoseNewVars w.inner (lit.natAbs - 1) })
        split
        · rename_i message w' hrest
          rw [hrest] at h1 h2 h3
          exact ⟨h1, h2, h3, fun ls h => by cases h⟩
        · rename_i rest w' hrest
          rw [hrest] at h1 h2 h3 h4
          refine ⟨h1, h2, h3, fun ls h => ?_⟩
          cases h
          obtain ⟨hmap, hvalid⟩ := h4 rest rfl
          refine ⟨by rw [hmap, List.map_cons], fun l hl => ?_⟩
          cases hl with
          | head => omega
          | tail _ hl => exact hvalid l hl

/-- A conflict literal that negates an assumption is reported as that assumption. -/
theorem negatedConflictLiteral_eq {l : GlucoseLit} {lit : Int} (hlit : 2 ≤ lit.natAbs)
    (h : (⟨l.var, !l.sign⟩ : GlucoseLit) = glucoseLit lit) : negatedConflictLiteral l = lit := by
  obtain ⟨var, sign⟩ := l
  simp only [glucoseLit, GlucoseLit.mk.injEq] at h
  obtain ⟨rfl, hsign⟩ := h
  have hvar : Int.ofNat (lit.natAbs - 2 + 2) = |lit| := by
    rw [Nat.sub_add_cancel hlit]
    exact Int.natCast_natAbs lit
  unfold negatedConflictLiteral
  rw [hvar]
  cases sign with
  | true =>
    have hneg : 0 ≤ lit := by simpa using hsign
    rw [abs_of_nonneg hneg]
    exact neg_neg lit
  | false =>
    have hpos : lit < 0 := by simpa using hsign
    rw [abs_of_neg hpos]
    exact neg_neg lit

/-! ## The core belongs to the last answer -/

/-- `last` is the query that was answered last: the core is empty unless it was
unsatisfiable, and is made of its assumptions. -/
structure CoreOf (w : SATSolverWrapper σ) (last : Option (List Int × SolveStatus)) : Prop where
  glucose : w.solverType = .glucose → ∀ l ∈ w.conflict,
    ∃ assumptions, last = some (assumptions, .unsat) ∧ negatedConflictLiteral l ∈ assumptions
  cadical : w.solverType = .cadical → w.lastAssumptionSolveStatus = .unsat →
    last = some (w.lastAssumptions, .unsat)

theorem CoreOf.failedAssumptions {last : Option (List Int × SolveStatus)} (h : CoreOf w last)
    {lit : Int} (hlit : lit ∈ failedAssumptions lib w) :
    ∃ assumptions, last = some (assumptions, .unsat) ∧ lit ∈ assumptions := by
  unfold SATSolverWrapper.failedAssumptions at hlit
  cases htype : w.solverType with
  | glucose =>
    rw [htype] at hlit
    obtain ⟨l, hl, rfl⟩ := List.mem_map.mp hlit
    exact h.glucose htype l hl
  | kissat =>
    rw [htype] at hlit
    cases hlit
  | cadical =>
    rw [htype] at hlit
    dsimp only at hlit
    split at hlit
    · rename_i hunsat
      exact ⟨_, h.cadical htype hunsat, (List.mem_filter.mp hlit).1⟩
    · cases hlit

/-! ## One query -/

/-- What a query keeps, whatever the library and whether or not it throws. -/
structure QueryKeeps (w : SATSolverWrapper σ) (active : Option CadicalWorkBudget) (q : SolverQuery)
    (last : Option (List Int × SolveStatus)) (out : Outcome σ) : Prop where
  solverType : out.wrapper.solverType = w.solverType
  budget : BudgetStep active out.active out.charge
  pending : w.pending = [] → out.threw = false → out.wrapper.pending = []
  core : CoreOf out.wrapper (out.lastAnswered q last)

/-- The core after a Glucose solve. -/
theorem coreOf_glucoseSolve (hlib : lib.ConflictClauses) (htype : w.solverType = .glucose)
    {assumptions : List Int} {lits : List GlucoseLit}
    (conflictBudget propagationBudget : Option Int) {status : SolveStatus} (hlits : lits = assumptions.map glucoseLit)
    (hvalid : ∀ lit ∈ assumptions, 2 ≤ lit.natAbs)
    (hstatus : (lib.glucoseSolve w.inner lits conflictBudget propagationBudget).1 = .unsat →
      status = .unsat) :
    CoreOf { w with
      inner := (lib.glucoseSolve w.inner lits conflictBudget propagationBudget).2.2
      conflict := (lib.glucoseSolve w.inner lits conflictBudget propagationBudget).2.1 }
      (some (assumptions, status)) := by
  obtain ⟨hempty, hnegates⟩ := hlib w.inner lits conflictBudget propagationBudget _ _ _ rfl
  refine ⟨fun _ l hl => ?_, fun hcadical => ?_⟩
  · have hunsat : (lib.glucoseSolve w.inner lits conflictBudget propagationBudget).1 = .unsat := by
      by_contra hne
      have hl' : l ∈ (lib.glucoseSolve w.inner lits conflictBudget propagationBudget).2.1 := hl
      rw [hempty hne] at hl'
      cases hl'
    have hmem := hnegates l hl
    rw [hlits] at hmem
    obtain ⟨lit, hlit, heq⟩ := List.mem_map.mp hmem
    refine ⟨assumptions, by rw [hstatus hunsat], ?_⟩
    rw [negatedConflictLiteral_eq (hvalid lit hlit) heq.symm]
    exact hlit
  · have hother : SolverType.glucose = .cadical := htype.symm.trans hcadical
    cases hother

theorem glucoseQuery_keeps (hlib : lib.ConflictClauses) (htype : w.solverType = .glucose)
    {last : Option (List Int × SolveStatus)} (h : CoreOf w last) (q : SolverQuery) :
    QueryKeeps w active q last (glucoseQuery lib w active q) := by
  have hnone : ∀ lit ∈ ([] : List Int), 2 ≤ lit.natAbs := fun lit hlit => by cases hlit
  cases q with
  | solveStatus =>
    refine ⟨rfl, .inl ⟨rfl, rfl⟩, fun hpending _ => hpending, ?_⟩
    exact coreOf_glucoseSolve hlib htype none none rfl hnone fun h => by simp [solveGlucose, h]
  | solveWithResourceLimits conflictLimit decisionLimit =>
    refine ⟨rfl, .inl ⟨rfl, rfl⟩, fun hpending _ => hpending, ?_⟩
    exact coreOf_glucoseSolve hlib htype _ _ rfl hnone id
  | solveWithAssumptionsStatus assumptions limits =>
    obtain ⟨htype', hconflict, hpending', hok⟩ :=
      @glucoseAssumptions_spec _ lib w assumptions
    unfold glucoseQuery
    dsimp only
    split
    · rename_i message w' hthrown
      rw [hthrown] at htype' hconflict
      refine ⟨htype', .inl ⟨rfl, rfl⟩, fun _ hthrew => (by cases hthrew), ?_⟩
      refine ⟨fun _ l hl => h.glucose htype l (hconflict ▸ hl), fun hcadical => ?_⟩
      have hother : SolverType.glucose = .cadical := htype.symm.trans (htype'.symm.trans hcadical)
      cases hother
    · rename_i lits w' hlits
      rw [hlits] at htype' hpending' hok
      obtain ⟨hmap, hvalid⟩ := hok lits rfl
      refine ⟨htype', .inl ⟨rfl, rfl⟩, fun hpending _ => hpending'.trans hpending, ?_⟩
      refine coreOf_glucoseSolve hlib (htype'.trans htype) _ _ hmap hvalid fun h => ?_
      simp [solveGlucose, h]

theorem kissatQuery_keeps (htype : w.solverType = .kissat)
    {last : Option (List Int × SolveStatus)} (q : SolverQuery) :
    QueryKeeps w active q last (kissatQuery lib w active q) := by
  have hcore : ∀ (w' : SATSolverWrapper σ) (last' : Option (List Int × SolveStatus)),
      w'.solverType = w.solverType → CoreOf w' last' := by
    intro w' last' htype'
    refine ⟨fun hother => ?_, fun hother => ?_⟩
    · have hnot : SolverType.kissat = .glucose := htype.symm.trans (htype'.symm.trans hother)
      cases hnot
    · have hnot : SolverType.kissat = .cadical := htype.symm.trans (htype'.symm.trans hother)
      cases hnot
  cases q with
  | solveStatus => exact ⟨rfl, .inl ⟨rfl, rfl⟩, fun hpending _ => hpending, hcore _ _ rfl⟩
  | solveWithResourceLimits conflictLimit decisionLimit =>
    exact ⟨rfl, .inl ⟨rfl, rfl⟩, fun hpending _ => hpending, hcore _ _ rfl⟩
  | solveWithAssumptionsStatus assumptions limits =>
    unfold kissatQuery
    dsimp only
    split
    · exact ⟨rfl, .inl ⟨rfl, rfl⟩, fun hpending _ => hpending, hcore _ _ rfl⟩
    · refine ⟨rfl, .inl ⟨rfl, rfl⟩, fun _ hthrew => ?_, hcore _ _ rfl⟩
      cases hthrew

/-- A CaDiCaL solve without assumptions forgets the last core. -/
theorem forgetful_keeps (htype : w.solverType = .cadical)
    {last : Option (List Int × SolveStatus)} (q : SolverQuery) (limits : Resource → Int)
    (useCumulativeBudget : Bool) :
    QueryKeeps w active q last (solveCadicalWithResourceLimits lib
      { w with lastAssumptionSolveStatus := .unknown, lastAssumptions := [] } active limits
      useCumulativeBudget).outcome := by
  obtain ⟨hbudget, htype', -, -, hstatus, hpending⟩ := @solveCadicalWithResourceLimits_spec _ lib
      { w with lastAssumptionSolveStatus := .unknown, lastAssumptions := [] } active limits
      useCumulativeBudget
  refine ⟨htype', hbudget, fun hempty _ => ?_, fun hother => ?_, fun _ hunsat => ?_⟩
  · cases hpending with
    | inl h => exact h
    | inr h => exact h.1.trans hempty
  · have hnot : SolverType.cadical = .glucose := htype.symm.trans (htype'.symm.trans hother)
    cases hnot
  · have hnot : SolveStatus.unknown = .unsat := hstatus.symm.trans hunsat
    cases hnot

theorem cadicalQuery_keeps (htype : w.solverType = .cadical)
    {last : Option (List Int × SolveStatus)} (q : SolverQuery) :
    QueryKeeps w active q last (cadicalQuery lib w active q) := by
  cases q with
  | solveStatus => exact forgetful_keeps htype _ _ _
  | solveWithResourceLimits conflictLimit decisionLimit => exact forgetful_keeps htype _ _ _
  | solveWithAssumptionsStatus assumptions limits =>
    have hnot : ∀ w' : SATSolverWrapper σ, w'.solverType = w.solverType →
        w'.solverType = .glucose → False := by
      intro w' htype' hother
      have hsame : SolverType.cadical = .glucose := htype.symm.trans (htype'.symm.trans hother)
      cases hsame
    unfold cadicalQuery cadicalWithAssumptions
    dsimp only
    split
    · refine ⟨rfl, .inl ⟨rfl, rfl⟩, fun hpending _ => hpending, fun hother => ?_,
        fun _ hunsat => ?_⟩
      · exact (hnot _ rfl hother).elim
      · cases hunsat
    · rename_i hactive
      obtain ⟨htype', -, hlast, hstatus⟩ := @assumeAll_spec _ lib
          { w with lastAssumptions := assumptions, lastAssumptionSolveStatus := .unknown }
        assumptions
      split
      · rename_i message w' hthrown
        rw [hthrown] at htype' hstatus
        refine ⟨htype', .inl ⟨rfl, rfl⟩, fun _ hthrew => (by cases hthrew), fun hother => ?_,
          fun _ hunsat => ?_⟩
        · exact (hnot _ htype' hother).elim
        · have hsame : SolveStatus.unknown = .unsat := hstatus.symm.trans hunsat
          cases hsame
      · rename_i w' hassumed
        rw [hassumed] at htype' hlast
        obtain ⟨hbudget, hsame, -, hkept, -, hpending⟩ := @solveCadicalWithResourceLimits_spec _ lib
            w' active limits
          (SolverQuery.solveWithAssumptionsStatus assumptions limits).bounded
        refine ⟨hsame.trans htype', hbudget, fun _ _ => ?_, fun hother => ?_, fun _ hunsat => ?_⟩
        · cases hpending with
          | inl h => exact h
          | inr h => exact absurd h.2 hactive
        · exact (hnot _ (hsame.trans htype') hother).elim
        · have hunsat' : (solveCadicalWithResourceLimits lib w' active limits
              (SolverQuery.solveWithAssumptionsStatus assumptions limits).bounded).status =
              .unsat := hunsat
          show some (assumptions, _) = some (if _ then _ else _, _)
          rw [if_pos hunsat', hkept, hlast, hunsat']

theorem query_keeps (hlib : lib.ConflictClauses) {last : Option (List Int × SolveStatus)}
    (h : CoreOf w last) (q : SolverQuery) : QueryKeeps w active q last (w.query lib active q) := by
  unfold query
  cases htype : w.solverType with
  | glucose => exact glucoseQuery_keeps hlib htype h q
  | kissat => exact kissatQuery_keeps htype q
  | cadical => exact cadicalQuery_keeps htype q

/-- A bounded CaDiCaL query finds the budget spent: no solve, no assumption enqueued. -/
theorem query_of_exhausted {budget : CadicalWorkBudget} (htype : w.solverType = .cadical)
    (hexhausted : budget.exhausted = true) {q : SolverQuery} (hbounded : q.bounded = true) :
    w.query lib (some budget) q =
      { answer := .ok .unknown
        wrapper := { w with lastAssumptions := [], lastAssumptionSolveStatus := .unknown }
        active := some budget } := by
  unfold query
  rw [htype]
  cases q with
  | solveStatus => cases hbounded
  | solveWithResourceLimits conflictLimit decisionLimit =>
    unfold cadicalQuery
    dsimp only
    rw [solveCadicalWithResourceLimits_exhausted hexhausted, htype]
    rfl
  | solveWithAssumptionsStatus assumptions limits =>
    unfold cadicalQuery cadicalWithAssumptions
    simp only [hbounded, Option.any_some, hexhausted, Bool.and_self, if_true, htype]

/-- An exact query runs as without a budget, and is not charged. -/
theorem query_of_exact {q : SolverQuery} (hexact : q.bounded = false) :
    w.query lib active q = { w.query lib none q with active, charge := none } := by
  unfold query
  cases w.solverType with
  | glucose =>
    cases q with
    | solveStatus => rfl
    | solveWithResourceLimits conflictLimit decisionLimit => rfl
    | solveWithAssumptionsStatus assumptions limits =>
      dsimp only [glucoseQuery]
      split <;> rfl
  | kissat =>
    cases q with
    | solveStatus => rfl
    | solveWithResourceLimits conflictLimit decisionLimit => rfl
    | solveWithAssumptionsStatus assumptions limits =>
      dsimp only [kissatQuery]
      split <;> rfl
  | cadical =>
    cases q with
    | solveStatus => rfl
    | solveWithResourceLimits conflictLimit decisionLimit => cases hexact
    | solveWithAssumptionsStatus assumptions limits =>
      dsimp only [cadicalQuery, cadicalWithAssumptions]
      rw [hexact]
      simp only [Bool.false_and, Bool.false_eq_true, if_false]
      split <;> rfl

end Calls
end SATSolverWrapper

/-! ## Wrappers and budgets together -/

/-- `scopes` names the budgets of the open scopes, innermost first. The other fields keep
track of the run: the charges of each budget, newest first, the query each wrapper
answered last, and whether one of its queries threw. -/
structure SolverSystem (σ : Type) where
  solvers : Nat → SATSolverWrapper σ
  budgets : Nat → CadicalWorkBudget
  scopes : List Nat := []
  charges : Nat → List Work := fun _ => []
  answered : Nat → Option (List Int × SolveStatus) := fun _ => none
  threw : Nat → Bool := fun _ => false

/-- `edit` stands for new clauses, variables and options between the queries. -/
inductive SolverEvent (σ : Type) where
  | edit (solver : Nat) (inner : σ) (numVars reservedVars : Nat)
  | enterScope (budget : Nat)
  | leaveScope
  | query (solver : Nat) (q : SolverQuery)

namespace SolverSystem
variable {σ : Type} (lib : SolverLibraries σ)

def active (s : SolverSystem σ) : Option CadicalWorkBudget := s.scopes.head?.map s.budgets

/-- A query, with its budget and the run's notes brought up to date. -/
def queried (s : SolverSystem σ) (solver : Nat) (q : SolverQuery) : SolverSystem σ :=
  let out := (s.solvers solver).query lib s.active q
  { s with
    solvers := Function.update s.solvers solver out.wrapper
    budgets := match s.scopes.head?, out.active with
      | some b, some budget => Function.update s.budgets b budget
      | _, _ => s.budgets
    charges := match s.scopes.head?, out.charge with
      | some b, some work => Function.update s.charges b (work :: s.charges b)
      | _, _ => s.charges
    answered := Function.update s.answered solver (out.lastAnswered q (s.answered solver))
    threw := Function.update s.threw solver (s.threw solver || out.threw) }

def step (s : SolverSystem σ) : SolverEvent σ → SolverSystem σ
  | .edit solver inner numVars reservedVars =>
    { s with solvers := Function.update s.solvers solver { s.solvers solver with
        inner, cadicalNumVars := numVars, cadicalReservedVars := reservedVars } }
  | .enterScope budget => { s with scopes := budget :: s.scopes }
  | .leaveScope => { s with scopes := s.scopes.tail }
  | .query solver q => s.queried lib solver q

/-- New wrappers and budgets, and no scope. -/
def initial (types : Nat → SolverType) (inner : σ) (limits : Nat → Work) : SolverSystem σ where
  solvers i := { solverType := types i, inner }
  budgets b := { limit := limits b }

end SolverSystem

def wrapperSystem {σ : Type} (lib : SolverLibraries σ) : LTS (SolverSystem σ) (SolverEvent σ) where
  init s := ∃ types inner limits, s = SolverSystem.initial types inner limits
  step s e s' := s' = s.step lib e

/-- All the work charged so far, of one resource. -/
def totalWork (works : List Work) (r : Resource) : Nat := (works.map (· r)).sum

/-- What a budget has charged: all of it up to the limit, and before the last charge there
was work left. -/
structure Charged (budget : CadicalWorkBudget) (works : List Work) : Prop where
  used : ∀ r, budget.used r = min (budget.limit r) (totalWork works r)
  overrun : ∀ work rest, works = work :: rest → ∀ r, totalWork rest r < budget.limit r

theorem Charged.consume {budget : CadicalWorkBudget} {works : List Work} (h : Charged budget works)
    (hleft : budget.exhausted = false) (work : Work) :
    Charged (budget.consume work) (work :: works) := by
  have hless : ∀ r, budget.used r < budget.limit r := by
    intro r
    by_contra hr
    have hexhausted := CadicalWorkBudget.exhausted_iff.mpr ⟨r, Nat.le_of_not_lt hr⟩
    rw [hleft] at hexhausted
    cases hexhausted
  refine ⟨fun r => ?_, fun work' rest heq r => ?_⟩
  · have hused := h.used r
    have hr := hless r
    rw [CadicalWorkBudget.used_consume work (Nat.le_of_lt hr), CadicalWorkBudget.limit_consume]
    simp only [totalWork, List.map_cons, List.sum_cons] at hused ⊢
    omega
  · cases heq
    have hused := h.used r
    have hr := hless r
    rw [CadicalWorkBudget.limit_consume]
    omega

namespace SolverSystem
variable {σ : Type} {lib : SolverLibraries σ}

structure Inv (s : SolverSystem σ) : Prop where
  core : ∀ i, (s.solvers i).CoreOf (s.answered i)
  pending : ∀ i, s.threw i = false → (s.solvers i).pending = []
  charged : ∀ b, Charged (s.budgets b) (s.charges b)

theorem inv_initial (types : Nat → SolverType) (inner : σ) (limits : Nat → Work) :
    (initial types inner limits).Inv where
  core i := ⟨fun _ l hl => (by cases hl), fun _ hunsat => (by cases hunsat)⟩
  pending i _ := rfl
  charged b := ⟨fun r => (Nat.min_zero _).symm, fun work rest heq => by cases heq⟩

/-- Only the budget of the innermost scope changes, and only by a charge it has room for. -/
theorem budgets_queried (hlib : lib.ConflictClauses) {s : SolverSystem σ} (h : s.Inv)
    (solver : Nat) (q : SolverQuery) (b : Nat) :
    ((s.queried lib solver q).budgets b = s.budgets b ∧
      (s.queried lib solver q).charges b = s.charges b) ∨
    ∃ work, (s.budgets b).exhausted = false ∧
      (s.queried lib solver q).budgets b = (s.budgets b).consume work ∧
      (s.queried lib solver q).charges b = work :: s.charges b := by
  have hkeeps := @SATSolverWrapper.query_keeps _ _ _ s.active hlib _ (h.core solver) q
  unfold queried
  dsimp only
  rcases hkeeps.budget with ⟨hcharge, hactive⟩ | ⟨budget, work, hbudget, hleft, hcharge, hactive⟩
  · left
    rw [hcharge, hactive]
    cases hscopes : s.scopes.head? with
    | none => exact ⟨rfl, rfl⟩
    | some top =>
      simp only [active, hscopes, Option.map_some]
      exact ⟨congrFun (Function.update_eq_self top s.budgets) b, trivial⟩
  · rw [hcharge, hactive]
    unfold active at hbudget
    cases hscopes : s.scopes.head? with
    | none =>
      rw [hscopes] at hbudget
      cases hbudget
    | some top =>
      rw [hscopes, Option.map_some, Option.some.injEq] at hbudget
      subst hbudget
      by_cases htop : b = top
      · subst htop
        right
        exact ⟨work, hleft, Function.update_self .., Function.update_self ..⟩
      · left
        exact ⟨Function.update_of_ne htop .., Function.update_of_ne htop ..⟩

theorem budgets_of_exact (s : SolverSystem σ) (solver : Nat) {q : SolverQuery}
    (hexact : q.bounded = false) : (s.queried lib solver q).budgets = s.budgets ∧
      (s.queried lib solver q).charges = s.charges := by
  unfold queried
  rw [SATSolverWrapper.query_of_exact hexact]
  dsimp only
  cases hscopes : s.scopes.head? with
  | none => exact ⟨rfl, rfl⟩
  | some top =>
    simp only [active, hscopes, Option.map_some]
    exact ⟨Function.update_eq_self top s.budgets, trivial⟩

theorem Inv.queried (hlib : lib.ConflictClauses) {s : SolverSystem σ} (h : s.Inv) (solver : Nat)
    (q : SolverQuery) : (s.queried lib solver q).Inv := by
  have hkeeps := @SATSolverWrapper.query_keeps _ _ _ s.active hlib _ (h.core solver) q
  refine ⟨fun i => ?_, fun i hthrew => ?_, fun b => ?_⟩
  · by_cases hi : i = solver
    · subst hi
      simp only [SolverSystem.queried, Function.update_self]
      exact hkeeps.core
    · simp only [SolverSystem.queried, Function.update_of_ne hi]
      exact h.core i
  · by_cases hi : i = solver
    · subst hi
      simp only [SolverSystem.queried, Function.update_self, Bool.or_eq_false_iff] at hthrew ⊢
      exact hkeeps.pending (h.pending i hthrew.1) hthrew.2
    · simp only [SolverSystem.queried, Function.update_of_ne hi] at hthrew ⊢
      exact h.pending i hthrew
  · rcases budgets_queried hlib h solver q b with
      ⟨hbudget, hcharges⟩ | ⟨work, hleft, hbudget, hcharges⟩
    · rw [hbudget, hcharges]
      exact h.charged b
    · rw [hbudget, hcharges]
      exact (h.charged b).consume hleft work

theorem Inv.step (hlib : lib.ConflictClauses) {s : SolverSystem σ} (h : s.Inv)
    (e : SolverEvent σ) : (s.step lib e).Inv := by
  cases e with
  | edit solver inner numVars reservedVars =>
    refine ⟨fun i => ?_, fun i hthrew => ?_, h.charged⟩
    · by_cases hi : i = solver
      · subst hi
        simp only [SolverSystem.step, Function.update_self]
        exact ⟨(h.core i).glucose, (h.core i).cadical⟩
      · simp only [SolverSystem.step, Function.update_of_ne hi]
        exact h.core i
    · by_cases hi : i = solver
      · subst hi
        simp only [SolverSystem.step, Function.update_self]
        exact h.pending i hthrew
      · simp only [SolverSystem.step, Function.update_of_ne hi]
        exact h.pending i hthrew
  | enterScope budget => exact ⟨h.core, h.pending, h.charged⟩
  | leaveScope => exact ⟨h.core, h.pending, h.charged⟩
  | query solver q => exact h.queried hlib solver q

theorem inv_reachable (hlib : lib.ConflictClauses) {s : SolverSystem σ}
    (hs : (wrapperSystem lib).Reachable s) : s.Inv := by
  have hinductive : (wrapperSystem lib).Inductive Inv := by
    refine ⟨fun s hinit => ?_, fun s e s' h hstep => ?_⟩
    · obtain ⟨types, inner, limits, rfl⟩ := hinit
      exact inv_initial types inner limits
    · rw [show s' = s.step lib e from hstep]
      exact h.step hlib e
  exact hinductive.reachable hs

/-- No event gives work back. -/
theorem exhausted_step (hlib : lib.ConflictClauses) {s : SolverSystem σ} (h : s.Inv)
    (e : SolverEvent σ) {b : Nat} (hexhausted : (s.budgets b).exhausted = true) :
    ((s.step lib e).budgets b).exhausted = true := by
  cases e with
  | edit solver inner numVars reservedVars => exact hexhausted
  | enterScope budget => exact hexhausted
  | leaveScope => exact hexhausted
  | query solver q =>
    rcases budgets_queried hlib h solver q b with ⟨hbudget, -⟩ | ⟨work, hleft, -, -⟩
    · rw [show (s.step lib (.query solver q)).budgets b = s.budgets b from hbudget]
      exact hexhausted
    · rw [hexhausted] at hleft
      cases hleft

theorem exhausted_run (hlib : lib.ConflictClauses) (events : List (SolverEvent σ))
    {s : SolverSystem σ} (h : s.Inv) {b : Nat} (hexhausted : (s.budgets b).exhausted = true) :
    ((events.foldl (step lib) s).budgets b).exhausted = true := by
  induction events generalizing s with
  | nil => exact hexhausted
  | cons e events ih => exact ih (h.step hlib e) (exhausted_step hlib h e hexhausted)

/-- In every run: a budget charges at most its limit, and the charges passed the limit by
at most the last of them; a spent budget stays spent; a bounded CaDiCaL query under it
answers unknown, runs no solver and enqueues no assumption; an exact query runs as without a
budget and leaves all charges alone; between queries that did not throw no assumption is
pending; and a core is made of the assumptions of the query answered
last, which was unsatisfiable. -/
theorem workBudget_discipline (hlib : lib.ConflictClauses) {s : SolverSystem σ}
    (hs : (wrapperSystem lib).Reachable s) :
    (∀ b r, (s.budgets b).used r = min ((s.budgets b).limit r) (totalWork (s.charges b) r) ∧
      ∀ last rest, s.charges b = last :: rest →
        totalWork (s.charges b) r ≤ (s.budgets b).limit r + last r) ∧
    (∀ b (events : List (SolverEvent σ)), (s.budgets b).exhausted = true →
      ((events.foldl (step lib) s).budgets b).exhausted = true) ∧
    (∀ i q budget, (s.solvers i).solverType = .cadical → q.bounded = true →
      s.active = some budget → budget.exhausted = true →
      ((s.solvers i).query lib s.active q).answer = .ok .unknown ∧
        ((s.step lib (.query i q)).solvers i).pending = (s.solvers i).pending ∧
        ((s.step lib (.query i q)).solvers i).inner = (s.solvers i).inner) ∧
    (∀ i q, q.bounded = false →
      (s.solvers i).query lib s.active q =
          { (s.solvers i).query lib none q with active := s.active, charge := none } ∧
        (s.step lib (.query i q)).budgets = s.budgets ∧
        (s.step lib (.query i q)).charges = s.charges) ∧
    (∀ i, s.threw i = false → (s.solvers i).pending = []) ∧
    ∀ i, ∀ lit ∈ (s.solvers i).failedAssumptions lib,
      ∃ assumptions, s.answered i = some (assumptions, .unsat) ∧ lit ∈ assumptions := by
  have h := inv_reachable hlib hs
  refine ⟨fun b r => ⟨(h.charged b).used r, fun last rest heq => ?_⟩, fun b events => ?_,
    fun i q budget htype hbounded hactive hexhausted => ?_, fun i q hexact =>
      ⟨SATSolverWrapper.query_of_exact hexact, budgets_of_exact s i hexact⟩, h.pending,
    fun i lit hlit => ?_⟩
  · have hbefore := (h.charged b).overrun last rest heq r
    rw [heq]
    simp only [totalWork, List.map_cons, List.sum_cons] at hbefore ⊢
    omega
  · exact exhausted_run hlib events h
  · have hquery := @SATSolverWrapper.query_of_exhausted _ lib _ _ htype hexhausted _ hbounded
    rw [← hactive] at hquery
    refine ⟨by rw [hquery], ?_, ?_⟩
    · simp only [step, queried, Function.update_self, hquery]
    · simp only [step, queried, Function.update_self, hquery]
  · exact (h.core i).failedAssumptions hlit

/-! ## A library that tries all models -/

/-- Variables 1 to `numVars`, the clauses, the work so far and the failed assumptions. -/
structure CnfState where
  clauses : List (List Int) := []
  numVars : Nat := 0
  work : Work := fun _ => 0
  failed : List Int := []

namespace CnfState

def holds (model : Nat) (lit : Int) : Bool :=
  model.testBit (lit.natAbs - 1) == decide (0 < lit)

def isModel (s : CnfState) (assumptions : List Int) (model : Nat) : Bool :=
  assumptions.all (holds model) && s.clauses.all fun clause => clause.any (holds model)

/-- The candidates before the first model. -/
def refuted (s : CnfState) (assumptions : List Int) : Nat :=
  ((List.range (2 ^ s.numVars)).takeWhile fun model => !s.isModel assumptions model).length

/-- Every refuted candidate is a conflict, and the solve gives up at the limit. Assumptions fail
only where the clauses have a model. -/
def solve (s : CnfState) (assumptions : List Int) (conflictLimit : Int) : Int × CnfState :=
  let refuted := s.refuted assumptions
  let gaveUp := decide (0 ≤ conflictLimit) && decide (conflictLimit < refuted)
  let tried := if gaveUp then conflictLimit.toNat else refuted
  let code := if gaveUp then 0 else if refuted = 2 ^ s.numVars then 20 else 10
  (code, { s with
    work := fun
      | .conflicts => s.work .conflicts + tried
      | .decisions => s.work .decisions + s.numVars * (tried + 1)
      | .ticks => s.work .ticks + s.clauses.length * (tried + 1)
    failed := if code = 20 ∧ s.refuted [] ≠ 2 ^ s.numVars then assumptions else [] })

end CnfState

def GlucoseLit.toInt (l : GlucoseLit) : Int := if l.sign then -(l.var + 1) else l.var + 1

def exhaustiveLibraries : SolverLibraries CnfState where
  cadicalResize s _ := s
  cadicalSolve s assumptions limits := s.solve assumptions (limits .conflicts)
  cadicalStatistic s r := s.work r
  cadicalFailed s lit := s.failed.contains lit
  kissatSetLimit s _ _ := s
  kissatSolve s := s.solve [] (-1)
  glucoseNewVars s numVars := { s with numVars := max s.numVars numVars }
  glucoseSolve s assumptions conflictBudget _ :=
    let run := s.solve (assumptions.map GlucoseLit.toInt) (conflictBudget.getD (-1))
    let status := statusOfCode run.1
    (status, if status = .unsat then assumptions.map fun l => ⟨l.var, !l.sign⟩ else [], run.2)

theorem conflictClauses_exhaustiveLibraries : exhaustiveLibraries.ConflictClauses := by
  intro s assumptions conflictBudget propagationBudget status conflict s' h
  cases h
  refine ⟨fun hne => if_neg hne, fun l hl => ?_⟩
  split at hl
  · obtain ⟨a, ha, rfl⟩ := List.mem_map.mp hl
    rwa [Bool.not_not]
  · cases hl

/-- Variable 1 is cleared by a clause. A bounded query that assumes it set is refuted with two
conflicts, which spends the budget of the open scope. -/
def spentBudget : SolverSystem CnfState :=
  [.edit 0 { clauses := [[-1]], numVars := 1 } 1 1, .enterScope 0,
    .query 0 (.solveWithAssumptionsStatus [2] fun r => if r = .conflicts then 5 else -1)].foldl
    (step exhaustiveLibraries) (initial (fun _ => .cadical) {} fun _ _ => 2)

theorem reachable_foldl {s : SolverSystem σ} (hs : (wrapperSystem lib).Reachable s)
    (events : List (SolverEvent σ)) :
    (wrapperSystem lib).Reachable (events.foldl (step lib) s) := by
  induction events generalizing s with
  | nil => exact hs
  | cons e events ih => exact ih (.step hs rfl)

theorem reachable_spentBudget : (wrapperSystem exhaustiveLibraries).Reachable spentBudget :=
  reachable_foldl (.init ⟨_, _, _, rfl⟩) _

/-- The core is read, a bounded query gives up and an exact one is answered. -/
theorem workBudget_discipline_spent :
    (spentBudget.budgets 0).exhausted = true ∧
      (spentBudget.solvers 0).failedAssumptions exhaustiveLibraries = [2] ∧
      (∃ assumptions, spentBudget.answered 0 = some (assumptions, .unsat) ∧ 2 ∈ assumptions) ∧
      ((spentBudget.solvers 0).query exhaustiveLibraries spentBudget.active
        (.solveWithResourceLimits none none)).answer = .ok .unknown ∧
      ((spentBudget.solvers 0).query exhaustiveLibraries spentBudget.active
        (.solveWithAssumptionsStatus [2] fun _ => -1)).answer = .ok .unsat := by
  have hspent : (spentBudget.budgets 0).exhausted = true := by decide
  have hcore : (spentBudget.solvers 0).failedAssumptions exhaustiveLibraries = [2] := by decide
  obtain ⟨-, -, hbounded, hexact, -, hfailed⟩ :=
    workBudget_discipline conflictClauses_exhaustiveLibraries reachable_spentBudget
  refine ⟨hspent, hcore, hfailed 0 2 (by rw [hcore]; exact List.mem_singleton_self 2),
    (hbounded 0 (.solveWithResourceLimits none none) _ rfl rfl rfl hspent).1, ?_⟩
  rw [(hexact 0 (.solveWithAssumptionsStatus [2] fun _ => -1) rfl).1]
  rfl

/-- An exact query is answered although the active budget is spent. -/
theorem exactQuery_answers :
    ¬ ∀ (s : SolverSystem CnfState) (q : SolverQuery),
      (wrapperSystem exhaustiveLibraries).Reachable s → s.active.any (·.exhausted) = true →
      ((s.solvers 0).query exhaustiveLibraries s.active q).answer = .ok .unknown := by
  intro h
  have hanswer := h spentBudget (.solveWithAssumptionsStatus [2] fun _ => -1)
    reachable_spentBudget (by decide)
  have hunsat : ((spentBudget.solvers 0).query exhaustiveLibraries spentBudget.active
      (.solveWithAssumptionsStatus [2] fun _ => -1)).answer = .ok .unsat := rfl
  rw [hunsat] at hanswer
  cases hanswer

end SolverSystem
end KeplerFormal
