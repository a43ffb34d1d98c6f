import KeplerFormal.L2Problem.OutputBatching
import KeplerFormal.L3Query.BaseCase

/-!
# Base counterexample searches (`src/sec/kinduction/BaseCaseSolver.cpp`)

The same bounded question is asked in five ways: one query for the whole problem, one
query for each output, the newest-frontier query over cached indexes, one prefix with
an assumption for each output, and a recursion over ranges of outputs.

Each search returns the bad frame of its witness, `none` when it has none, and the
state of the solver. A query that runs out of its budget counts as no witness. The
assumptions are literals of the outputs, which the shared prefix need not hold: their
search may fail.

* `unsatisfiable_of_status`: the status `Unsat` of the plain query means that it has no
  bad frame to look for or no model.
-/
namespace KeplerFormal

open Core

inductive SolveStatus where
  | sat
  | unsat
  | unknown
  deriving DecidableEq, Repr

/-- mirrors src/sec/kinduction/BaseCaseSolver.cpp:1389-1394 -/
inductive BaseCaseSolverProfile where
  | secConeProof
  | pdrValidation
  | pdrValidationProofOnly
  | fastCounterexampleSearch
  deriving DecidableEq, Repr

def kFastCounterexampleSearchConflictLimit : Nat := 5000

def kFastCounterexampleSearchDecisionLimit : Nat := 20000

def kMaxImcAssumptionFrontierBatchOutputs : Nat := 64

/-- mirrors src/sec/kinduction/BaseCaseSolver.cpp:1733-1748 -/
def baseSolveLimits (solverType : SolverType) : BaseCaseSolverProfile → SolveLimits
  | .fastCounterexampleSearch =>
    if solverType = .kissat then
      ⟨some kFastCounterexampleSearchConflictLimit, some kFastCounterexampleSearchDecisionLimit,
        none⟩
    else ⟨some kFastCounterexampleSearchConflictLimit, none, none⟩
  | _ => .unlimited

namespace KInductionProblem

/-- The first bad frame of a model; the source throws where this is `none`.
mirrors src/sec/kinduction/BaseCaseSolver.cpp:1279-1291 -/
def findFirstBadFrame (p : KInductionProblem) (m : Trace) (first last : Nat) : Option Nat :=
  ((List.range (last + 1)).filter (first ≤ ·)).find? fun frame => p.bad.eval (m frame)

/-- The bad frame of the witness, counted from the end of the reset prefix.
mirrors src/sec/kinduction/BaseCaseSolver.cpp:1370-1387 -/
def buildCounterexampleWitness (p : KInductionProblem) (m : Trace) (first last : Nat) :
    Option Nat :=
  (p.findFirstBadFrame m first last).map (· - p.resetBootstrapFrames)

/-- Frame `k` after the reset prefix. -/
def frontierFrame (p : KInductionProblem) (k : Nat) : Nat := k + p.resetBootstrapFrames

def supportSize (p : KInductionProblem) (i : Nat) : Nat :=
  (p.observedOutput i).1.getSupportVars.card + (p.observedOutput i).2.getSupportVars.card

/-- mirrors src/sec/kinduction/BaseCaseSolver.cpp:1539-1561 -/
def outputOrder (p : KInductionProblem) (profile : BaseCaseSolverProfile) : List Nat :=
  let outputs := List.range p.observedOutputExprs0.length
  if profile = .fastCounterexampleSearch then
    outputs.mergeSort fun a b => decide (p.supportSize a ≤ p.supportSize b)
  else outputs

/-- mirrors src/sec/kinduction/BaseCaseSolver.cpp:1487-1502 -/
def buildStrictImcOutputSubsets (p : KInductionProblem) : List (Nat × Nat) :=
  let outputCount := p.observedOutputExprs0.length
  if outputCount ≤ 1 then []
  else
    let batches := p.buildSupportBoundedOutputBatches p.defaultOutputBatchingLimitsForProblem
    if batches = [(0, outputCount)] then [(0, outputCount / 2), (outputCount / 2, outputCount)]
    else batches

/-- mirrors src/sec/kinduction/BaseCaseSolver.cpp:1456-1483 -/
def outputSubset (p : KInductionProblem) (firstOutput endOutput : Nat) : KInductionProblem :=
  if firstOutput = 0 ∧ endOutput = p.observedOutputExprs0.length then p
  else if endOutput = firstOutput + 1 then p.makeSingleObservedOutputProblem firstOutput
  else p.configureOutputBatchProblem firstOutput endOutput

end KInductionProblem

section Searches
variable {σ : Type} (S : FrameSolver σ) (solverType : SolverType) (k : Nat)

/-- One query; returns its status as well.
mirrors src/sec/kinduction/BaseCaseSolver.cpp:1600-1776 -/
def findBaseCounterexampleQuery (s : σ) (p : KInductionProblem) (exactPublicBadFrame : Option Nat)
    (solverProfile : BaseCaseSolverProfile) : (Option Nat × SolveStatus) × σ :=
  match p.badFrames k exactPublicBadFrame with
  | none => ((none, .unsat), s)
  | some (first, last) =>
    let q := p.baseQuery p.plainFacts (p.frontierFrame k) first last
    match S.solve s q [] (baseSolveLimits solverType solverProfile) with
    | (.sat m, s') =>
      ((if solverProfile = .pdrValidationProofOnly then some (first - p.resetBootstrapFrames)
        else p.buildCounterexampleWitness m first last, .sat), s')
    | (.unsat, s') => ((none, .unsat), s')
    | (.unknown, s') => ((none, .unknown), s')

def findSingleOutputCounterexample (p : KInductionProblem) (exactPublicBadFrame : Option Nat)
    (solverProfile : BaseCaseSolverProfile) : σ → List Nat → Option Nat × σ
  | s, [] => (none, s)
  | s, output :: rest =>
    match findBaseCounterexampleQuery S solverType k s (p.makeSingleObservedOutputProblem output)
        exactPublicBadFrame solverProfile with
    | ((some frame, _), s') => (some frame, s')
    | ((none, _), s') => findSingleOutputCounterexample p exactPublicBadFrame solverProfile s' rest

/-- mirrors src/sec/kinduction/BaseCaseSolver.cpp:1516-1582 -/
def findPerOutputBaseCounterexampleAtFrontier (s : σ) (p : KInductionProblem)
    (exactPublicBadFrame : Option Nat) (solverProfile : BaseCaseSolverProfile) : Option Nat × σ :=
  if exactPublicBadFrame.isNone || !p.hasSeveralOutputs then (none, s)
  else
    findSingleOutputCounterexample S solverType k p exactPublicBadFrame solverProfile s
      (p.outputOrder solverProfile)

/-- mirrors src/sec/kinduction/BaseCaseSolver.cpp:1584-1776 -/
def findBaseCounterexampleImpl (s : σ) (p : KInductionProblem) (exactPublicBadFrame : Option Nat)
    (localizeMultiOutputFrontier : Bool) (solverProfile : BaseCaseSolverProfile) :
    (Option Nat × SolveStatus) × σ :=
  if localizeMultiOutputFrontier && exactPublicBadFrame.isSome && p.hasSeveralOutputs then
    let (witness, s') := findPerOutputBaseCounterexampleAtFrontier S solverType k s p
      exactPublicBadFrame solverProfile
    ((witness, .unsat), s')
  else findBaseCounterexampleQuery S solverType k s p exactPublicBadFrame solverProfile

/-- mirrors src/sec/kinduction/BaseCaseSolver.cpp:1778-1899 -/
def findImcCachedBaseCounterexampleAtFrontierQuery (s : σ) (p : KInductionProblem)
    (solverProfile : BaseCaseSolverProfile) : Option Nat × σ :=
  match p.badFrames k (some k) with
  | none => (none, s)
  | some (first, last) =>
    let q := p.baseQuery p.cachedFacts (p.frontierFrame k) first last
    match S.solve s q [] (baseSolveLimits solverType solverProfile) with
    | (.sat m, s') => (p.buildCounterexampleWitness m first last, s')
    | (_, s') => (none, s')

/-- The prefix that the outputs share: the cached query without its bad clause. -/
def frontierPrefixQuery (p : KInductionProblem) (first : Nat) : FrameQuery :=
  let st := p.queryStartup first
  p.basePrefixQuery p.cachedFacts st (p.buildBaseCaseCoi st (p.frontierFrame k)) (p.frontierFrame k)

/-- Output `i` of the two designs differs. -/
def outputMismatch (p : KInductionProblem) (i : Nat) : BoolExpr :=
  BoolExpr.simplify (BoolExpr.Xor (p.observedOutput i).1 (p.observedOutput i).2)

/-- The cone holds what the bad formula reads, which may be less than the outputs read.
mirrors src/sec/kinduction/BaseCaseSolver.cpp:1994-2002 -/
def outputBadLits (p : KInductionProblem) (first : Nat) : Except String (List FrameLit) :=
  let leafLits := (p.buildBaseCaseCoi (p.queryStartup first) (p.frontierFrame k)).solverSymbols
  (List.range p.observedOutputExprs0.length).mapM fun output =>
    encodeLeaves leafLits first (outputMismatch p output)

/-- One assumption after the other; an undecided one falls back to the query of its
output.
mirrors src/sec/kinduction/BaseCaseSolver.cpp:2004-2020 -/
def solveOutputAssumptions (p : KInductionProblem) (first : Nat) :
    σ → List (FrameLit × Nat) → Except String (Option Nat × σ)
  | s, [] => pure (none, s)
  | s, (outputBadLit, output) :: rest =>
    match S.solve s (frontierPrefixQuery k p first) [outputBadLit] .unlimited with
    | (.sat m, s') =>
      match p.buildCounterexampleWitness m first first with
      | some frame => pure (some frame, s')
      | none => .error "SAT model does not satisfy any bad frame"
    | (.unsat, s') => solveOutputAssumptions p first s' rest
    | (.unknown, s') =>
      match findImcCachedBaseCounterexampleAtFrontierQuery S solverType k s'
          (p.makeSingleObservedOutputProblem output) .secConeProof with
      | (some frame, s'') => pure (some frame, s'')
      | (none, s'') => solveOutputAssumptions p first s'' rest

/-- mirrors src/sec/kinduction/BaseCaseSolver.cpp:1901-2020 -/
def findImcAssumptionBaseCounterexampleAtFrontier (s : σ) (p : KInductionProblem) :
    Except String (Option Nat × σ) :=
  if p.observedOutputExprs0.isEmpty ||
      p.observedOutputExprs0.length != p.observedOutputExprs1.length then pure (none, s)
  else
    match p.badFrames k (some k) with
    | none => pure (none, s)
    | some (first, _) => do
      let lits ← outputBadLits k p first
      solveOutputAssumptions S solverType k p first s lits.zipIdx

/-- The first witness among the subsets. -/
def searchOutputSubsets (search : σ → KInductionProblem → Except String (Option Nat × σ))
    (p : KInductionProblem) : σ → List (Nat × Nat) → Except String (Option Nat × σ)
  | s, [] => pure (none, s)
  | s, (firstOutput, endOutput) :: rest => do
    let (witness, s') ← search s (p.outputSubset firstOutput endOutput)
    match witness with
    | some frame => pure (some frame, s')
    | none => searchOutputSubsets search p s' rest

/-- A subset has fewer outputs than its source, so `fuel` is their number.
mirrors src/sec/kinduction/BaseCaseSolver.cpp:2022-2059 -/
def findImcBaseCounterexampleAtFrontierImpl :
    Nat → σ → KInductionProblem → Except String (Option Nat × σ)
  | 0, s, p =>
    pure (findImcCachedBaseCounterexampleAtFrontierQuery S solverType k s p .secConeProof)
  | fuel + 1, s, p =>
    if p.hasSeveralOutputs then
      if p.observedOutputExprs0.length ≤ kMaxImcAssumptionFrontierBatchOutputs then
        if solverType = .kissat then
          pure (findImcCachedBaseCounterexampleAtFrontierQuery S solverType k s p .secConeProof)
        else findImcAssumptionBaseCounterexampleAtFrontier S solverType k s p
      else
        searchOutputSubsets (findImcBaseCounterexampleAtFrontierImpl fuel) p s
          p.buildStrictImcOutputSubsets
    else pure (findImcCachedBaseCounterexampleAtFrontierQuery S solverType k s p .secConeProof)

/-- mirrors src/sec/kinduction/BaseCaseSolver.cpp:2303-2312 -/
def findImcBaseCounterexampleAtFrontier (s : σ) (p : KInductionProblem) :
    Except String (Option Nat × σ) :=
  findImcBaseCounterexampleAtFrontierImpl S solverType k p.observedOutputExprs0.length s p

end Searches

open KInductionProblem

theorem unsatisfiable_of_status {σ : Type} {S : FrameSolver σ} {solverType : SolverType} {k : Nat}
    {s : σ} {p : KInductionProblem} {exactPublicBadFrame : Option Nat}
    {profile : BaseCaseSolverProfile}
    (h : (findBaseCounterexampleQuery S solverType k s p exactPublicBadFrame profile).1.2 = .unsat)
    {first last : Nat} (hframes : p.badFrames k exactPublicBadFrame = some (first, last)) :
    ¬ Satisfiable evalAtom (p.baseQuery p.plainFacts (p.frontierFrame k) first last) := by
  unfold findBaseCounterexampleQuery at h
  rw [hframes] at h
  simp only at h
  split at h
  · cases h
  · rename_i hsolve
    exact S.not_satisfiable (congrArg Prod.fst hsolve)
  · cases h

/-- A solver that only gives up under a limit decides the plain query, and a model of it
has a first bad frame. -/
theorem status_of_none {σ : Type} {S : FrameSolver σ} {solverType : SolverType} {k : Nat}
    {s : σ} {p : KInductionProblem} {exactPublicBadFrame : Option Nat}
    (hS : S.DecidesUnlimited)
    (h : (findBaseCounterexampleQuery S solverType k s p exactPublicBadFrame .secConeProof).1.1 =
      none) :
    (findBaseCounterexampleQuery S solverType k s p exactPublicBadFrame .secConeProof).1.2 =
      .unsat := by
  unfold findBaseCounterexampleQuery at h ⊢
  split
  · rfl
  · rename_i first last hframes
    simp only [hframes] at h ⊢
    split at h
    · rename_i m s' hsolve
      obtain ⟨_, f, hfirst, hlast, hbad⟩ := evalQuery_baseQuery.mp
        (S.sat_sound _ _ _ _ m (congrArg Prod.fst hsolve)).1
      have hfound : (p.findFirstBadFrame m first last).isSome = true := by
        unfold findFirstBadFrame
        rw [List.find?_isSome]
        exact ⟨f, by simp [hfirst, Nat.lt_succ_iff.mpr hlast], hbad⟩
      obtain ⟨g, hg⟩ := Option.isSome_iff_exists.mp hfound
      simp [buildCounterexampleWitness, hg] at h
    · rfl
    · rename_i hsolve
      exact absurd (congrArg Prod.fst hsolve) (hS _ _ _)

end KeplerFormal
