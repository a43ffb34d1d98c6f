import Mathlib.Data.List.GetD
import KeplerFormal.L2Problem.OutputBatching

/-!
# Output coverage (`src/sec/strategy/SequentialEquivalenceStrategy.cpp`)

What a strategy reports: the outputs that it checked, those that it left out with a reason,
and a status.

* `OutputCoverageSelection`, `buildCoverageWithDualRailOutputSkips`: the checked outputs,
  less those that stayed uncovered.
* `makeSecResult`: the result of a run; a proof that does not reach all outputs is partial.
* `buildCoverage_checked`, `buildCoverage_skipped`: what the reduced coverage holds.
-/
namespace KeplerFormal

open Core

/-- mirrors src/sec/strategy/SequentialEquivalenceStrategy.h:33-40 -/
inductive SequentialEquivalenceStatus where
  | equivalent
  | partiallyProved
  | different
  | inconclusive
  | unsupported
  | exported
  deriving DecidableEq, Repr

/-- mirrors src/sec/strategy/SequentialEquivalenceStrategy.h:56-61 -/
structure ExtractedBoundaryReportEntry where
  design : String
  signal : String
  roles : List String
  connectivitySkip : String
  deriving DecidableEq, Repr

/-- `proofProgress` is left out, only the IMC route sets it.
mirrors src/sec/strategy/SequentialEquivalenceStrategy.h:75-97 -/
structure SequentialEquivalenceResult where
  status : SequentialEquivalenceStatus
  bound : Nat
  reason : String
  coveredOutputs : Nat
  totalOutputs : Nat
  skippedObservedOutputs : List String
  resetUnanchoredSkippedOutputs : List String
  multiClockDomainSkippedOutputs : List String
  opaqueCellSkippedOutputs : List String
  extractedBoundaryReports : List ExtractedBoundaryReportEntry
  deriving DecidableEq, Repr

/-- One position of the three parallel lists of `AlignedSignals`. -/
structure AlignedSignal (κ : Type) where
  name : String
  key0 : κ
  key1 : κ
  deriving DecidableEq, Repr

/-- mirrors src/sec/strategy/SequentialEquivalenceStrategy.cpp:373-380 -/
structure OutputCoverageSelection (κ : Type) where
  checkedOutputs : List (AlignedSignal κ)
  skippedOutputs : List String
  resetUnanchoredSkippedOutputs : List String := []
  multiClockDomainSkippedOutputs : List String := []
  opaqueCellSkippedOutputs : List String := []
  totalOutputs : Nat
  deriving DecidableEq, Repr

/-- `std::unordered_map<size_t, std::string>`; the first entry of an index counts. -/
abbrev SkipReasons := List (Nat × String)

variable {κ : Type}

/-- mirrors src/sec/strategy/SequentialEquivalenceStrategy.cpp:1074-1105 -/
def makeSecResult (status : SequentialEquivalenceStatus) (bound : Nat) (reason : String)
    (coverage : OutputCoverageSelection κ)
    (extractedBoundaryReports : List ExtractedBoundaryReportEntry) :
    SequentialEquivalenceResult :=
  let coveredOutputs := coverage.checkedOutputs.length
  { status :=
      if status = .equivalent ∧ 0 < coveredOutputs ∧ coveredOutputs < coverage.totalOutputs then
        .partiallyProved
      else status
    bound := bound
    reason := reason
    coveredOutputs := coveredOutputs
    totalOutputs := coverage.totalOutputs
    skippedObservedOutputs := coverage.skippedOutputs
    resetUnanchoredSkippedOutputs := coverage.resetUnanchoredSkippedOutputs
    multiClockDomainSkippedOutputs := coverage.multiClockDomainSkippedOutputs
    opaqueCellSkippedOutputs := coverage.opaqueCellSkippedOutputs
    extractedBoundaryReports := extractedBoundaryReports }

/-- `observedOutputNames` is the field of the problem that only reports read.
mirrors src/sec/strategy/SequentialEquivalenceStrategy.cpp:1107-1112 -/
def outputNameForProblemIndex (observedOutputNames : List String) (outputIndex : Nat) : String :=
  observedOutputNames.getD outputIndex (toString outputIndex)

/-! ## Covered and skipped outputs -/

/-- mirrors src/sec/strategy/SequentialEquivalenceStrategy.cpp:1121-1136 -/
def markPdrOutputRangeCovered (coveredOutputs : List Bool) (skipReasons : SkipReasons)
    (t : Nat × Nat) : List Bool × SkipReasons :=
  (coveredOutputs.mapIdx fun i covered => inRange t i || covered,
    skipReasons.filter fun e => !inRange (t.1, min t.2 coveredOutputs.length) e.1)

/-- mirrors src/sec/strategy/SequentialEquivalenceStrategy.cpp:1138-1150 -/
def markPdrOutputRangeSkipped (coveredOutputs : List Bool) (skipReasons : SkipReasons)
    (t : Nat × Nat) (reason : String) : List Bool × SkipReasons :=
  let skipped := (List.range coveredOutputs.length).filter (inRange t)
  (coveredOutputs.mapIdx fun i covered => !inRange t i && covered,
    skipped.map (·, reason) ++ skipReasons)

/-- The outputs that stayed uncovered, in order. -/
def uncovered (coveredOutputs : List Bool) : List Nat :=
  (List.range coveredOutputs.length).filter fun i => !coveredOutputs.getD i false

/-- mirrors src/sec/strategy/SequentialEquivalenceStrategy.cpp:1185-1196 -/
def skipReason (p : KInductionProblem) (coveredOutputs : List Bool) (skipReasons : SkipReasons)
    (i : Nat) : String :=
  match skipReasons.lookup i with
  | some reason => reason
  | none =>
    if p.dualRailOutputSkipReasons.length = coveredOutputs.length ∧
        p.dualRailOutputSkipReasons.getD i "" ≠ "" then
      p.dualRailOutputSkipReasons.getD i ""
    else "dual-rail proof was inconclusive"

/-- mirrors src/sec/strategy/SequentialEquivalenceStrategy.cpp:1152-1201 -/
def buildCoverageWithDualRailOutputSkips (baseCoverage : OutputCoverageSelection κ)
    (p : KInductionProblem) (observedOutputNames : List String) (coveredOutputs : List Bool)
    (skipReasons : SkipReasons) : OutputCoverageSelection κ :=
  if coveredOutputs = [] then baseCoverage
  else if baseCoverage.checkedOutputs.length ≠ coveredOutputs.length then baseCoverage
  else if coveredOutputs.count true = coveredOutputs.length ∧ skipReasons = [] then baseCoverage
  else
    { baseCoverage with
      checkedOutputs :=
        ((baseCoverage.checkedOutputs.zip coveredOutputs).filter (·.2)).map (·.1)
      skippedOutputs := baseCoverage.skippedOutputs ++ (uncovered coveredOutputs).map fun i =>
        outputNameForProblemIndex observedOutputNames i ++ ": " ++
          skipReason p coveredOutputs skipReasons i }

/-- mirrors src/sec/strategy/SequentialEquivalenceStrategy.cpp:1203-1219 -/
def collectOutputsRequiringDualRailEngineProof (p : KInductionProblem) : List Nat :=
  (List.range p.observedOutputExprs0.length).filter fun i =>
    !(p.dualRailOutputSkipReasons.length == p.observedOutputExprs0.length &&
      p.dualRailOutputSkipReasons.getD i "" != "")

/-! ## What is reported -/

theorem count_covered (coveredOutputs : List Bool) :
    coveredOutputs.count true =
      ((List.range coveredOutputs.length).filter fun i => coveredOutputs.getD i false).length := by
  have hmap : (List.range coveredOutputs.length).map (fun i => coveredOutputs.getD i false) =
      coveredOutputs := by
    refine List.ext_getElem (by simp) fun i hi hi' => ?_
    rw [List.getElem_map, List.getElem_range, List.getD_eq_getElem _ _ hi']
  conv_lhs => rw [← hmap]
  rw [List.count, List.countP_map, List.countP_eq_length_filter]
  congr 2
  funext i
  simp

/-- An uncovered output is listed once, a covered one is not. -/
theorem count_uncovered {coveredOutputs : List Bool} {i : Nat} (hi : i < coveredOutputs.length) :
    (uncovered coveredOutputs).count i = if coveredOutputs.getD i false = true then 0 else 1 := by
  have hmem : i ∈ uncovered coveredOutputs ↔ ¬ coveredOutputs.getD i false = true := by
    simp [uncovered, hi]
  have hnodup : (uncovered coveredOutputs).Nodup := List.nodup_range.filter _
  split
  · rename_i hcovered
    exact List.count_eq_zero_of_not_mem fun h => hmem.mp h hcovered
  · rename_i hcovered
    exact List.count_eq_one_of_mem hnodup (hmem.mpr hcovered)

theorem uncovered_of_all {coveredOutputs : List Bool}
    (hall : coveredOutputs.count true = coveredOutputs.length) : uncovered coveredOutputs = [] := by
  have htrue : ∀ c ∈ coveredOutputs, true = c := List.count_eq_length.mp hall
  refine List.filter_eq_nil_iff.mpr fun i hi => ?_
  have hi' := List.mem_range.mp hi
  rw [List.getD_eq_getElem _ _ hi', ← htrue _ (List.getElem_mem hi')]
  decide

theorem length_zip_filter {α : Type} {xs : List α} {coveredOutputs : List Bool}
    (hlength : xs.length = coveredOutputs.length) :
    ((xs.zip coveredOutputs).filter (·.2)).length = coveredOutputs.count true := by
  induction xs generalizing coveredOutputs with
  | nil =>
    cases coveredOutputs with
    | nil => rfl
    | cons => cases hlength
  | cons x xs ih =>
    cases coveredOutputs with
    | nil => cases hlength
    | cons c coveredOutputs =>
      have htail := ih (Nat.succ_inj.mp hlength)
      cases c
      · simpa using htail
      · simpa using htail

section
variable {baseCoverage : OutputCoverageSelection κ} {p : KInductionProblem}
  {observedOutputNames : List String} {coveredOutputs : List Bool} {skipReasons : SkipReasons}
  (hlength : baseCoverage.checkedOutputs.length = coveredOutputs.length)
include hlength

/-- As many outputs stay checked as are covered. -/
theorem buildCoverage_checked :
    (buildCoverageWithDualRailOutputSkips baseCoverage p observedOutputNames coveredOutputs
      skipReasons).checkedOutputs.length = coveredOutputs.count true := by
  unfold buildCoverageWithDualRailOutputSkips
  rw [if_neg (not_not_intro hlength)]
  split
  · rename_i hnil
    rw [hlength, hnil]
    rfl
  · split
    · rename_i hall
      rw [hlength, hall.1]
    · rw [List.length_map]
      exact length_zip_filter hlength

/-- The uncovered outputs are added to the skipped ones, each with a reason. -/
theorem buildCoverage_skipped :
    (buildCoverageWithDualRailOutputSkips baseCoverage p observedOutputNames coveredOutputs
      skipReasons).skippedOutputs =
      baseCoverage.skippedOutputs ++ (uncovered coveredOutputs).map fun i =>
        outputNameForProblemIndex observedOutputNames i ++ ": " ++
          skipReason p coveredOutputs skipReasons i := by
  unfold buildCoverageWithDualRailOutputSkips
  rw [if_neg (not_not_intro hlength)]
  split
  · rename_i hnil
    subst hnil
    simp [uncovered]
  · split
    · rename_i hall
      simp [uncovered_of_all hall.1]
    · rfl

end

end KeplerFormal
