import Mathlib.Data.Finset.Card
import KeplerFormal.Core.Tiling
import KeplerFormal.L2Problem.Problem

/-!
# Output slices (`src/sec/kinduction/OutputBatching.cpp`)

The observed outputs of a problem are cut into ranges. A slice is the same problem
with a range of the outputs and the property and bad formula of that range.

* `observing`: a problem with other outputs and formulas, and the same system.
* `tiles_buildSupportBoundedOutputBatches`: the ranges follow one another and cover all
  outputs, for every limit.
* `Slice`, `Slice.observes`: what a problem is cut into, and that a slice is bad where
  one of its outputs differs.
-/
namespace KeplerFormal

open Core

/-- What a slice, or a proof attempt on one, replaces in its source. -/
structure OutputView where
  originalObservedOutputCount : Nat
  observedOutputExprs0 : List BoolExpr
  observedOutputExprs1 : List BoolExpr
  dualRailOutputSkipReasons : List String
  property : BoolExpr
  bad : BoolExpr
  inductionProperty : Option BoolExpr
  inductionBad : Option BoolExpr
  deferBaseCaseChecks : Bool

/-- mirrors src/sec/kinduction/OutputBatching.h:14-17 -/
structure OutputBatchingLimits where
  maxOutputBatchSize : Nat := 32
  outputBatchSupportLimit : Nat := 512
  deriving DecidableEq, Repr

def kDefaultOutputBatchingLimits : OutputBatchingLimits := {}

def kHugeDualRailOutputBatchingLimits : OutputBatchingLimits := ⟨1, 1⟩

def kDualRailOutputBatchingLimits : OutputBatchingLimits := ⟨8, 256⟩

def kSmallDualRailOutputBatchingLimits : OutputBatchingLimits := ⟨32, 4096⟩

def kMaxSmallDualRailBatchOutputs : Nat := 32

def kMaxSmallDualRailBatchStateSymbols : Nat := 512

def kMinHugeDualRailBatchStateSymbols : Nat := 65536

namespace KInductionProblem
variable (p : KInductionProblem)

def observing (view : OutputView) : KInductionProblem :=
  { p with
    originalObservedOutputCount := view.originalObservedOutputCount
    observedOutputExprs0 := view.observedOutputExprs0
    observedOutputExprs1 := view.observedOutputExprs1
    dualRailOutputSkipReasons := view.dualRailOutputSkipReasons
    property := view.property
    bad := view.bad
    inductionProperty := view.inductionProperty
    inductionBad := view.inductionBad
    deferBaseCaseChecks := view.deferBaseCaseChecks }

/-- What `p` itself shows. -/
def ownView : OutputView where
  originalObservedOutputCount := p.originalObservedOutputCount
  observedOutputExprs0 := p.observedOutputExprs0
  observedOutputExprs1 := p.observedOutputExprs1
  dualRailOutputSkipReasons := p.dualRailOutputSkipReasons
  property := p.property
  bad := p.bad
  inductionProperty := p.inductionProperty
  inductionBad := p.inductionBad
  deferBaseCaseChecks := p.deferBaseCaseChecks

/-- More than one output, with both sides; the paths by output ask for this. -/
def hasSeveralOutputs : Bool :=
  decide (1 < p.observedOutputExprs0.length) &&
    p.observedOutputExprs0.length == p.observedOutputExprs1.length

/-- The two sides of output `i`, which is in range at every use. -/
def observedOutput (i : Nat) : BoolExpr × BoolExpr :=
  (p.observedOutputExprs0.getD i .createFalse, p.observedOutputExprs1.getD i .createFalse)

/-! ## Batches -/

/-- mirrors src/sec/kinduction/OutputBatching.cpp:43-48 -/
def dualRailStateSymbolCount : Nat :=
  if !p.dualRailStatePairs.isEmpty then p.dualRailStatePairs.length * 2
  else p.state0Symbols.length + p.state1Symbols.length

def isSmallDualRailBatchingSurface : Bool :=
  decide (p.observedOutputExprs0.length ≤ kMaxSmallDualRailBatchOutputs) &&
    decide (p.dualRailStateSymbolCount ≤ kMaxSmallDualRailBatchStateSymbols)

def isHugeDualRailBatchingSurface : Bool :=
  decide (kMinHugeDualRailBatchStateSymbols ≤ p.dualRailStateSymbolCount)

/-- Only the returned limits; the function also writes the public hypothesis of the
lazy transition store.
mirrors src/sec/kinduction/OutputBatching.cpp:138-163 -/
def defaultOutputBatchingLimitsForProblem : OutputBatchingLimits :=
  if p.usesDualRailStateEncoding then
    if p.isSmallDualRailBatchingSurface then kSmallDualRailOutputBatchingLimits
    else if p.isHugeDualRailBatchingSurface then kHugeDualRailOutputBatchingLimits
    else kDualRailOutputBatchingLimits
  else kDefaultOutputBatchingLimits

/-- mirrors src/sec/kinduction/OutputBatching.cpp:33-42 -/
def outputSupport (i : Nat) : Finset Nat :=
  (p.observedOutput i).1.getSupportVars ∪ (p.observedOutput i).2.getSupportVars

/-- The inner loop: where the batch from `firstOutput` ends.
mirrors src/sec/kinduction/OutputBatching.cpp:112-129 -/
def batchEnd (limits : OutputBatchingLimits) (firstOutput : Nat) :
    Nat → Nat → Finset Nat → Nat
  | 0, endOutput, _ => endOutput
  | fuel + 1, endOutput, batchSupport =>
    if endOutput < p.observedOutputExprs0.length then
      let candidateSupport := batchSupport ∪ p.outputSupport endOutput
      if firstOutput < endOutput ∧
          (limits.maxOutputBatchSize < endOutput - firstOutput + 1 ∨
            limits.outputBatchSupportLimit < candidateSupport.card) then endOutput
      else batchEnd limits firstOutput fuel (endOutput + 1) candidateSupport
    else endOutput

/-- The outer loop; every batch takes an output, so `fuel` is their number. -/
def outputBatchesFrom (limits : OutputBatchingLimits) : Nat → Nat → List (Nat × Nat)
  | 0, _ => []
  | fuel + 1, firstOutput =>
    if firstOutput < p.observedOutputExprs0.length then
      let endOutput := p.batchEnd limits firstOutput p.observedOutputExprs0.length firstOutput ∅
      (firstOutput, endOutput) :: outputBatchesFrom limits fuel endOutput
    else []

/-- mirrors src/sec/kinduction/OutputBatching.cpp:102-136 -/
def buildSupportBoundedOutputBatches (limits : OutputBatchingLimits) : List (Nat × Nat) :=
  p.outputBatchesFrom limits p.observedOutputExprs0.length 0

/-! ## Slices -/

/-- `property` of the outputs of a slice. -/
def outputConjunction (exprs0 exprs1 : List BoolExpr) : BoolExpr :=
  BoolExpr.simplify ((exprs0.zip exprs1).foldl (fun property o =>
    BoolExpr.And property (BoolExpr.makeEqualityExpr o.1 o.2)) BoolExpr.createTrue)

/-- mirrors src/sec/kinduction/OutputBatching.cpp:165-225 -/
def configureOutputBatchProblem (firstOutput endOutput : Nat) : KInductionProblem :=
  let slice {α : Type} (xs : List α) : List α := (xs.drop firstOutput).take (endOutput - firstOutput)
  let exprs0 := slice p.observedOutputExprs0
  let exprs1 := slice p.observedOutputExprs1
  let property := outputConjunction exprs0 exprs1
  let bad := BoolExpr.simplify (BoolExpr.Not property)
  p.observing {
    originalObservedOutputCount :=
      if p.originalObservedOutputCount = 0 then p.observedOutputExprs0.length
      else p.originalObservedOutputCount
    observedOutputExprs0 := exprs0
    observedOutputExprs1 := exprs1
    dualRailOutputSkipReasons :=
      if p.dualRailOutputSkipReasons.length = p.observedOutputExprs0.length then
        slice p.dualRailOutputSkipReasons
      else []
    property := property
    bad := bad
    inductionProperty := some property
    inductionBad := some bad
    deferBaseCaseChecks := p.deferBaseCaseChecks }

/-- mirrors src/sec/kinduction/BaseCaseSolver.cpp:1405-1432 -/
def makeSingleObservedOutputProblem (outputIndex : Nat) : KInductionProblem :=
  let o := p.observedOutput outputIndex
  let outputBad := BoolExpr.simplify (BoolExpr.Xor o.1 o.2)
  p.observing {
    originalObservedOutputCount := p.originalObservedOutputCount
    observedOutputExprs0 := [o.1]
    observedOutputExprs1 := [o.2]
    dualRailOutputSkipReasons := p.dualRailOutputSkipReasons
    property := BoolExpr.Not outputBad
    bad := outputBad
    inductionProperty := some (BoolExpr.Not outputBad)
    inductionBad := some outputBad
    deferBaseCaseChecks := p.deferBaseCaseChecks }

/-- The two sides of output `i` differ. -/
def outputDiffers (i : Nat) (σ : Valuation) : Prop :=
  (p.observedOutput i).1.eval σ ≠ (p.observedOutput i).2.eval σ

/-- The bad formula says that some output differs. -/
def ObservesOutputs : Prop :=
  ∀ σ, p.bad.eval σ = true ↔ ∃ i < p.observedOutputExprs0.length, p.outputDiffers i σ

/-- What the engines cut a problem into. -/
inductive Slice : KInductionProblem → Prop where
  | self : Slice p
  | single {q : KInductionProblem} {i : Nat} (h : Slice q)
      (hi : i < q.observedOutputExprs0.length) : Slice (q.makeSingleObservedOutputProblem i)
  | batch {q : KInductionProblem} {firstOutput endOutput : Nat} (h : Slice q)
      (hfirst : firstOutput < endOutput) (hend : endOutput ≤ q.observedOutputExprs0.length) :
      Slice (q.configureOutputBatchProblem firstOutput endOutput)

variable {p}

/-! ## The batches tile the outputs -/

theorem le_batchEnd {limits : OutputBatchingLimits} {firstOutput fuel endOutput : Nat}
    {support : Finset Nat} (hend : endOutput ≤ p.observedOutputExprs0.length) :
    endOutput ≤ p.batchEnd limits firstOutput fuel endOutput support ∧
      p.batchEnd limits firstOutput fuel endOutput support ≤ p.observedOutputExprs0.length := by
  induction fuel generalizing endOutput support with
  | zero => exact ⟨Nat.le_refl _, hend⟩
  | succ fuel ih =>
    unfold batchEnd
    split
    · rename_i hlt
      simp only
      split
      · exact ⟨Nat.le_refl _, hend⟩
      · have hnext : endOutput + 1 ≤ p.observedOutputExprs0.length := hlt
        exact ⟨Nat.le_of_succ_le (ih hnext).1, (ih hnext).2⟩
    · exact ⟨Nat.le_refl _, hend⟩

/-- A batch has at least its first output. -/
theorem lt_batchEnd {limits : OutputBatchingLimits} {firstOutput fuel : Nat} {support : Finset Nat}
    (hfirst : firstOutput < p.observedOutputExprs0.length) :
    firstOutput < p.batchEnd limits firstOutput (fuel + 1) firstOutput support := by
  unfold batchEnd
  rw [if_pos hfirst]
  simp only [Nat.lt_irrefl, false_and, if_false]
  exact Nat.lt_of_succ_le (le_batchEnd (Nat.succ_le_of_lt hfirst)).1

theorem tiles_outputBatchesFrom {limits : OutputBatchingLimits} {fuel firstOutput : Nat}
    (hfirst : firstOutput ≤ p.observedOutputExprs0.length)
    (hfuel : p.observedOutputExprs0.length ≤ firstOutput + fuel) :
    Tiles firstOutput (p.outputBatchesFrom limits fuel firstOutput)
      p.observedOutputExprs0.length := by
  induction fuel generalizing firstOutput with
  | zero =>
    obtain rfl : firstOutput = p.observedOutputExprs0.length := by omega
    exact .nil _
  | succ fuel ih =>
    unfold outputBatchesFrom
    split
    · rename_i hlt
      obtain ⟨n, hn⟩ : ∃ n, p.observedOutputExprs0.length = n + 1 :=
        ⟨p.observedOutputExprs0.length - 1, by omega⟩
      have hbatch : firstOutput <
          p.batchEnd limits firstOutput p.observedOutputExprs0.length firstOutput ∅ := by
        rw [hn]
        exact lt_batchEnd hlt
      exact .cons hbatch (ih (le_batchEnd hfirst).2 (by omega))
    · obtain rfl : firstOutput = p.observedOutputExprs0.length := by omega
      exact .nil _

/-- The batches follow one another and cover all outputs. -/
theorem tiles_buildSupportBoundedOutputBatches (limits : OutputBatchingLimits) :
    Tiles 0 (p.buildSupportBoundedOutputBatches limits) p.observedOutputExprs0.length :=
  tiles_outputBatchesFrom (Nat.zero_le _) (by omega)

/-! ## What the formulas of a slice say -/

theorem observedOutput_single (i : Nat) :
    (p.makeSingleObservedOutputProblem i).observedOutput 0 = p.observedOutput i := rfl

theorem length_configureOutputBatchProblem {firstOutput endOutput : Nat}
    (hend : endOutput ≤ p.observedOutputExprs0.length) :
    (p.configureOutputBatchProblem firstOutput endOutput).observedOutputExprs0.length =
      endOutput - firstOutput := by
  simp only [configureOutputBatchProblem, observing, List.length_take, List.length_drop]
  omega

/-- Output `j` of a range is output `firstOutput + j` of the source. -/
theorem observedOutput_batch {firstOutput endOutput j : Nat} (hj : firstOutput + j < endOutput) :
    (p.configureOutputBatchProblem firstOutput endOutput).observedOutput j =
      p.observedOutput (firstOutput + j) := by
  have hslice : ∀ xs : List BoolExpr,
      ((xs.drop firstOutput).take (endOutput - firstOutput)).getD j .createFalse =
        xs.getD (firstOutput + j) .createFalse := by
    intro xs
    rw [List.getD_eq_getElem?_getD, List.getD_eq_getElem?_getD,
      List.getElem?_take_of_lt (by omega), List.getElem?_drop]
  exact Prod.ext (hslice p.observedOutputExprs0) (hslice p.observedOutputExprs1)

theorem eval_outputConjunction (σ : Valuation) (exprs0 exprs1 : List BoolExpr) :
    (outputConjunction exprs0 exprs1).eval σ = true ↔
      ∀ o ∈ exprs0.zip exprs1, o.1.eval σ = o.2.eval σ := by
  have hfold : ∀ (os : List (BoolExpr × BoolExpr)) (e : BoolExpr),
      (os.foldl (fun property o =>
        BoolExpr.And property (BoolExpr.makeEqualityExpr o.1 o.2)) e).eval σ = true ↔
        e.eval σ = true ∧ ∀ o ∈ os, o.1.eval σ = o.2.eval σ := by
    intro os
    induction os with
    | nil => simp
    | cons o os ih =>
      intro e
      rw [List.foldl_cons, ih]
      simp [and_assoc]
  rw [outputConjunction, BoolExpr.eval_simplify, hfold]
  simp

theorem observes_single (i : Nat) : (p.makeSingleObservedOutputProblem i).ObservesOutputs := by
  intro σ
  have hbad : (p.makeSingleObservedOutputProblem i).bad.eval σ =
      ((p.observedOutput i).1.eval σ ^^ (p.observedOutput i).2.eval σ) := by
    show (BoolExpr.simplify _).eval σ = _
    rw [BoolExpr.eval_simplify, BoolExpr.eval_Xor]
  rw [hbad]
  constructor
  · intro h
    refine ⟨0, Nat.zero_lt_one, ?_⟩
    unfold outputDiffers
    rw [observedOutput_single]
    simpa using h
  · rintro ⟨j, hj, hdiffers⟩
    obtain rfl : j = 0 := Nat.lt_one_iff.mp hj
    unfold outputDiffers at hdiffers
    rw [observedOutput_single] at hdiffers
    simpa using hdiffers

theorem observes_batch (hsides : p.observedOutputExprs0.length = p.observedOutputExprs1.length)
    (firstOutput endOutput : Nat) :
    (p.configureOutputBatchProblem firstOutput endOutput).ObservesOutputs := by
  intro σ
  generalize hq : p.configureOutputBatchProblem firstOutput endOutput = q
  have hsides' : q.observedOutputExprs0.length = q.observedOutputExprs1.length := by
    subst hq
    simp [configureOutputBatchProblem, observing, hsides]
  have hbad : q.bad.eval σ = !(outputConjunction q.observedOutputExprs0
      q.observedOutputExprs1).eval σ := by
    subst hq
    simp [configureOutputBatchProblem, observing]
  have hconj := eval_outputConjunction σ q.observedOutputExprs0 q.observedOutputExprs1
  rw [hbad, Bool.not_eq_true', ← Bool.not_eq_true, hconj]
  simp only [not_forall]
  constructor
  · rintro ⟨o, ho, hne⟩
    obtain ⟨i, hi, rfl⟩ := List.mem_iff_getElem.mp ho
    rw [List.length_zip] at hi
    refine ⟨i, by omega, ?_⟩
    unfold outputDiffers observedOutput
    rw [List.getElem_zip] at hne
    have hi0 : i < q.observedOutputExprs0.length := by omega
    have hi1 : i < q.observedOutputExprs1.length := by omega
    simpa [List.getD_eq_getElem?_getD, List.getElem?_eq_getElem hi0,
      List.getElem?_eq_getElem hi1] using hne
  · rintro ⟨i, hi, hne⟩
    have hi' : i < q.observedOutputExprs1.length := hsides' ▸ hi
    refine ⟨(q.observedOutputExprs0[i], q.observedOutputExprs1[i]), ?_, ?_⟩
    · have hlen : i < (q.observedOutputExprs0.zip q.observedOutputExprs1).length := by
        rw [List.length_zip]
        omega
      have hmem := List.getElem_mem hlen
      rwa [List.getElem_zip] at hmem
    · unfold outputDiffers observedOutput at hne
      simpa [List.getD_eq_getElem?_getD, List.getElem?_eq_getElem hi,
        List.getElem?_eq_getElem hi'] using hne

/-- A slice differs from its source in its outputs only. -/
theorem Slice.exists_view {q : KInductionProblem} (h : p.Slice q) :
    q = p ∨ ∃ view, q = p.observing view := by
  induction h with
  | self => exact .inl rfl
  | single _ _ ih => rcases ih with rfl | ⟨view, rfl⟩ <;> exact .inr ⟨_, rfl⟩
  | batch _ _ _ ih => rcases ih with rfl | ⟨view, rfl⟩ <;> exact .inr ⟨_, rfl⟩

theorem Slice.trans {q r : KInductionProblem} (hq : p.Slice q) (hr : q.Slice r) : p.Slice r := by
  induction hr with
  | self => exact hq
  | single _ hi ih => exact .single ih hi
  | batch _ hfirst hend ih => exact .batch ih hfirst hend

theorem Slice.sides {q : KInductionProblem}
    (hsides : p.observedOutputExprs0.length = p.observedOutputExprs1.length) (h : p.Slice q) :
    q.observedOutputExprs0.length = q.observedOutputExprs1.length := by
  induction h with
  | self => exact hsides
  | single => rfl
  | batch _ _ _ ih => simp [configureOutputBatchProblem, observing, ih]

/-- Every slice is bad where one of its outputs differs. -/
theorem Slice.observes {q : KInductionProblem}
    (hsides : p.observedOutputExprs0.length = p.observedOutputExprs1.length)
    (hp : p.ObservesOutputs) (h : p.Slice q) : q.ObservesOutputs := by
  cases h with
  | self => exact hp
  | single _ _ => exact observes_single _
  | batch h _ _ => exact observes_batch (h.sides hsides) _ _

end KInductionProblem
end KeplerFormal
