import KeplerFormal.Core.Packing
import KeplerFormal.L2Problem.DualRailSound
import KeplerFormal.L2Problem.OutputBatching
import KeplerFormal.L4Engine.CraigLoop

/-!
# Output batches of the engines (`OutputBatching.cpp`, `src/sec/imc/IMCEngine.cpp`)

k-induction and the large dual-rail Craig engine prove the outputs in batches. Both
pack greedily; the Craig engine measures an output by its projection closure when that
is cached, and asks for overlap besides.

* `buildLargeDualRailCraigImcOutputBatches`: the Craig batches.
* `mem_supportBatches`, `mem_craigBatches`: a batch of two outputs or more is within
  both limits.
* `batchProperties_iff`: the properties of any tiling say what the problem's property
  says.
* `outputBatches_partition`: all of it, for both engines.
-/
namespace KeplerFormal

open Core

/-! ## Support of an output -/

def kCraigBatchMinOverlapPercent : Nat := 90
def kCraigBatchMinMarginalSupportLimit : Nat := 64
def kCraigBatchMarginalSupportDivisor : Nat := 10
def kCraigBatchSingleOutputSupportLimit : Nat := 1024
def kCraigBatchProjectionSoftLimit : Nat := 1024
def kCraigBatchProjectionHardLimit : Nat := 2048
def kCraigBatchProjectionSoftMaxOutputs : Nat := 4
def kCraigBatchProjectionHardMaxOutputs : Nat := 2
def kCraigProjectionCacheWorkLimit : Nat := 500000
def kCraigDenseProjectionCacheStateThreshold : Nat := 4096
def kCraigDenseProjectionCacheOutputThreshold : Nat := 64
def kCraigIndexedVectorOutputRawSupportLimit : Nat := 64
def kCraigIndexedVectorUnionRawSupportLimit : Nat := 128

structure CraigOutputSupport where
  raw : Finset Nat := ∅
  projection : Finset Nat := ∅

structure CraigOutputSupportCache where
  outputSupports : List CraigOutputSupport
  outputNames : List String

/-- mirrors src/sec/imc/IMCEngine.cpp:170-173 -/
def batchingSupport (support : CraigOutputSupport) : Finset Nat :=
  if support.projection = ∅ then support.raw else support.projection

/-- mirrors src/sec/imc/IMCEngine.cpp:193-197 -/
def mergeCraigOutputSupport (batchSupport outputSupport : CraigOutputSupport) :
    CraigOutputSupport :=
  ⟨batchSupport.raw ∪ outputSupport.raw, batchSupport.projection ∪ outputSupport.projection⟩

namespace CraigOutputSupportCache
variable (cache : CraigOutputSupportCache)

/-- The support of output `i`, which is in range at every use. -/
def outputSupport (i : Nat) : CraigOutputSupport := cache.outputSupports.getD i {}

def addOutput (batchSupport : CraigOutputSupport) (i : Nat) : CraigOutputSupport :=
  mergeCraigOutputSupport batchSupport (cache.outputSupport i)

/-- mirrors src/sec/imc/IMCEngine.cpp:199-210 -/
def mergedCraigOutputSupportForRange (firstOutput endOutput : Nat) : CraigOutputSupport :=
  collect cache.addOutput {} firstOutput (min endOutput cache.outputSupports.length)

end CraigOutputSupportCache

namespace KInductionProblem
variable (p : KInductionProblem)

/-- mirrors src/sec/imc/CraigInterpolatingModelChecker.cpp:2322-2334 -/
def transitionTargetFor (symbol : Nat) : Nat :=
  if p.contains symbol then symbol
  else match p.primaryByComplement symbol with
    | some primary => if p.contains primary then primary else symbol
    | none => symbol

/-- mirrors src/sec/imc/CraigInterpolatingModelChecker.cpp:2336-2360 -/
def transitionProjectionSupport (tracked : Finset Nat) : Finset Nat :=
  closeSameDesignStateSemantics p (tracked ∪ tracked.biUnion fun requested =>
    let target := p.transitionTargetFor requested
    if target ∈ tracked ∧ p.contains target = true then
      p.transitionSupport target ∩ p.stateSymbolSet.toFinset
    else ∅)

/-- The rounds of the closure; the fuel is the bound of the loop. -/
def projectionRounds : Nat → Finset Nat → Finset Nat
  | 0, tracked => tracked
  | rounds + 1, tracked =>
    let next := closeSameDesignStateSemantics p (tracked ∪ p.transitionProjectionSupport tracked)
    if next.card = tracked.card then next else projectionRounds rounds next

/-- mirrors src/sec/imc/CraigInterpolatingModelChecker.cpp:4859-4887 -/
def computeCraigImcProjectionClosure (seedSupport : Finset Nat) : Finset Nat :=
  let states := p.stateSymbolSet.toFinset
  let tracked := closeSameDesignStateSemantics p (seedSupport ∩ states)
  if tracked = ∅ then tracked else p.projectionRounds (states.card + 1) tracked

/-- mirrors src/sec/imc/IMCEngine.cpp:121-141 -/
def shouldBuildCraigProjectionSupportCache : Bool :=
  let outputCount := p.observedOutputExprs0.length
  let stateCount := p.effectiveTotalStateCount
  if outputCount = 0 ∨ stateCount = 0 then true
  else if kCraigDenseProjectionCacheStateThreshold ≤ stateCount ∧
      kCraigDenseProjectionCacheOutputThreshold ≤ outputCount then false
  else decide (stateCount ≤ kCraigProjectionCacheWorkLimit / outputCount)

/-- mirrors src/sec/imc/IMCEngine.cpp:143-168 -/
def buildCraigOutputSupportCache (observedOutputNames : List String) :
    CraigOutputSupportCache where
  outputSupports := (List.range p.observedOutputExprs0.length).map fun output =>
    { raw := p.outputSupport output
      projection := if p.shouldBuildCraigProjectionSupportCache then
        p.computeCraigImcProjectionClosure (p.outputSupport output) else ∅ }
  outputNames := observedOutputNames

end KInductionProblem

/-! ## Admission to a Craig batch -/

/-- mirrors src/sec/imc/IMCEngine.cpp:293-297 -/
def marginalSupportLimit (batchSupportSize : Nat) : Nat :=
  max kCraigBatchMinMarginalSupportLimit (batchSupportSize / kCraigBatchMarginalSupportDivisor)

/-- mirrors src/sec/imc/IMCEngine.cpp:299-316 -/
def adaptiveCraigBatchMaxOutputCount (batchSupport outputSupport : CraigOutputSupport)
    (limits : OutputBatchingLimits) : Nat :=
  let projectionSize := max (batchingSupport batchSupport).card (batchingSupport outputSupport).card
  if kCraigBatchProjectionHardLimit ≤ projectionSize then
    min limits.maxOutputBatchSize kCraigBatchProjectionHardMaxOutputs
  else if kCraigBatchProjectionSoftLimit ≤ projectionSize then
    min limits.maxOutputBatchSize kCraigBatchProjectionSoftMaxOutputs
  else limits.maxOutputBatchSize

/-- The name before a decimal index in brackets.
mirrors src/sec/imc/IMCEngine.cpp:318-337 -/
def indexedOutputVectorBase (outputName : String) : Option (List Char) :=
  match outputName.toList.reverse with
  | ']' :: body =>
    match body.takeWhile (· != '['), body.dropWhile (· != '[') with
    | digits, '[' :: base =>
      if base = [] ∨ digits = [] then none
      else if digits.all fun c => decide ('0' ≤ c) && decide (c ≤ '9') then some base.reverse
      else none
    | _, _ => none
  | _ => none

namespace CraigOutputSupportCache
variable (cache : CraigOutputSupportCache)

/-- mirrors src/sec/imc/IMCEngine.cpp:339-354 -/
def sameIndexedOutputVector (lhsOutput rhsOutput : Nat) : Bool :=
  match cache.outputNames[lhsOutput]?, cache.outputNames[rhsOutput]? with
  | some lhsName, some rhsName =>
    match indexedOutputVectorBase lhsName, indexedOutputVectorBase rhsName with
    | some lhsBase, some rhsBase => lhsBase == rhsBase
    | _, _ => false
  | _, _ => false

/-- mirrors src/sec/imc/IMCEngine.cpp:356-375 -/
def canUseIndexedVectorRawBatch (batchSupport outputSupport : CraigOutputSupport)
    (firstOutput output unionSupport : Nat) : Bool :=
  decide (batchSupport.projection = ∅) && decide (outputSupport.projection = ∅) &&
    decide (outputSupport.raw.card ≤ kCraigIndexedVectorOutputRawSupportLimit) &&
    decide (unionSupport ≤ kCraigIndexedVectorUnionRawSupportLimit) &&
    cache.sameIndexedOutputVector firstOutput output

/-- mirrors src/sec/imc/IMCEngine.cpp:431-502 -/
def canAddOutputToCraigBatch (limits : OutputBatchingLimits) (firstOutput output : Nat)
    (batchSupport : CraigOutputSupport) : Bool :=
  let batchOutputCount := output - firstOutput
  let outputSupport := cache.outputSupport output
  if batchOutputCount = 0 then true
  else if adaptiveCraigBatchMaxOutputCount batchSupport outputSupport limits <
      batchOutputCount + 1 then false
  else if kCraigBatchSingleOutputSupportLimit < batchSupport.raw.card ∨
      kCraigBatchSingleOutputSupportLimit < outputSupport.raw.card then false
  else
    let batchComparison := batchingSupport batchSupport
    let outputComparison := batchingSupport outputSupport
    let overlap := (batchComparison ∩ outputComparison).card
    let marginal := outputComparison.card - overlap
    let unionSupport := batchComparison.card + marginal
    let overlapPercent :=
      if outputComparison = ∅ then 100 else overlap * 100 / outputComparison.card
    if limits.outputBatchSupportLimit < unionSupport then false
    else if overlapPercent < kCraigBatchMinOverlapPercent then
      cache.canUseIndexedVectorRawBatch batchSupport outputSupport firstOutput output unionSupport
    else decide (marginal ≤ marginalSupportLimit batchComparison.card)

/-- mirrors src/sec/imc/IMCEngine.cpp:1277-1338 -/
def buildLargeDualRailCraigImcOutputBatchPlans (limits : OutputBatchingLimits) :
    List (Nat × Nat) :=
  pack cache.outputSupports.length (cache.canAddOutputToCraigBatch limits) cache.addOutput {}

end CraigOutputSupportCache

namespace KInductionProblem
variable (p : KInductionProblem)

/-- mirrors src/sec/imc/IMCEngine.cpp:1342-1355 -/
def buildLargeDualRailCraigImcOutputBatches (observedOutputNames : List String)
    (limits : OutputBatchingLimits) : List (Nat × Nat) :=
  (p.buildCraigOutputSupportCache observedOutputNames).buildLargeDualRailCraigImcOutputBatchPlans
    limits

/-- The outputs of `p` agree exactly where its property holds. -/
def ShowsOutputs : Prop :=
  ∀ σ, p.property.eval σ = true ↔
    ∀ o ∈ p.observedOutputExprs0.zip p.observedOutputExprs1, o.1.eval σ = o.2.eval σ

/-- mirrors src/sec/strategy/SequentialEquivalenceStrategy.cpp:1217-1232 -/
def rebuildSelectedOutputProperty : KInductionProblem :=
  let property := outputConjunction p.observedOutputExprs0 p.observedOutputExprs1
  p.observing { p.ownView with
    property := property
    bad := BoolExpr.simplify (BoolExpr.Not property)
    inductionProperty := none
    inductionBad := none }

/-! ## Batches of k-induction -/

/-- The support of the outputs of a range. -/
def rangeSupport (firstOutput endOutput : Nat) : Finset Nat :=
  (Finset.Ico firstOutput endOutput).biUnion p.outputSupport

/-- The test at the head of the inner loop. -/
def admitsOutput (limits : OutputBatchingLimits) (firstOutput endOutput : Nat)
    (batchSupport : Finset Nat) : Bool :=
  !decide (firstOutput < endOutput ∧
    (limits.maxOutputBatchSize < endOutput - firstOutput + 1 ∨
      limits.outputBatchSupportLimit < (batchSupport ∪ p.outputSupport endOutput).card))

variable {p}

theorem collect_outputSupport (firstOutput endOutput : Nat) :
    collect (fun support i => support ∪ p.outputSupport i) ∅ firstOutput endOutput =
      p.rangeSupport firstOutput endOutput := by
  induction endOutput with
  | zero => simp [collect, rangeSupport]
  | succ endOutput ih =>
    cases Nat.lt_or_ge endOutput firstOutput with
    | inl hlt =>
      have hempty : endOutput + 1 - firstOutput = 0 := by omega
      simp [collect, rangeSupport, hempty, Nat.succ_le_of_lt hlt]
    | inr hle =>
      rw [collect_succ _ _ hle, ih]
      ext x
      simp only [rangeSupport, Finset.mem_union, Finset.mem_biUnion, Finset.mem_Ico]
      constructor
      · intro h
        cases h with
        | inl h =>
          obtain ⟨i, hi, hx⟩ := h
          exact ⟨i, by omega, hx⟩
        | inr h => exact ⟨endOutput, by omega, h⟩
      · intro h
        obtain ⟨i, hi, hx⟩ := h
        by_cases hlast : i = endOutput
        · exact .inr (hlast ▸ hx)
        · exact .inl ⟨i, by omega, hx⟩

theorem batchEnd_eq_packEnd (limits : OutputBatchingLimits) (firstOutput fuel endOutput : Nat)
    (support : Finset Nat) :
    p.batchEnd limits firstOutput fuel endOutput support =
      packEnd p.observedOutputExprs0.length (p.admitsOutput limits)
        (fun support i => support ∪ p.outputSupport i) firstOutput fuel endOutput support := by
  induction fuel generalizing endOutput support with
  | zero => rfl
  | succ fuel ih =>
    unfold batchEnd packEnd
    by_cases hlt : endOutput < p.observedOutputExprs0.length
    · by_cases hstop : firstOutput < endOutput ∧
          (limits.maxOutputBatchSize < endOutput - firstOutput + 1 ∨
            limits.outputBatchSupportLimit < (support ∪ p.outputSupport endOutput).card)
      · have hadm : ¬ (endOutput < p.observedOutputExprs0.length ∧
            p.admitsOutput limits firstOutput endOutput support = true) := by
          unfold admitsOutput
          rw [decide_eq_true hstop, Bool.not_true]
          simp
        rw [if_pos hlt, if_neg hadm]
        exact if_pos hstop
      · simp only [hlt, if_true, hstop, if_false, admitsOutput, decide_false, Bool.not_false,
          and_self]
        exact ih _ _
    · simp [hlt]

theorem outputBatchesFrom_eq_packFrom (limits : OutputBatchingLimits) (fuel firstOutput : Nat) :
    p.outputBatchesFrom limits fuel firstOutput =
      packFrom p.observedOutputExprs0.length (p.admitsOutput limits)
        (fun support i => support ∪ p.outputSupport i) ∅ fuel firstOutput := by
  induction fuel generalizing firstOutput with
  | zero => rfl
  | succ fuel ih =>
    unfold outputBatchesFrom packFrom
    by_cases hlt : firstOutput < p.observedOutputExprs0.length
    · obtain ⟨n, hn⟩ : ∃ n, p.observedOutputExprs0.length = n + 1 :=
        ⟨p.observedOutputExprs0.length - 1, by omega⟩
      have hbatch := @lt_batchEnd _ limits _ n ∅ hlt
      rw [← hn, batchEnd_eq_packEnd] at hbatch
      rw [if_pos hlt, if_pos hlt, batchEnd_eq_packEnd]
      simp only [if_neg (Nat.ne_of_gt hbatch), ih]
    · rw [if_neg hlt, if_neg hlt]

/-- A batch of two outputs or more is within both limits. -/
theorem mem_supportBatches {limits : OutputBatchingLimits} {b : Nat × Nat}
    (hb : b ∈ p.buildSupportBoundedOutputBatches limits) (hseveral : b.1 + 1 < b.2) :
    b.2 - b.1 ≤ limits.maxOutputBatchSize ∧
      (p.rangeSupport b.1 b.2).card ≤ limits.outputBatchSupportLimit := by
  unfold buildSupportBoundedOutputBatches at hb
  rw [outputBatchesFrom_eq_packFrom] at hb
  have hadm := admitted_of_mem_pack (i := b.2 - 1) hb (by omega) (by omega)
  have hlast : b.2 - 1 + 1 = b.2 := by omega
  have hsupport := collect_succ (fun support i => support ∪ p.outputSupport i) ∅
    (show b.1 ≤ b.2 - 1 by omega)
  rw [hlast, collect_outputSupport] at hsupport
  simp only [admitsOutput, Bool.not_eq_true', decide_eq_false_iff_not, not_and, not_or,
    Nat.not_lt, ← hsupport] at hadm
  obtain ⟨hcount, hcard⟩ := hadm (by omega)
  exact ⟨by omega, hcard⟩

end KInductionProblem

/-! ## Batches of the Craig engine -/

/-- Merging two supports measures at most their union. -/
theorem batchingSupport_merge_subset (a b : CraigOutputSupport) :
    batchingSupport (mergeCraigOutputSupport a b) ⊆ batchingSupport a ∪ batchingSupport b := by
  unfold batchingSupport mergeCraigOutputSupport
  by_cases ha : a.projection = ∅
  · by_cases hb : b.projection = ∅
    · simp [ha, hb]
    · simp [ha, hb, Finset.subset_union_right]
  · by_cases hb : b.projection = ∅
    · simp [ha, hb, Finset.subset_union_left]
    · simp [ha, hb]

theorem card_batchingSupport_merge_le (a b : CraigOutputSupport) :
    (batchingSupport (mergeCraigOutputSupport a b)).card ≤ (batchingSupport a).card +
      ((batchingSupport b).card - (batchingSupport a ∩ batchingSupport b).card) := by
  have hsubset := Finset.card_le_card (batchingSupport_merge_subset a b)
  have hunion := Finset.card_union (batchingSupport a) (batchingSupport b)
  have hinter : (batchingSupport a ∩ batchingSupport b).card ≤ (batchingSupport b).card :=
    Finset.card_le_card Finset.inter_subset_right
  omega

theorem adaptiveCraigBatchMaxOutputCount_le (a b : CraigOutputSupport)
    (limits : OutputBatchingLimits) :
    adaptiveCraigBatchMaxOutputCount a b limits ≤ limits.maxOutputBatchSize := by
  unfold adaptiveCraigBatchMaxOutputCount
  simp only
  split
  · exact Nat.min_le_left _ _
  · split
    · exact Nat.min_le_left _ _
    · exact Nat.le_refl _

namespace CraigOutputSupportCache
variable {cache : CraigOutputSupportCache}

/-- An output after the first one joins only within both limits. -/
theorem le_of_canAddOutputToCraigBatch {limits : OutputBatchingLimits} {firstOutput output : Nat}
    {batchSupport : CraigOutputSupport} (hfirst : firstOutput < output)
    (h : cache.canAddOutputToCraigBatch limits firstOutput output batchSupport = true) :
    output + 1 - firstOutput ≤ limits.maxOutputBatchSize ∧
      (batchingSupport (cache.addOutput batchSupport output)).card ≤
        limits.outputBatchSupportLimit := by
  have hcount : output - firstOutput ≠ 0 := by omega
  have hadaptive := adaptiveCraigBatchMaxOutputCount_le batchSupport (cache.outputSupport output)
    limits
  have hmerge := card_batchingSupport_merge_le batchSupport (cache.outputSupport output)
  unfold canAddOutputToCraigBatch at h
  simp only [if_neg hcount] at h
  by_cases hmax : adaptiveCraigBatchMaxOutputCount batchSupport (cache.outputSupport output) limits <
      output - firstOutput + 1
  · simp [hmax] at h
  · rw [if_neg hmax] at h
    split at h
    · cases h
    · split at h
      · cases h
      · rename_i hunion
        unfold addOutput
        exact ⟨by omega, by omega⟩

theorem mem_craigBatches {limits : OutputBatchingLimits} {b : Nat × Nat}
    (hb : b ∈ cache.buildLargeDualRailCraigImcOutputBatchPlans limits)
    (hseveral : b.1 + 1 < b.2) :
    b.2 - b.1 ≤ limits.maxOutputBatchSize ∧
      (batchingSupport (cache.mergedCraigOutputSupportForRange b.1 b.2)).card ≤
        limits.outputBatchSupportLimit := by
  have hbounds := tiles_pack.bounds hb
  have hadm := admitted_of_mem_pack (i := b.2 - 1) hb (by omega) (by omega)
  have hlast : b.2 - 1 + 1 = b.2 := by omega
  have hsupport := collect_succ cache.addOutput {} (show b.1 ≤ b.2 - 1 by omega)
  obtain ⟨hcount, hcard⟩ := le_of_canAddOutputToCraigBatch (by omega) hadm
  rw [← hsupport, hlast] at hcard
  unfold mergedCraigOutputSupportForRange
  rw [Nat.min_eq_left hbounds.2.2]
  exact ⟨by omega, hcard⟩

end CraigOutputSupportCache

/-! ## The properties of the batches -/

namespace KInductionProblem
variable {p : KInductionProblem}

theorem showsOutputs_rebuildSelectedOutputProperty : p.rebuildSelectedOutputProperty.ShowsOutputs :=
  fun σ => eval_outputConjunction σ p.observedOutputExprs0 p.observedOutputExprs1

/-- The property of a batch: its outputs are a slice of those of `p`. -/
theorem eval_batchProperty (firstOutput endOutput : Nat) (σ : Valuation) :
    (p.configureOutputBatchProblem firstOutput endOutput).property.eval σ = true ↔
      ∀ o ∈ ((p.observedOutputExprs0.zip p.observedOutputExprs1).drop firstOutput).take
        (endOutput - firstOutput), o.1.eval σ = o.2.eval σ := by
  have hslice : ((p.observedOutputExprs0.zip p.observedOutputExprs1).drop firstOutput).take
        (endOutput - firstOutput) =
      ((p.observedOutputExprs0.drop firstOutput).take (endOutput - firstOutput)).zip
        ((p.observedOutputExprs1.drop firstOutput).take (endOutput - firstOutput)) := by
    unfold List.zip
    rw [List.drop_zipWith, List.take_zipWith]
  rw [hslice]
  exact eval_outputConjunction σ _ _

/-- Whatever the cuts are, the batches together say that every output agrees. -/
theorem batchProperties_iff {batches : List (Nat × Nat)}
    (htiles : Tiles 0 batches p.observedOutputExprs0.length) (σ : Valuation) :
    (∀ b ∈ batches, (p.configureOutputBatchProblem b.1 b.2).property.eval σ = true) ↔
      ∀ o ∈ p.observedOutputExprs0.zip p.observedOutputExprs1, o.1.eval σ = o.2.eval σ := by
  have hwhole := htiles.flatMap_slice (p.observedOutputExprs0.zip p.observedOutputExprs1)
  rw [List.drop_zero, Nat.sub_zero, List.take_of_length_le
    (by rw [List.length_zip]; exact Nat.min_le_left _ _)] at hwhole
  simp only [eval_batchProperty]
  constructor
  · intro h o ho
    rw [← hwhole] at ho
    obtain ⟨b, hb, ho⟩ := List.mem_flatMap.mp ho
    exact h b hb o ho
  · intro h b hb o ho
    exact h o (hwhole ▸ List.mem_flatMap.mpr ⟨b, hb, ho⟩)

theorem tiles_buildLargeDualRailCraigImcOutputBatches (observedOutputNames : List String)
    (limits : OutputBatchingLimits) :
    Tiles 0 (p.buildLargeDualRailCraigImcOutputBatches observedOutputNames limits)
      p.observedOutputExprs0.length := by
  have htiles := @tiles_pack _ ((p.buildCraigOutputSupportCache
    observedOutputNames).outputSupports.length)
      ((p.buildCraigOutputSupportCache observedOutputNames).canAddOutputToCraigBatch limits)
      ((p.buildCraigOutputSupportCache observedOutputNames).addOutput) {}
  have hlength : (p.buildCraigOutputSupportCache observedOutputNames).outputSupports.length =
      p.observedOutputExprs0.length := by
    simp [buildCraigOutputSupportCache]
  rw [hlength] at htiles
  unfold buildLargeDualRailCraigImcOutputBatches
    CraigOutputSupportCache.buildLargeDualRailCraigImcOutputBatchPlans
  rwa [hlength]

/-- For every limit, the batches of k-induction and of the Craig engine are nonempty
ranges that follow one another and have every output once, a batch above a limit is a
single output, and the properties of the batches together are the problem's. -/
theorem outputBatches_partition (hp : p.ShowsOutputs) (observedOutputNames : List String)
    (limits : OutputBatchingLimits) :
    (∀ batches ∈ [p.buildSupportBoundedOutputBatches limits,
        p.buildLargeDualRailCraigImcOutputBatches observedOutputNames limits],
      Tiles 0 batches p.observedOutputExprs0.length ∧
      (∀ i < p.observedOutputExprs0.length, batches.countP (inRange · i) = 1) ∧
      ∀ σ, (∀ b ∈ batches, (p.configureOutputBatchProblem b.1 b.2).property.eval σ = true) ↔
        p.property.eval σ = true) ∧
    (∀ b ∈ p.buildSupportBoundedOutputBatches limits,
      limits.maxOutputBatchSize < b.2 - b.1 ∨
        limits.outputBatchSupportLimit < (p.rangeSupport b.1 b.2).card →
      b.2 = b.1 + 1) ∧
    ∀ b ∈ p.buildLargeDualRailCraigImcOutputBatches observedOutputNames limits,
      limits.maxOutputBatchSize < b.2 - b.1 ∨
        limits.outputBatchSupportLimit < (batchingSupport ((p.buildCraigOutputSupportCache
          observedOutputNames).mergedCraigOutputSupportForRange b.1 b.2)).card →
      b.2 = b.1 + 1 := by
  have htiles : ∀ batches ∈ [p.buildSupportBoundedOutputBatches limits,
      p.buildLargeDualRailCraigImcOutputBatches observedOutputNames limits],
      Tiles 0 batches p.observedOutputExprs0.length := by
    intro batches hbatches
    simp only [List.mem_cons, List.not_mem_nil, or_false] at hbatches
    cases hbatches with
    | inl h => exact h ▸ tiles_buildSupportBoundedOutputBatches limits
    | inr h => exact h ▸ tiles_buildLargeDualRailCraigImcOutputBatches observedOutputNames limits
  refine ⟨fun batches hbatches => ?_, fun b hb hover => ?_, fun b hb hover => ?_⟩
  · have h := htiles batches hbatches
    refine ⟨h, fun i hi => ?_, fun σ => ?_⟩
    · rw [h.countP_inRange]
      simp [hi]
    · exact (batchProperties_iff h σ).trans (hp σ).symm
  · have hbounds := (htiles _ List.mem_cons_self).bounds hb
    have hlimits := fun hseveral => mem_supportBatches hb hseveral
    omega
  · have hbounds := (htiles _ (List.mem_cons_of_mem _ List.mem_cons_self)).bounds hb
    have hlimits := fun hseveral => CraigOutputSupportCache.mem_craigBatches hb hseveral
    omega

/-- Three outputs, of which the first two read the same variables. -/
def threeOutputs : KInductionProblem :=
  { KInductionProblem.stateless .createTrue .createFalse with
    observedOutputExprs0 := [.var 2, .var 3, .var 4]
    observedOutputExprs1 := [.var 3, .var 2, .var 5] }

theorem outputBatches_partition_three :
    threeOutputs.rebuildSelectedOutputProperty.buildSupportBoundedOutputBatches ⟨2, 2⟩ =
      [(0, 2), (2, 3)] ∧
    ∀ σ, (∀ b ∈ threeOutputs.rebuildSelectedOutputProperty.buildSupportBoundedOutputBatches ⟨2, 2⟩,
        (threeOutputs.rebuildSelectedOutputProperty.configureOutputBatchProblem b.1
          b.2).property.eval σ = true) ↔
      threeOutputs.rebuildSelectedOutputProperty.property.eval σ = true :=
  ⟨by decide, ((outputBatches_partition showsOutputs_rebuildSelectedOutputProperty [] ⟨2, 2⟩).1 _
    List.mem_cons_self).2.2⟩

end KInductionProblem
end KeplerFormal
