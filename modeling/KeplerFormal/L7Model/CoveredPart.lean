import KeplerFormal.L7Model.SkipPropagation

/-!
# The covered part of an extracted design (`src/sec/model/SequentialDesignModel.cpp`)

* `CoveredPart`: the covered part is exactly what reaches no skipped state, and it reads only
  covered states.
* `partition_congr`: the partition asks only which keys are marked.
* `coveredModel_coveredPart`: so it is for every schedule of the threads, and any two schedules
  give the same model up to the texts of the marks.
-/
namespace KeplerFormal

namespace ExtractionModel
variable {m : ExtractionModel}

/-! ## The covered part -/

/-- The state is covered, and it has a next-state expression or the model is unsupported. -/
def CoversState (covered : ExtractionModel) (key : SignalKey) : Prop :=
  key ∈ covered.stateBits ∧
    ((∃ next, covered.nextStateExprByStateKey key = some next) ∨ covered.unsupportedReasons ≠ [])

/-- The covered part is what reaches no skipped state, and it reads nothing else. -/
structure CoveredPart (m covered : ExtractionModel) : Prop where
  states : ∀ key, key ∈ covered.stateBits ↔ key ∈ m.stateBits ∧ ¬ m.SkippedFrom key
  outputs : ∀ key, key ∈ covered.observedOutputs ↔
    key ∈ m.allObservedOutputs ∧ (∃ expr, m.observedOutputExprByKey key = some expr) ∧
      m.connectivitySkipInfoByKey key = none ∧ ¬ m.OutputSkippedFrom key
  states_read : ∀ key ∈ covered.stateBits, ∀ next,
    covered.nextStateExprByStateKey key = some next →
      ∀ source, m.ReadsState next source → covered.CoversState source
  outputs_read : ∀ key ∈ covered.observedOutputs, ∀ expr,
    covered.observedOutputExprByKey key = some expr →
      ∀ source, m.ReadsState expr source → covered.CoversState source

/-- A covered state without a next-state expression is reported. -/
theorem coversState_of_mem {model : ExtractionModel} {key : SignalKey}
    (hkey : key ∈ model.stateBits) : model.validateExtractedModel.CoversState key := by
  refine ⟨hkey, ?_⟩
  show (∃ next, model.nextStateExprByStateKey key = some next) ∨
    model.validateExtractedModel.unsupportedReasons ≠ []
  cases hnext : model.nextStateExprByStateKey key with
  | some next => exact .inl ⟨next, rfl⟩
  | none =>
    right
    have hmissing : key ∈ model.stateBits.filter fun key =>
        (model.nextStateExprByStateKey key).isNone :=
      List.mem_filter.mpr ⟨hkey, by simp [hnext]⟩
    intro hreasons
    obtain ⟨-, hnone⟩ := List.append_eq_nil_iff.mp hreasons
    rw [List.map_eq_nil_iff] at hnone
    rw [hnone] at hmissing
    cases hmissing

theorem coveredPart_of_marks (hm : m.Extracted) (hobserved : m.observedOutputs = [])
    {w : SkipWork} (h : WorkInv m none w) (hempty : w.pending = []) :
    CoveredPart m ({ m with
      connectivitySkipInfoByKey := w.skipInfo }).partitionCoveredSignals.validateExtractedModel := by
  have hstates : ∀ key, key ∈ ({ m with
      connectivitySkipInfoByKey := w.skipInfo }).partitionCoveredSignals.stateBits ↔
        key ∈ m.stateBits ∧ ¬ m.SkippedFrom key := by
    intro key
    simp only [partitionCoveredSignals, List.mem_filter]
    refine and_congr_right fun hkey => ?_
    rw [← h.state_iff hm hempty hkey]
    simp [skipped]
  have houtputs : ∀ key, key ∈ ({ m with
      connectivitySkipInfoByKey := w.skipInfo }).partitionCoveredSignals.observedOutputs ↔
        key ∈ m.allObservedOutputs ∧ (∃ expr, m.observedOutputExprByKey key = some expr) ∧
          w.skipInfo key = none := by
    intro key
    simp only [partitionCoveredSignals, hobserved, List.nil_append, List.mem_filter, skipped]
    refine and_congr_right fun _ => ?_
    rw [Bool.and_eq_true, Option.isSome_iff_exists, and_comm]
    simp
  refine ⟨hstates, fun key => ?_, fun key hkey next hnext source hread => ?_,
    fun key hkey expr hexpr source hread => ?_⟩
  · refine (houtputs key).trans (and_congr_right fun hkey => and_congr_right fun _ => ?_)
    have hmarked := not_congr (h.output_iff hm hempty hkey)
    rw [not_or, not_ne_iff, not_ne_iff] at hmarked
    exact hmarked
  · apply coversState_of_mem
    obtain ⟨hmem, hfrom⟩ := (hstates key).mp hkey
    refine (hstates source).mpr ⟨hread.1, fun hsource => hfrom ?_⟩
    have hnext' : m.nextStateExprByStateKey key = some next := by
      simp only [validateExtractedModel, partitionCoveredSignals, erased] at hnext
      exact (Option.ite_none_left_eq_some.mp hnext).2
    obtain ⟨origin, horigin, hskipped, hpath⟩ := hsource
    exact ⟨origin, horigin, hskipped, hpath.head ⟨hmem, next, hnext', hread⟩⟩
  · apply coversState_of_mem
    obtain ⟨hmem, -, hskip⟩ := (houtputs key).mp hkey
    refine (hstates source).mpr ⟨hread.1, fun hsource => ?_⟩
    have hexpr' : m.observedOutputExprByKey key = some expr := by
      simp only [validateExtractedModel, partitionCoveredSignals, erased] at hexpr
      exact (Option.ite_none_left_eq_some.mp hexpr).2
    exact (h.output_iff hm hempty hmem).mpr (.inr ⟨expr, hexpr', source, hread, hsource⟩) hskip

/-- The partition only asks which keys are marked. -/
theorem partition_congr {info info' : KeyMap ConnectivitySkipInfo}
    (hstates : ∀ key ∈ m.stateBits, (info key).isSome = (info' key).isSome)
    (houtputs : ∀ key ∈ m.allObservedOutputs, (info key).isSome = (info' key).isSome) :
    { ({ m with connectivitySkipInfoByKey := info }).partitionCoveredSignals.validateExtractedModel
      with connectivitySkipInfoByKey := info' } =
    ({ m with connectivitySkipInfoByKey := info' }).partitionCoveredSignals.validateExtractedModel
    := by
  have hstates' : m.stateBits.filter (fun key => (info key).isSome) =
      m.stateBits.filter (fun key => (info' key).isSome) := List.filter_congr hstates
  have hcovered : m.stateBits.filter (fun key => !(info key).isSome) =
      m.stateBits.filter (fun key => !(info' key).isSome) :=
    List.filter_congr fun key hkey => by rw [hstates key hkey]
  have houtputs' : m.allObservedOutputs.filter (fun key => (info key).isSome) =
      m.allObservedOutputs.filter (fun key => (info' key).isSome) := List.filter_congr houtputs
  have hobserved : m.allObservedOutputs.filter (fun key =>
        !(info key).isSome && (m.observedOutputExprByKey key).isSome) =
      m.allObservedOutputs.filter (fun key =>
        !(info' key).isSome && (m.observedOutputExprByKey key).isSome) :=
    List.filter_congr fun key hkey => by rw [houtputs key hkey]
  have herased : ∀ {α : Type} (keys : List SignalKey) (map : KeyMap α),
      (∀ key ∈ keys, (info key).isSome = (info' key).isSome) →
      ({ m with connectivitySkipInfoByKey := info }).erased keys map =
        ({ m with connectivitySkipInfoByKey := info' }).erased keys map := by
    intro α keys map hsame
    funext key
    have hiff : (key ∈ keys ∧ (info key).isSome) ↔ (key ∈ keys ∧ (info' key).isSome) :=
      and_congr_right fun hkey => by rw [hsame key hkey]
    exact if_congr hiff rfl rfl
  simp only [validateExtractedModel, partitionCoveredSignals, skipped, displayName, hcovered,
    hobserved, herased _ _ hstates, herased _ _ houtputs, mk.injEq, true_and, and_true]
  exact ⟨congrArg _ hstates', congrArg _ houtputs'⟩

/-- What is left covered is what reaches no skipped state, it is closed under reading, and no
schedule of the threads changes anything but the texts of the new marks. -/
theorem coveredModel_coveredPart (hm : m.Extracted) (hobserved : m.observedOutputs = [])
    {stateSchedule outputSchedule : Schedule}
    (hstates : Scans stateSchedule m.stateBits.length)
    (houtputs : Scans outputSchedule m.allObservedOutputs.length) :
    ∃ covered, m.coveredModel stateSchedule outputSchedule = .ok covered ∧
      CoveredPart m covered ∧
      ∀ stateSchedule' outputSchedule', Scans stateSchedule' m.stateBits.length →
        Scans outputSchedule' m.allObservedOutputs.length →
        ∃ covered', m.coveredModel stateSchedule' outputSchedule' = .ok covered' ∧
          { covered' with connectivitySkipInfoByKey := covered.connectivitySkipInfoByKey } =
            covered ∧
          ∀ key ∈ m.stateBits ++ m.allObservedOutputs,
            (covered'.connectivitySkipInfoByKey key).isSome =
              (covered.connectivitySkipInfoByKey key).isSome := by
  obtain ⟨w, hrun, hinv, hempty⟩ := propagate_spec hm hstates houtputs
  refine ⟨_, by rw [coveredModel, hrun], coveredPart_of_marks hm hobserved hinv hempty, ?_⟩
  intro stateSchedule' outputSchedule' hstates' houtputs'
  obtain ⟨w', hrun', hinv', hempty'⟩ := propagate_spec hm hstates' houtputs'
  have hstate : ∀ key ∈ m.stateBits, (w'.skipInfo key).isSome = (w.skipInfo key).isSome := by
    intro key hkey
    rw [Bool.eq_iff_iff, Option.isSome_iff_ne_none, Option.isSome_iff_ne_none,
      hinv'.state_iff hm hempty' hkey, hinv.state_iff hm hempty hkey]
  have houtput : ∀ key ∈ m.allObservedOutputs,
      (w'.skipInfo key).isSome = (w.skipInfo key).isSome := by
    intro key hkey
    rw [Bool.eq_iff_iff, Option.isSome_iff_ne_none, Option.isSome_iff_ne_none,
      hinv'.output_iff hm hempty' hkey, hinv.output_iff hm hempty hkey]
  refine ⟨_, by rw [coveredModel, hrun'], partition_congr hstate houtput, fun key hkey => ?_⟩
  rcases List.mem_append.mp hkey with hkey | hkey
  · exact hstate key hkey
  · exact houtput key hkey

/-- State 2 is skipped and state 3 reads it; state 4 reads itself. Output 0 reads state 3 and
output 1 reads state 4. -/
def skippedChain : ExtractionModel where
  stateBits := [([2], []), ([3], []), ([4], [])]
  allObservedOutputs := [([0], []), ([1], [])]
  inputVarByKey key :=
    if key = ([2], []) then some 2 else if key = ([3], []) then some 3
    else if key = ([4], []) then some 4 else none
  displayNameByKey _ := some "q"
  observedOutputExprByKey key :=
    if key = ([0], []) then some (.var 3) else if key = ([1], []) then some (.var 4) else none
  nextStateExprByStateKey key :=
    if key = ([3], []) then some (.var 2) else if key = ([4], []) then some (.var 4) else none
  clockEventByStateKey _ := none
  connectivitySkipInfoByKey key :=
    if key = ([2], []) then some ⟨.NoDriver, "no driver"⟩ else none

theorem skippedChain_extracted : skippedChain.Extracted where
  nodup := by decide
  mapped key hkey := by
    simp only [skippedChain, List.mem_cons, List.not_mem_nil, or_false] at hkey
    rcases hkey with rfl | rfl | rfl
    · exact ⟨2, rfl, by decide⟩
    · exact ⟨3, rfl, by decide⟩
    · exact ⟨4, rfl, by decide⟩
  distinct := by decide
  named _ _ := ⟨"q", rfl⟩
  outputs := by decide

/-- Only state 4 and output 1 stay covered, on one thread or on two. -/
theorem coveredModel_skippedChain :
    (∃ covered, skippedChain.coveredModel [[0, 1, 2]] [[0, 1]] = .ok covered ∧
      CoveredPart skippedChain covered ∧
      ∃ covered', skippedChain.coveredModel [[2], [1, 0]] [[1], [0]] = .ok covered' ∧
        covered'.stateBits = covered.stateBits) ∧
    skippedChain.SkippedFrom ([3], []) ∧
    skippedChain.OutputSkippedFrom ([0], []) := by
  have hfrom : skippedChain.SkippedFrom ([3], []) := by
    refine ⟨([2], []), by decide, by decide, .single ⟨by decide, .var 2, rfl, by decide, 2, rfl, ?_⟩⟩
    decide
  refine ⟨?_, hfrom, .var 3, rfl, ([3], []), ⟨by decide, 3, rfl, by decide⟩, hfrom⟩
  have hstates : Scans [[0, 1, 2]] skippedChain.stateBits.length := by decide
  have houtputs : Scans [[0, 1]] skippedChain.allObservedOutputs.length := by decide
  obtain ⟨covered, hrun, hpart, hsame⟩ :=
    coveredModel_coveredPart skippedChain_extracted rfl hstates houtputs
  obtain ⟨covered', hrun', heq, -⟩ := hsame [[2], [1, 0]] [[1], [0]] (by decide) (by decide)
  exact ⟨covered, hrun, hpart, covered', hrun', congrArg (·.stateBits) heq⟩

end ExtractionModel
end KeplerFormal
