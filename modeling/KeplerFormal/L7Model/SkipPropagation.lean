import KeplerFormal.L7Model.DependencyScan
import KeplerFormal.L7Model.DesignModel

/-!
# Propagation of connectivity skips (`src/sec/model/SequentialDesignModel.cpp`)

* `dependencyEdges`: which states or outputs read a state variable, found by any number of
  threads, each with its own scratch record.
* `propagateConnectivitySkipsThroughDependencies`: what depends on a skipped state is
  skipped, breadth first.
* `SkippedFrom`: a skipped state is reached through next-state expressions.
* `WorkInv`, `drain_spec`: the invariant of the queue, and that it is emptied.
* `propagate_spec`: it succeeds, and marks exactly what reaches a skipped state
  (`WorkInv.state_iff`, `WorkInv.output_iff`).
-/
namespace KeplerFormal

namespace ExtractionModel
variable (m : ExtractionModel)

/-! ## Dependency edges -/

/-- The roots that each thread scans, in its order. -/
abbrev Schedule := List (List Nat)

/-- Every root is scanned once, by some thread. -/
def Scans (schedule : Schedule) (count : Nat) : Prop :=
  schedule.flatten.Perm (List.range count)

instance (schedule : Schedule) (count : Nat) : Decidable (Scans schedule count) :=
  inferInstanceAs (Decidable (schedule.flatten.Perm (List.range count)))

def isCandidateStateVar (v : Nat) : Bool := m.stateBits.any fun key => m.inputVarByKey key = some v

/-- One root; its edges are added behind those of the thread's earlier roots. -/
def scanRoot (root : Nat → Option BoolExpr)
    (thread : CandidateDependencyScratch × List (Nat × Nat)) (index : Nat) :
    CandidateDependencyScratch × List (Nat × Nat) :=
  match root index with
  | none => thread
  | some expr =>
    let scratch := CandidateDependencyScratch.collectCandidateStateDependenciesFromExpr
      m.isCandidateStateVar expr thread.1
    (scratch, thread.2 ++ scratch.dependencies.map fun v => (v, index))

/-- The edges from variables to roots, thread after thread. -/
def dependencyEdges (root : Nat → Option BoolExpr) (schedule : Schedule) : List (Nat × Nat) :=
  schedule.flatMap fun indexes => (indexes.foldl (m.scanRoot root) ({}, [])).2

/-- The roots that read a variable. -/
def dependents (edges : List (Nat × Nat)) (v : Nat) : List Nat :=
  (edges.filter fun edge => edge.1 = v).map Prod.snd

/-- The next-state expressions of the states that are not skipped. -/
def stateRoot (index : Nat) : Option BoolExpr :=
  m.stateBits[index]?.bind fun key =>
    if (m.connectivitySkipInfoByKey key).isSome then none else m.nextStateExprByStateKey key

/-- The expressions of the outputs that are not skipped. -/
def outputRoot (index : Nat) : Option BoolExpr :=
  m.allObservedOutputs[index]?.bind fun key =>
    if (m.connectivitySkipInfoByKey key).isSome then none else m.observedOutputExprByKey key

/-! ## Propagation -/

/-- The marks so far, the variables to visit and the variables that were ever queued. -/
structure SkipWork where
  skipInfo : KeyMap ConnectivitySkipInfo
  pending : List Nat := []
  enqueued : Finset Nat := ∅

def SkipWork.enqueue (w : SkipWork) (v : Nat) : SkipWork :=
  if v ∈ w.enqueued then w
  else { w with pending := w.pending ++ [v], enqueued := insert v w.enqueued }

/-- `emplace`: a mark that is there stays. -/
def SkipWork.mark (w : SkipWork) (key : SignalKey) (info : ConnectivitySkipInfo) : SkipWork :=
  if (w.skipInfo key).isSome then w
  else { w with skipInfo := Function.update w.skipInfo key info }

/-- mirrors src/sec/model/SequentialDesignModel.cpp:4512-4527 -/
def initialWork : SkipWork :=
  m.stateBits.foldl (fun w key =>
    match m.inputVarByKey key with
    | some v => if (m.connectivitySkipInfoByKey key).isSome then w.enqueue v else w
    | none => w) { skipInfo := m.connectivitySkipInfoByKey }

/-- mirrors src/sec/model/SequentialDesignModel.cpp:4647-4666 -/
def makeDependencySkip (skipInfo : KeyMap ConnectivitySkipInfo) (v : Nat) :
    Except String (Option ConnectivitySkipInfo) :=
  match m.stateKeyOf v with
  | none => .ok none
  | some key =>
    match skipInfo key with
    | none => .ok none
    | some info =>
      match m.displayNameByKey key with
      | none => .error "unordered_map::at"
      | some name =>
        .ok (some { info with
          detail := "Depends on skipped state `" ++ name ++ "`: " ++ info.detail })

def markDependentState (info : ConnectivitySkipInfo) (w : SkipWork) (index : Nat) : SkipWork :=
  match m.stateBits[index]? with
  | none => w
  | some key =>
    if (w.skipInfo key).isSome then w
    else
      match m.inputVarByKey key with
      | some v => (w.mark key info).enqueue v
      | none => w.mark key info

def markDependentOutput (info : ConnectivitySkipInfo) (w : SkipWork) (index : Nat) : SkipWork :=
  match m.allObservedOutputs[index]? with
  | none => w
  | some key => w.mark key info

/-- mirrors src/sec/model/SequentialDesignModel.cpp:4668-4713 -/
def drain (states outputs : List (Nat × Nat)) : Nat → SkipWork → Except String SkipWork
  | 0, w => .ok w
  | fuel + 1, w =>
    match w.pending with
    | [] => .ok w
    | v :: rest =>
      match m.makeDependencySkip w.skipInfo v with
      | .error message => .error message
      | .ok none => drain states outputs fuel { w with pending := rest }
      | .ok (some info) =>
        drain states outputs fuel
          ((dependents outputs v).foldl (m.markDependentOutput info)
            ((dependents states v).foldl (m.markDependentState info) { w with pending := rest }))

/-- A state variable is queued once, so there are at most as many rounds as state bits.
mirrors src/sec/model/SequentialDesignModel.cpp:4505-4714 -/
def propagateConnectivitySkipsThroughDependencies (stateSchedule outputSchedule : Schedule) :
    Except String ExtractionModel :=
  if m.initialWork.pending = [] then .ok m
  else
    match m.drain (m.dependencyEdges m.stateRoot stateSchedule)
        (m.dependencyEdges m.outputRoot outputSchedule) m.stateBits.length m.initialWork with
    | .error message => .error message
    | .ok w => .ok { m with connectivitySkipInfoByKey := w.skipInfo }

/-! ## Partition -/

def skipped (key : SignalKey) : Bool := (m.connectivitySkipInfoByKey key).isSome

/-- `erase` of every skipped key. -/
def erased {α : Type} (keys : List SignalKey) (map : KeyMap α) : KeyMap α := fun key =>
  if key ∈ keys ∧ m.skipped key then none else map key

/-- mirrors src/sec/model/SequentialDesignModel.cpp:4716-4751 -/
def partitionCoveredSignals : ExtractionModel :=
  { m with
    stateBits := m.stateBits.filter fun key => !m.skipped key
    skippedStateBits := m.skippedStateBits ++ m.stateBits.filter m.skipped
    nextStateExprByStateKey := m.erased m.stateBits m.nextStateExprByStateKey
    initialStateValueByKey := m.erased m.stateBits m.initialStateValueByKey
    clockEventByStateKey := m.erased m.stateBits m.clockEventByStateKey
    inputVarByKey := m.erased m.stateBits m.inputVarByKey
    skippedObservedOutputs := m.skippedObservedOutputs ++ m.allObservedOutputs.filter m.skipped
    observedOutputExprByKey := m.erased m.allObservedOutputs m.observedOutputExprByKey
    observedOutputs := m.observedOutputs ++ m.allObservedOutputs.filter fun key =>
      !m.skipped key && (m.observedOutputExprByKey key).isSome }

/-- mirrors src/sec/common/SignalKey.h:22-36 -/
def signalKeyToString (key : SignalKey) : String :=
  String.join ((key.1 ++ key.2).map fun id => toString id ++ ".")

def displayName (key : SignalKey) : String :=
  (m.displayNameByKey key).getD (signalKeyToString key)

/-- mirrors src/sec/model/SequentialDesignModel.cpp:4753-4775 -/
def validateExtractedModel : ExtractionModel :=
  { m with
    unsupportedReasons := m.unsupportedReasons ++
      (m.observedOutputs.filter fun key => (m.observedOutputExprByKey key).isNone).map (fun key =>
        "Missing observed output expression for `" ++ m.displayName key ++ "`") ++
      (m.stateBits.filter fun key => (m.nextStateExprByStateKey key).isNone).map (fun key =>
        "Missing next-state relation for `" ++ m.displayName key ++ "`") }

/-- The end of extraction. -/
def coveredModel (stateSchedule outputSchedule : Schedule) : Except String ExtractionModel :=
  match m.propagateConnectivitySkipsThroughDependencies stateSchedule outputSchedule with
  | .error message => .error message
  | .ok m => .ok m.partitionCoveredSignals.validateExtractedModel

/-! ## What the threads find -/

variable {m}

open CandidateDependencyScratch

theorem foldl_scanRoot {root : Nat → Option BoolExpr} (indexes : List Nat)
    {thread : CandidateDependencyScratch × List (Nat × Nat)} (h : thread.1.Fresh) (v i : Nat) :
    (v, i) ∈ (indexes.foldl (m.scanRoot root) thread).2 ↔
      (v, i) ∈ thread.2 ∨ (i ∈ indexes ∧ ∃ expr, root i = some expr ∧
        Reads m.isCandidateStateVar expr v) := by
  induction indexes generalizing thread with
  | nil => simp
  | cons index indexes ih =>
    rw [List.foldl_cons]
    cases hroot : root index with
    | none =>
      have hsame : m.scanRoot root thread index = thread := by simp [scanRoot, hroot]
      rw [hsame, ih h]
      refine or_congr_right (and_congr_left fun hread => ?_)
      obtain ⟨expr, hexpr, -⟩ := hread
      have hne : i ≠ index := by
        intro hsame
        rw [hsame, hroot] at hexpr
        cases hexpr
      simp [hne]
    | some expr =>
      obtain ⟨hfresh, -, hmem⟩ := collect_spec m.isCandidateStateVar h expr
      have hstep : m.scanRoot root thread index =
          (collectCandidateStateDependenciesFromExpr m.isCandidateStateVar expr thread.1,
            thread.2 ++ (collectCandidateStateDependenciesFromExpr m.isCandidateStateVar expr
              thread.1).dependencies.map fun v => (v, index)) := by
        simp [scanRoot, hroot]
      rw [hstep, ih hfresh, List.mem_append, List.mem_map, or_assoc]
      refine or_congr_right ?_
      simp only [Prod.mk.injEq, List.mem_cons, hmem]
      constructor
      · intro h
        rcases h with ⟨v', hread, rfl, rfl⟩ | ⟨hi, hread⟩
        · exact ⟨.inl rfl, expr, hroot, hread⟩
        · exact ⟨.inr hi, hread⟩
      · intro h
        obtain ⟨hi, expr', hexpr', hread⟩ := h
        rcases hi with rfl | hi
        · rw [hroot] at hexpr'
          cases hexpr'
          exact .inl ⟨v, hread, rfl, rfl⟩
        · exact .inr ⟨hi, expr', hexpr', hread⟩

theorem fresh_default : ({} : CandidateDependencyScratch).Fresh where
  nodes _ := Nat.zero_lt_one
  symbols _ := Nat.zero_lt_one

/-- The edges do not depend on the threads. -/
theorem mem_dependents {root : Nat → Option BoolExpr} {schedule : Schedule} {count : Nat}
    (hschedule : Scans schedule count) (v i : Nat) :
    i ∈ dependents (m.dependencyEdges root schedule) v ↔
      i < count ∧ ∃ expr, root i = some expr ∧ Reads m.isCandidateStateVar expr v := by
  have hedge : (v, i) ∈ m.dependencyEdges root schedule ↔
      i ∈ schedule.flatten ∧ ∃ expr, root i = some expr ∧
        Reads m.isCandidateStateVar expr v := by
    unfold dependencyEdges
    rw [List.mem_flatMap, List.mem_flatten]
    constructor
    · intro h
      obtain ⟨indexes, hindexes, hmem⟩ := h
      rcases (foldl_scanRoot indexes fresh_default v i).mp hmem with hnil | ⟨hi, hread⟩
      · cases hnil
      · exact ⟨⟨indexes, hindexes, hi⟩, hread⟩
    · intro h
      obtain ⟨⟨indexes, hindexes, hi⟩, hread⟩ := h
      exact ⟨indexes, hindexes, (foldl_scanRoot indexes fresh_default v i).mpr (.inr ⟨hi, hread⟩)⟩
  have hdependents : i ∈ dependents (m.dependencyEdges root schedule) v ↔
      (v, i) ∈ m.dependencyEdges root schedule := by
    unfold dependents
    rw [List.mem_map]
    constructor
    · intro h
      obtain ⟨edge, hmem, rfl⟩ := h
      obtain ⟨hmem, hv⟩ := List.mem_filter.mp hmem
      have hv' : edge.1 = v := of_decide_eq_true hv
      rw [← hv']
      exact hmem
    · intro h
      exact ⟨(v, i), List.mem_filter.mpr ⟨h, by simp⟩, rfl⟩
  rw [hdependents, hedge, hschedule.mem_iff, List.mem_range]

/-! ## Reaching a skipped state -/

/-- What the passes before promise: every state has a name, and outputs are no states. -/
structure Extracted (m : ExtractionModel) : Prop extends m.WellFormed where
  named : ∀ key ∈ m.stateBits, ∃ name, m.displayNameByKey key = some name
  outputs : ∀ key ∈ m.allObservedOutputs, key ∉ m.stateBits

/-- An expression reads the variable of a state. -/
def ReadsState (m : ExtractionModel) (expr : BoolExpr) (source : SignalKey) : Prop :=
  source ∈ m.stateBits ∧ ∃ v, m.inputVarByKey source = some v ∧ v ∈ expr.getSupportVars

/-- The next-state expression of a state reads another state. -/
def DependsOn (m : ExtractionModel) (key source : SignalKey) : Prop :=
  key ∈ m.stateBits ∧
    ∃ next, m.nextStateExprByStateKey key = some next ∧ m.ReadsState next source

/-- A skipped state is reached. -/
def SkippedFrom (m : ExtractionModel) (key : SignalKey) : Prop :=
  ∃ source ∈ m.stateBits, m.connectivitySkipInfoByKey source ≠ none ∧
    Relation.ReflTransGen m.DependsOn key source

/-- An output reads a state from which a skipped state is reached. -/
def OutputSkippedFrom (m : ExtractionModel) (key : SignalKey) : Prop :=
  ∃ expr, m.observedOutputExprByKey key = some expr ∧
    ∃ source, m.ReadsState expr source ∧ m.SkippedFrom source

theorem reads_iff (hwf : m.WellFormed) {expr : BoolExpr} {v : Nat} :
    Reads m.isCandidateStateVar expr v ↔
      v ∈ expr.getSupportVars ∧ ∃ key ∈ m.stateBits, m.inputVarByKey key = some v := by
  unfold Reads isCandidateStateVar
  rw [List.any_eq_true]
  constructor
  · intro h
    obtain ⟨-, ⟨key, hkey, hvar⟩, hread⟩ := h
    exact ⟨hread, key, hkey, of_decide_eq_true hvar⟩
  · intro h
    obtain ⟨hread, key, hkey, hvar⟩ := h
    obtain ⟨v', hvar', h2⟩ := hwf.mapped key hkey
    rw [hvar] at hvar'
    cases hvar'
    exact ⟨h2, ⟨key, hkey, decide_eq_true hvar⟩, hread⟩

theorem stateRoot_eq_some {i : Nat} {expr : BoolExpr} : m.stateRoot i = some expr ↔
    ∃ key, m.stateBits[i]? = some key ∧ m.connectivitySkipInfoByKey key = none ∧
      m.nextStateExprByStateKey key = some expr := by
  unfold stateRoot
  rw [Option.bind_eq_some_iff]
  refine exists_congr fun key => and_congr_right fun _ => ?_
  cases m.connectivitySkipInfoByKey key <;> simp

theorem outputRoot_eq_some {i : Nat} {expr : BoolExpr} : m.outputRoot i = some expr ↔
    ∃ key, m.allObservedOutputs[i]? = some key ∧ m.connectivitySkipInfoByKey key = none ∧
      m.observedOutputExprByKey key = some expr := by
  unfold outputRoot
  rw [Option.bind_eq_some_iff]
  refine exists_congr fun key => and_congr_right fun _ => ?_
  cases m.connectivitySkipInfoByKey key <;> simp

/-! ## The queue -/

/-- What reads the variable is marked. -/
def Visited (m : ExtractionModel) (w : SkipWork) (v : Nat) : Prop :=
  (∀ i expr key, m.stateBits[i]? = some key → m.stateRoot i = some expr →
    Reads m.isCandidateStateVar expr v → w.skipInfo key ≠ none) ∧
  ∀ i expr key, m.allObservedOutputs[i]? = some key → m.outputRoot i = some expr →
    Reads m.isCandidateStateVar expr v → w.skipInfo key ≠ none

/-- The marks are right, and all variables of marked states are queued or visited; `current`
is the variable being visited. -/
structure WorkInv (m : ExtractionModel) (current : Option Nat) (w : SkipWork) : Prop where
  kept : ∀ key, m.connectivitySkipInfoByKey key ≠ none → w.skipInfo key ≠ none
  states : ∀ key ∈ m.stateBits, w.skipInfo key ≠ none → m.SkippedFrom key
  outputs : ∀ key ∈ m.allObservedOutputs, w.skipInfo key ≠ none →
    m.connectivitySkipInfoByKey key ≠ none ∨ m.OutputSkippedFrom key
  enqueued : ∀ v, v ∈ w.enqueued ↔
    ∃ key ∈ m.stateBits, m.inputVarByKey key = some v ∧ w.skipInfo key ≠ none
  pending : ∀ v ∈ w.pending, v ∈ w.enqueued
  done : ∀ v ∈ w.enqueued, v ∉ w.pending → some v ≠ current → m.Visited w v

def stateVars (m : ExtractionModel) : Finset Nat := (m.stateBits.filterMap m.inputVarByKey).toFinset

/-- The rounds that are left: every state variable is queued at most once. -/
def roundsLeft (m : ExtractionModel) (w : SkipWork) : Nat :=
  (m.stateVars \ w.enqueued).card + w.pending.length

theorem mem_stateVars {v : Nat} :
    v ∈ m.stateVars ↔ ∃ key ∈ m.stateBits, m.inputVarByKey key = some v := by
  unfold stateVars
  rw [List.mem_toFinset, List.mem_filterMap]

theorem roundsLeft_enqueue {w : SkipWork} {v : Nat} (hv : v ∈ m.stateVars) :
    m.roundsLeft (w.enqueue v) = m.roundsLeft w := by
  unfold SkipWork.enqueue
  split
  · rfl
  · rename_i hnew
    have hmem : v ∈ m.stateVars \ w.enqueued := Finset.mem_sdiff.mpr ⟨hv, hnew⟩
    have hcard : (m.stateVars \ insert v w.enqueued).card + 1 =
        (m.stateVars \ w.enqueued).card := by
      rw [Finset.sdiff_insert, Finset.card_erase_of_mem hmem]
      have := Finset.card_pos.mpr ⟨v, hmem⟩
      omega
    unfold roundsLeft
    simp only [List.length_append, List.length_singleton]
    omega

theorem skipInfo_mark {w : SkipWork} {key key' : SignalKey} {info : ConnectivitySkipInfo} :
    (w.mark key info).skipInfo key' ≠ none ↔ w.skipInfo key' ≠ none ∨ key' = key := by
  unfold SkipWork.mark
  split
  · rename_i hsome
    refine ⟨.inl, fun h => h.elim id fun hsame => ?_⟩
    rw [hsame]
    exact Option.isSome_iff_ne_none.mp hsome
  · by_cases hsame : key' = key
    · simp [hsame]
    · simp [hsame]

@[simp] theorem mark_pending (w : SkipWork) (key : SignalKey) (info : ConnectivitySkipInfo) :
    (w.mark key info).pending = w.pending := by
  unfold SkipWork.mark
  split <;> rfl

@[simp] theorem mark_enqueued (w : SkipWork) (key : SignalKey) (info : ConnectivitySkipInfo) :
    (w.mark key info).enqueued = w.enqueued := by
  unfold SkipWork.mark
  split <;> rfl

@[simp] theorem enqueue_skipInfo (w : SkipWork) (v : Nat) :
    (w.enqueue v).skipInfo = w.skipInfo := by
  unfold SkipWork.enqueue
  split <;> rfl

theorem mem_enqueue_enqueued {w : SkipWork} {v v' : Nat} :
    v' ∈ (w.enqueue v).enqueued ↔ v' ∈ w.enqueued ∨ v' = v := by
  unfold SkipWork.enqueue
  split
  · rename_i hold
    refine ⟨.inl, fun h => h.elim id fun hsame => ?_⟩
    rw [hsame]
    exact hold
  · simp [or_comm]

/-- A queued variable was queued before or is the new one, which is then pending. -/
theorem mem_enqueue_pending {w : SkipWork} {v v' : Nat} :
    v' ∈ (w.enqueue v).pending ↔ v' ∈ w.pending ∨ (v' = v ∧ v ∉ w.enqueued) := by
  unfold SkipWork.enqueue
  split
  · rename_i hold
    simp [hold]
  · rename_i hnew
    simp [hnew]

theorem Visited.mono {w w' : SkipWork} {v : Nat} (h : m.Visited w v)
    (hmono : ∀ key, w.skipInfo key ≠ none → w'.skipInfo key ≠ none) : m.Visited w' v :=
  ⟨fun i expr key hkey hroot hread => hmono key (h.1 i expr key hkey hroot hread),
    fun i expr key hkey hroot hread => hmono key (h.2 i expr key hkey hroot hread)⟩

/-- A state is marked and its variable is queued. -/
theorem WorkInv.markState {current : Option Nat} {w : SkipWork} (h : WorkInv m current w)
    (hm : m.Extracted) {key : SignalKey} (hkey : key ∈ m.stateBits) {v : Nat}
    (hvar : m.inputVarByKey key = some v) (hfrom : m.SkippedFrom key)
    (info : ConnectivitySkipInfo) : WorkInv m current ((w.mark key info).enqueue v) where
  kept key' hskip := by
    rw [enqueue_skipInfo, skipInfo_mark]
    exact .inl (h.kept key' hskip)
  states key' hkey' hskip := by
    rw [enqueue_skipInfo, skipInfo_mark] at hskip
    rcases hskip with hskip | rfl
    · exact h.states key' hkey' hskip
    · exact hfrom
  outputs key' hkey' hskip := by
    rw [enqueue_skipInfo, skipInfo_mark] at hskip
    rcases hskip with hskip | rfl
    · exact h.outputs key' hkey' hskip
    · exact absurd hkey (hm.outputs key' hkey')
  enqueued v' := by
    rw [mem_enqueue_enqueued, mark_enqueued, h.enqueued]
    simp only [enqueue_skipInfo, skipInfo_mark]
    constructor
    · intro hv
      rcases hv with ⟨key', hkey', hvar', hskip⟩ | rfl
      · exact ⟨key', hkey', hvar', .inl hskip⟩
      · exact ⟨key, hkey, hvar, .inr rfl⟩
    · intro hv
      obtain ⟨key', hkey', hvar', hskip⟩ := hv
      rcases hskip with hskip | rfl
      · exact .inl ⟨key', hkey', hvar', hskip⟩
      · rw [hvar] at hvar'
        cases hvar'
        exact .inr rfl
  pending v' hv' := by
    rw [mem_enqueue_pending, mark_pending] at hv'
    rw [mem_enqueue_enqueued, mark_enqueued]
    exact hv'.imp (h.pending v') And.left
  done v' hv' hpending hcurrent := by
    rw [mem_enqueue_enqueued, mark_enqueued] at hv'
    rw [mem_enqueue_pending, mark_pending, mark_enqueued, not_or] at hpending
    have hold : v' ∈ w.enqueued := by
      rcases hv' with hold | rfl
      · exact hold
      · by_contra hnew
        exact hpending.2 ⟨rfl, hnew⟩
    refine (h.done v' hold hpending.1 hcurrent).mono fun key' hskip => ?_
    rw [enqueue_skipInfo, skipInfo_mark]
    exact .inl hskip

/-- An output is marked. -/
theorem WorkInv.markOutput {current : Option Nat} {w : SkipWork} (h : WorkInv m current w)
    (hm : m.Extracted) {key : SignalKey} (hkey : key ∈ m.allObservedOutputs)
    (hfrom : m.OutputSkippedFrom key) (info : ConnectivitySkipInfo) :
    WorkInv m current (w.mark key info) where
  kept key' hskip := skipInfo_mark.mpr (.inl (h.kept key' hskip))
  states key' hkey' hskip := by
    rcases skipInfo_mark.mp hskip with hskip | rfl
    · exact h.states key' hkey' hskip
    · exact absurd hkey' (hm.outputs key' hkey)
  outputs key' hkey' hskip := by
    rcases skipInfo_mark.mp hskip with hskip | rfl
    · exact h.outputs key' hkey' hskip
    · exact .inr hfrom
  enqueued v := by
    rw [mark_enqueued, h.enqueued]
    refine exists_congr fun key' => and_congr_right fun hkey' => and_congr_right fun _ => ?_
    rw [skipInfo_mark]
    refine ⟨.inl, fun hskip => hskip.resolve_right fun hsame => ?_⟩
    exact hm.outputs key hkey (hsame ▸ hkey')
  pending v hv := by
    rw [mark_pending] at hv
    rw [mark_enqueued]
    exact h.pending v hv
  done v hv hpending hcurrent := by
    rw [mark_enqueued] at hv
    rw [mark_pending] at hpending
    exact (h.done v hv hpending hcurrent).mono fun key' hskip => skipInfo_mark.mpr (.inl hskip)

/-- What a round over dependents gives. -/
structure Round (m : ExtractionModel) (current : Option Nat) (keys : Nat → Option SignalKey)
    (indexes : List Nat) (w w' : SkipWork) : Prop where
  inv : WorkInv m current w'
  rounds : m.roundsLeft w' = m.roundsLeft w
  kept : ∀ key, w.skipInfo key ≠ none → w'.skipInfo key ≠ none
  marked : ∀ i ∈ indexes, ∀ key, keys i = some key → w'.skipInfo key ≠ none

theorem foldl_markDependentState (hm : m.Extracted) {current : Option Nat} (indexes : List Nat)
    (info : ConnectivitySkipInfo)
    (hfrom : ∀ i ∈ indexes, ∀ key, m.stateBits[i]? = some key → m.SkippedFrom key)
    {w : SkipWork} (h : WorkInv m current w) :
    Round m current (fun i => m.stateBits[i]?) indexes w
      (indexes.foldl (m.markDependentState info) w) := by
  induction indexes generalizing w with
  | nil => exact ⟨h, rfl, fun _ hskip => hskip, by simp⟩
  | cons i indexes ih =>
    have hstep : Round m current (fun i => m.stateBits[i]?) [i] w
        (m.markDependentState info w i) := by
      unfold markDependentState
      cases hkey : m.stateBits[i]? with
      | none => exact ⟨h, rfl, fun _ hskip => hskip, by simp [hkey]⟩
      | some key =>
        dsimp only
        split
        · rename_i hsome
          refine ⟨h, rfl, fun _ hskip => hskip, fun j hj key' hkey' => ?_⟩
          rw [List.mem_singleton.mp hj, hkey] at hkey'
          cases hkey'
          exact Option.isSome_iff_ne_none.mp hsome
        · have hmem : key ∈ m.stateBits := List.mem_of_getElem? hkey
          obtain ⟨v, hvar, -⟩ := hm.mapped key hmem
          rw [hvar]
          dsimp only
          refine ⟨h.markState hm hmem hvar (hfrom i List.mem_cons_self key hkey) info, ?_,
            fun key' hskip => ?_, fun j hj key' hkey' => ?_⟩
          · rw [roundsLeft_enqueue (mem_stateVars.mpr ⟨key, hmem, hvar⟩), roundsLeft, roundsLeft,
              mark_enqueued, mark_pending]
          · rw [enqueue_skipInfo, skipInfo_mark]
            exact .inl hskip
          · rw [List.mem_singleton.mp hj, hkey] at hkey'
            cases hkey'
            rw [enqueue_skipInfo, skipInfo_mark]
            exact .inr rfl
    have hrest := ih (fun j hj => hfrom j (List.mem_cons_of_mem _ hj)) hstep.inv
    refine ⟨hrest.inv, hrest.rounds.trans hstep.rounds,
      fun key hskip => hrest.kept key (hstep.kept key hskip), fun j hj key hkey => ?_⟩
    rcases List.mem_cons.mp hj with rfl | hj
    · exact hrest.kept key (hstep.marked j List.mem_cons_self key hkey)
    · exact hrest.marked j hj key hkey

theorem foldl_markDependentOutput (hm : m.Extracted) {current : Option Nat} (indexes : List Nat)
    (info : ConnectivitySkipInfo)
    (hfrom : ∀ i ∈ indexes, ∀ key, m.allObservedOutputs[i]? = some key →
      m.OutputSkippedFrom key)
    {w : SkipWork} (h : WorkInv m current w) :
    Round m current (fun i => m.allObservedOutputs[i]?) indexes w
      (indexes.foldl (m.markDependentOutput info) w) := by
  induction indexes generalizing w with
  | nil => exact ⟨h, rfl, fun _ hskip => hskip, by simp⟩
  | cons i indexes ih =>
    have hstep : Round m current (fun i => m.allObservedOutputs[i]?) [i] w
        (m.markDependentOutput info w i) := by
      unfold markDependentOutput
      cases hkey : m.allObservedOutputs[i]? with
      | none => exact ⟨h, rfl, fun _ hskip => hskip, by simp [hkey]⟩
      | some key =>
        refine ⟨h.markOutput hm (List.mem_of_getElem? hkey)
          (hfrom i List.mem_cons_self key hkey) info, ?_,
          fun key' hskip => skipInfo_mark.mpr (.inl hskip), fun j hj key' hkey' => ?_⟩
        · rw [roundsLeft, roundsLeft, mark_enqueued, mark_pending]
        · rw [List.mem_singleton.mp hj, hkey] at hkey'
          cases hkey'
          exact skipInfo_mark.mpr (.inr rfl)
    have hrest := ih (fun j hj => hfrom j (List.mem_cons_of_mem _ hj)) hstep.inv
    refine ⟨hrest.inv, hrest.rounds.trans hstep.rounds,
      fun key hskip => hrest.kept key (hstep.kept key hskip), fun j hj key hkey => ?_⟩
    rcases List.mem_cons.mp hj with rfl | hj
    · exact hrest.kept key (hstep.marked j List.mem_cons_self key hkey)
    · exact hrest.marked j hj key hkey

/-! ## The whole queue -/

theorem readsState_of_reads (hwf : m.WellFormed) {expr : BoolExpr} {v : Nat} {source : SignalKey}
    (hread : Reads m.isCandidateStateVar expr v) (hsource : source ∈ m.stateBits)
    (hvar : m.inputVarByKey source = some v) : m.ReadsState expr source :=
  ⟨hsource, v, hvar, ((reads_iff hwf).mp hread).1⟩

/-- One variable is taken from the queue and everything that reads it is marked. -/
theorem drain_step (hm : m.Extracted) {stateSchedule outputSchedule : Schedule}
    (hstates : Scans stateSchedule m.stateBits.length)
    (houtputs : Scans outputSchedule m.allObservedOutputs.length) {w : SkipWork} {v : Nat}
    {rest : List Nat} (h : WorkInv m none w) (hpending : w.pending = v :: rest) :
    ∃ info w', m.makeDependencySkip w.skipInfo v = .ok (some info) ∧
      w' = (dependents (m.dependencyEdges m.outputRoot outputSchedule) v).foldl
        (m.markDependentOutput info)
          ((dependents (m.dependencyEdges m.stateRoot stateSchedule) v).foldl
            (m.markDependentState info) { w with pending := rest }) ∧
      WorkInv m none w' ∧ m.roundsLeft w' + 1 = m.roundsLeft w := by
  obtain ⟨source, hsource, hvar, hskip⟩ := (h.enqueued v).mp (h.pending v (by simp [hpending]))
  have hfrom := h.states source hsource hskip
  obtain ⟨skip, hskip⟩ := Option.ne_none_iff_exists'.mp hskip
  obtain ⟨name, hname⟩ := hm.named source hsource
  have hkey : m.stateKeyOf v = some source :=
    (stateKeyOf_eq_some hm.toWellFormed).mpr ⟨hsource, hvar⟩
  refine ⟨_, _, by simp only [makeDependencySkip, hkey, hskip, hname]; rfl, rfl, ?_⟩
  have hpopped : WorkInv m (some v) { w with pending := rest } :=
    ⟨h.kept, h.states, h.outputs, h.enqueued, fun v' hv' => h.pending v' (by simp [hpending, hv']),
      fun v' hv' hrest hne => h.done v' hv' (by
        rw [hpending, List.mem_cons, not_or]
        exact ⟨fun hsame => hne (congrArg some hsame), hrest⟩) (by simp)⟩
  have hstate := foldl_markDependentState hm
    (dependents (m.dependencyEdges m.stateRoot stateSchedule) v)
    { skip with detail := "Depends on skipped state `" ++ name ++ "`: " ++ skip.detail }
    (fun i hi key hkey => by
      obtain ⟨-, expr, hroot, hread⟩ := (mem_dependents hstates v i).mp hi
      obtain ⟨key', hkey', -, hnext⟩ := stateRoot_eq_some.mp hroot
      rw [hkey] at hkey'
      cases hkey'
      obtain ⟨origin, horigin, hskipped, hpath⟩ := hfrom
      exact ⟨origin, horigin, hskipped, hpath.head ⟨List.mem_of_getElem? hkey, expr, hnext,
        readsState_of_reads hm.toWellFormed hread hsource hvar⟩⟩) hpopped
  have houtput := foldl_markDependentOutput hm
    (dependents (m.dependencyEdges m.outputRoot outputSchedule) v)
    { skip with detail := "Depends on skipped state `" ++ name ++ "`: " ++ skip.detail }
    (fun i hi key hkey => by
      obtain ⟨-, expr, hroot, hread⟩ := (mem_dependents houtputs v i).mp hi
      obtain ⟨key', hkey', -, hexpr⟩ := outputRoot_eq_some.mp hroot
      rw [hkey] at hkey'
      cases hkey'
      exact ⟨expr, hexpr, source, readsState_of_reads hm.toWellFormed hread hsource hvar,
        hfrom⟩) hstate.inv
  refine ⟨⟨houtput.inv.kept, houtput.inv.states, houtput.inv.outputs, houtput.inv.enqueued,
    houtput.inv.pending, fun v' hv' hpending' _ => ?_⟩, ?_⟩
  · by_cases hsame : v' = v
    · rw [hsame]
      refine ⟨fun i expr key hkey hroot hread => ?_, fun i expr key hkey hroot hread => ?_⟩
      · apply houtput.kept
        refine hstate.marked i ((mem_dependents hstates v i).mpr ⟨?_, expr, hroot, hread⟩) key hkey
        exact (List.getElem?_eq_some_iff.mp hkey).1
      · refine houtput.marked i ((mem_dependents houtputs v i).mpr ⟨?_, expr, hroot, hread⟩) key hkey
        exact (List.getElem?_eq_some_iff.mp hkey).1
    · exact houtput.inv.done v' hv' hpending' fun h => hsame (Option.some.inj h)
  · rw [houtput.rounds, hstate.rounds, roundsLeft, roundsLeft, hpending, List.length_cons]
    rfl

theorem drain_spec (hm : m.Extracted) {stateSchedule outputSchedule : Schedule}
    (hstates : Scans stateSchedule m.stateBits.length)
    (houtputs : Scans outputSchedule m.allObservedOutputs.length) (fuel : Nat) {w : SkipWork}
    (h : WorkInv m none w) (hfuel : m.roundsLeft w ≤ fuel) :
    ∃ w', m.drain (m.dependencyEdges m.stateRoot stateSchedule)
        (m.dependencyEdges m.outputRoot outputSchedule) fuel w = .ok w' ∧
      WorkInv m none w' ∧ w'.pending = [] := by
  induction fuel generalizing w with
  | zero =>
    have hempty : w.pending.length = 0 := by
      unfold roundsLeft at hfuel
      omega
    exact ⟨w, rfl, h, List.length_eq_zero_iff.mp hempty⟩
  | succ fuel ih =>
    cases hpending : w.pending with
    | nil => exact ⟨w, by rw [drain, hpending], h, hpending⟩
    | cons v rest =>
      obtain ⟨info, w', hinfo, hw', hinv, hrounds⟩ := drain_step hm hstates houtputs h hpending
      obtain ⟨w'', hrun, hinv', hempty⟩ := ih hinv (by omega)
      refine ⟨w'', ?_, hinv', hempty⟩
      rw [drain, hpending]
      simp only [hinfo]
      rw [← hw']
      exact hrun

/-- The states that are marked at the start are queued. -/
theorem foldl_initialWork {keys : List SignalKey} (hkeys : keys ⊆ m.stateBits) {w : SkipWork}
    (hinfo : w.skipInfo = m.connectivitySkipInfoByKey)
    (hpending : ∀ v, v ∈ w.pending ↔ v ∈ w.enqueued) :
    let w' := keys.foldl (fun w key =>
      match m.inputVarByKey key with
      | some v => if (m.connectivitySkipInfoByKey key).isSome then w.enqueue v else w
      | none => w) w
    w'.skipInfo = m.connectivitySkipInfoByKey ∧ (∀ v, v ∈ w'.pending ↔ v ∈ w'.enqueued) ∧
      (∀ v, v ∈ w'.enqueued ↔ v ∈ w.enqueued ∨ ∃ key ∈ keys, m.inputVarByKey key = some v ∧
        m.connectivitySkipInfoByKey key ≠ none) ∧
      m.roundsLeft w' = m.roundsLeft w := by
  induction keys generalizing w with
  | nil => exact ⟨hinfo, hpending, by simp, rfl⟩
  | cons key keys ih =>
    obtain ⟨hkey, hkeys⟩ := List.cons_subset.mp hkeys
    simp only [List.foldl_cons]
    cases hvar : m.inputVarByKey key with
    | none =>
      obtain ⟨h1, h2, h3, h4⟩ := ih hkeys hinfo hpending
      refine ⟨h1, h2, fun v => (h3 v).trans (or_congr_right ?_), h4⟩
      simp [hvar]
    | some v₀ =>
      by_cases hskip : (m.connectivitySkipInfoByKey key).isSome = true
      · simp only [hskip, if_true]
        have hpending' : ∀ v, v ∈ (w.enqueue v₀).pending ↔ v ∈ (w.enqueue v₀).enqueued := by
          intro v
          rw [mem_enqueue_pending, mem_enqueue_enqueued, hpending]
          refine ⟨fun h => h.imp_right And.left, fun h => ?_⟩
          by_cases hold : v ∈ w.enqueued
          · exact .inl hold
          · have hsame := h.resolve_left hold
            exact .inr ⟨hsame, hsame ▸ hold⟩
        obtain ⟨h1, h2, h3, h4⟩ := ih hkeys (by rw [enqueue_skipInfo, hinfo]) hpending'
        refine ⟨h1, h2, fun v => ?_,
          h4.trans (roundsLeft_enqueue (mem_stateVars.mpr ⟨key, hkey, hvar⟩))⟩
        have hne : m.connectivitySkipInfoByKey key ≠ none := Option.isSome_iff_ne_none.mp hskip
        have hhead : v₀ = v ↔ v = v₀ := eq_comm
        rw [h3, mem_enqueue_enqueued, or_assoc]
        simp [hvar, hne, hhead]
      · simp only [hskip]
        obtain ⟨h1, h2, h3, h4⟩ := ih hkeys hinfo hpending
        refine ⟨h1, h2, fun v => (h3 v).trans (or_congr_right ?_), h4⟩
        simp at hskip
        simp [hskip]

theorem initialWork_spec (hm : m.Extracted) : WorkInv m none m.initialWork ∧
    m.initialWork.skipInfo = m.connectivitySkipInfoByKey ∧
    m.roundsLeft m.initialWork ≤ m.stateBits.length := by
  obtain ⟨hinfo, hpending, henqueued, hrounds⟩ := foldl_initialWork (m := m)
    (List.Subset.refl m.stateBits) (w := { skipInfo := m.connectivitySkipInfoByKey }) rfl (by simp)
  refine ⟨⟨fun key hskip => ?_, fun key hkey hskip => ?_, fun key _ hskip => ?_, fun v => ?_,
    fun v hv => (hpending v).mp hv, fun v hv hout => absurd ((hpending v).mpr hv) hout⟩, hinfo, ?_⟩
  · show m.initialWork.skipInfo key ≠ none
    rw [initialWork, hinfo]
    exact hskip
  · rw [initialWork, hinfo] at hskip
    exact ⟨key, hkey, hskip, .refl⟩
  · rw [initialWork, hinfo] at hskip
    exact .inl hskip
  · rw [initialWork, hinfo]
    refine (henqueued v).trans ?_
    simp
  · rw [initialWork, hrounds, roundsLeft]
    simp only [Finset.sdiff_empty, List.length_nil, Nat.add_zero]
    exact (List.toFinset_card_le _).trans (List.length_filterMap_le _ _)

/-! ## What is marked at the end -/

/-- When the queue is empty, everything that reads a marked state is marked. -/
theorem WorkInv.marked_of_dependsOn {w : SkipWork} (h : WorkInv m none w) (hm : m.Extracted)
    (hempty : w.pending = []) {key source : SignalKey} (hdepends : m.DependsOn key source)
    (hsource : w.skipInfo source ≠ none) : w.skipInfo key ≠ none := by
  obtain ⟨hkey, next, hnext, hmem, v, hvar, hread⟩ := hdepends
  by_cases hskip : m.connectivitySkipInfoByKey key = none
  · have hvisited := h.done v ((h.enqueued v).mpr ⟨source, hmem, hvar, hsource⟩) (by simp [hempty])
      (by simp)
    obtain ⟨i, hi⟩ := List.mem_iff_getElem?.mp hkey
    apply hvisited.1 i next key hi (stateRoot_eq_some.mpr ⟨key, hi, hskip, hnext⟩)
    exact (reads_iff hm.toWellFormed).mpr ⟨hread, source, hmem, hvar⟩
  · exact h.kept key hskip

theorem WorkInv.output_marked {w : SkipWork} (h : WorkInv m none w) (hm : m.Extracted)
    (hempty : w.pending = []) {key : SignalKey} (hkey : key ∈ m.allObservedOutputs)
    {expr : BoolExpr} (hexpr : m.observedOutputExprByKey key = some expr) {source : SignalKey}
    (hread : m.ReadsState expr source) (hsource : w.skipInfo source ≠ none) :
    w.skipInfo key ≠ none := by
  obtain ⟨hmem, v, hvar, hread⟩ := hread
  by_cases hskip : m.connectivitySkipInfoByKey key = none
  · have hvisited := h.done v ((h.enqueued v).mpr ⟨source, hmem, hvar, hsource⟩) (by simp [hempty])
      (by simp)
    obtain ⟨i, hi⟩ := List.mem_iff_getElem?.mp hkey
    apply hvisited.2 i expr key hi (outputRoot_eq_some.mpr ⟨key, hi, hskip, hexpr⟩)
    exact (reads_iff hm.toWellFormed).mpr ⟨hread, source, hmem, hvar⟩
  · exact h.kept key hskip

/-- The marked states are those from which a skipped state is reached. -/
theorem WorkInv.state_iff {w : SkipWork} (h : WorkInv m none w) (hm : m.Extracted)
    (hempty : w.pending = []) {key : SignalKey} (hkey : key ∈ m.stateBits) :
    w.skipInfo key ≠ none ↔ m.SkippedFrom key := by
  refine ⟨h.states key hkey, fun hfrom => ?_⟩
  obtain ⟨origin, -, hskipped, hpath⟩ := hfrom
  clear hkey
  induction hpath using Relation.ReflTransGen.head_induction_on with
  | refl => exact h.kept origin hskipped
  | head hdepends _ ih => exact h.marked_of_dependsOn hm hempty hdepends ih

theorem WorkInv.output_iff {w : SkipWork} (h : WorkInv m none w) (hm : m.Extracted)
    (hempty : w.pending = []) {key : SignalKey} (hkey : key ∈ m.allObservedOutputs) :
    w.skipInfo key ≠ none ↔
      m.connectivitySkipInfoByKey key ≠ none ∨ m.OutputSkippedFrom key := by
  refine ⟨h.outputs key hkey, fun hfrom => ?_⟩
  rcases hfrom with hskip | ⟨expr, hexpr, source, hread, hfrom⟩
  · exact h.kept key hskip
  · exact h.output_marked hm hempty hkey hexpr hread ((h.state_iff hm hempty hread.1).mpr hfrom)

/-- The propagation only adds marks. -/
theorem propagate_spec (hm : m.Extracted) {stateSchedule outputSchedule : Schedule}
    (hstates : Scans stateSchedule m.stateBits.length)
    (houtputs : Scans outputSchedule m.allObservedOutputs.length) :
    ∃ w, m.propagateConnectivitySkipsThroughDependencies stateSchedule outputSchedule =
        .ok { m with connectivitySkipInfoByKey := w.skipInfo } ∧
      WorkInv m none w ∧ w.pending = [] := by
  obtain ⟨hinv, hinfo, hrounds⟩ := initialWork_spec hm
  unfold propagateConnectivitySkipsThroughDependencies
  split
  · rename_i hempty
    exact ⟨m.initialWork, by rw [hinfo], hinv, hempty⟩
  · obtain ⟨w, hrun, hinv', hempty⟩ := drain_spec hm hstates houtputs _ hinv hrounds
    exact ⟨w, by rw [hrun], hinv', hempty⟩

end ExtractionModel
end KeplerFormal
