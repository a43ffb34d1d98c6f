import KeplerFormal.L3Query.FrontierPaths

/-!
# The cached dual-rail prefix (`src/sec/kinduction/BaseCaseSolver.cpp`)

A sweep asks for a bad frame at 0, 1, 2, ... of one problem. For a dual-rail problem
with several outputs `findBaseCounterexampleAtFrontier` proves a longer prefix safe at
once and answers the next depths from a cache. The cache is recognised by the address
of the problem, the solver and the verification generation.

* `PrefixHistory`: the cache and, as a ghost, the problem its safe prefix belongs to.
* `cumulative_safe`, `cumulative_found`: what a cumulative search says about each depth.
* `PrefixHistory.Sound`, `call_sound`: the safe prefix is safe for the ghost problem, and
  a call that finds that problem at the address answers the frontier question.
* `frontierRun_uncached`: in a run whose calls all do so, every answer is the one that
  the search without the cache gives.
* `frontierRun_stale`: a batch problem that is reconfigured in place is answered from
  the prefix of its former outputs.
-/
namespace KeplerFormal

open Core KInductionProblem

def kDualRailPublicBasePrefixWindow : Nat := 8

def kLargeDualRailPublicBasePrefixWindow : Nat := 32

def kMinLargeDualRailPublicBasePrefixStateSymbols : Nat := 512

/-- `problem` is an address, `none` the null pointer.
mirrors src/sec/kinduction/BaseCaseSolver.cpp:2066-2082 -/
structure DualRailPublicBasePrefixCache where
  problem : Option Nat := none
  verificationGeneration : Nat := 0
  solverType : SolverType := .kissat
  hasSafeThrough : Bool := false
  safeThrough : Nat := 0
  deriving DecidableEq, Repr

/-- One call: the address of its problem, what it finds there, the solver and the depth. -/
structure FrontierCall where
  address : Nat
  problem : KInductionProblem
  solverType : SolverType
  k : Nat

namespace DualRailPublicBasePrefixCache

def reset (generation address : Nat) (solverType : SolverType) : DualRailPublicBasePrefixCache where
  problem := some address
  verificationGeneration := generation
  solverType := solverType

/-- mirrors src/sec/kinduction/BaseCaseSolver.cpp:2160-2163 -/
def hasKey (cache : DualRailPublicBasePrefixCache) (generation : Nat) (c : FrontierCall) : Bool :=
  cache.problem == some c.address && cache.solverType == c.solverType &&
    cache.verificationGeneration == generation

/-- The cache a call works on. -/
def keyed (cache : DualRailPublicBasePrefixCache) (generation : Nat) (c : FrontierCall) :
    DualRailPublicBasePrefixCache :=
  if cache.hasKey generation c then cache else reset generation c.address c.solverType

/-- mirrors src/sec/kinduction/BaseCaseSolver.cpp:2165 -/
def coversDepth (cache : DualRailPublicBasePrefixCache) (k : Nat) : Bool :=
  cache.hasSafeThrough && decide (k ≤ cache.safeThrough)

end DualRailPublicBasePrefixCache

namespace KInductionProblem
variable (p : KInductionProblem)

/-- mirrors src/sec/kinduction/BaseCaseSolver.cpp:2086-2090 -/
def canUseDualRailPublicBasePrefixCache : Bool :=
  p.usesDualRailStateEncoding && p.hasSeveralOutputs

/-- mirrors src/sec/kinduction/BaseCaseSolver.cpp:2092-2096 -/
def dualRailBaseStateSymbolCount : Nat :=
  if p.dualRailStatePairs.isEmpty then p.state0Symbols.length + p.state1Symbols.length
  else p.dualRailStatePairs.length * 2

def shouldUseMonolithicDualRailPublicBasePrefix : Bool :=
  decide (kMinLargeDualRailPublicBasePrefixStateSymbols ≤ p.dualRailBaseStateSymbolCount)

/-- mirrors src/sec/kinduction/BaseCaseSolver.cpp:2104-2114 -/
def dualRailPublicBasePrefixWindow : Nat :=
  if kMinLargeDualRailPublicBasePrefixStateSymbols ≤ p.dualRailBaseStateSymbolCount then
    kLargeDualRailPublicBasePrefixWindow
  else kDualRailPublicBasePrefixWindow

end KInductionProblem

section Calls
variable {σ : Type} (S : SolverType → FrameSolver σ)

/-- The loop over the batches. -/
def searchOutputBatches (p : KInductionProblem) (solverType : SolverType) (k : Nat) :
    σ → List (Nat × Nat) → Option Nat × σ
  | s, [] => (none, s)
  | s, (firstOutput, endOutput) :: rest =>
    match findBaseCounterexampleImpl (S solverType) solverType k s
        (p.configureOutputBatchProblem firstOutput endOutput) none false .secConeProof with
    | ((some frame, _), s') => (some frame, s')
    | ((none, _), s') => searchOutputBatches p solverType k s' rest

/-- mirrors src/sec/kinduction/BaseCaseSolver.cpp:2116-2149 -/
def findDualRailBatchedBaseCounterexampleUpTo (s : σ) (p : KInductionProblem)
    (solverType : SolverType) (k : Nat) : Option Nat × σ :=
  if p.shouldUseMonolithicDualRailPublicBasePrefix then
    let (r, s') := findBaseCounterexampleImpl (S solverType) solverType k s p none false
      .secConeProof
    (r.1, s')
  else
    searchOutputBatches S p solverType k s
      (p.buildSupportBoundedOutputBatches p.defaultOutputBatchingLimitsForProblem)

/-- `none` is a result that is not handled.
mirrors src/sec/kinduction/BaseCaseSolver.cpp:2151-2187 -/
def tryDualRailPublicBasePrefixCache (generation : Nat) (cache : DualRailPublicBasePrefixCache)
    (s : σ) (c : FrontierCall) : Option (Option Nat) × DualRailPublicBasePrefixCache × σ :=
  if c.problem.canUseDualRailPublicBasePrefixCache then
    let cache := cache.keyed generation c
    if cache.coversDepth c.k then (some none, cache, s)
    else
      let prefixK := c.k + c.problem.dualRailPublicBasePrefixWindow
      match findDualRailBatchedBaseCounterexampleUpTo S s c.problem c.solverType prefixK with
      | (none, s') => (some none, { cache with hasSafeThrough := true, safeThrough := prefixK }, s')
      | (some frame, s') => (if frame = c.k then some (some frame) else none, cache, s')
  else (none, cache, s)

/-- The search a call ends in when the cache does not handle it.
mirrors src/sec/kinduction/BaseCaseSolver.cpp:2273-2285 -/
def findUncachedBaseCounterexampleAtFrontier (s : σ) (c : FrontierCall) :
    Except String (Option Nat × σ) :=
  if c.problem.usesDualRailStateEncoding && c.problem.hasSeveralOutputs then
    findImcBaseCounterexampleAtFrontierImpl (S c.solverType) c.solverType c.k
      c.problem.observedOutputExprs0.length s c.problem
  else
    let (r, s') := findBaseCounterexampleImpl (S c.solverType) c.solverType c.k s c.problem
      (some c.k) true .secConeProof
    pure (r.1, s')

/-- A search that throws leaves the cache as it found it.
mirrors src/sec/kinduction/BaseCaseSolver.cpp:2260-2286 -/
def findBaseCounterexampleAtFrontier (generation : Nat) (cache : DualRailPublicBasePrefixCache)
    (s : σ) (c : FrontierCall) :
    Except String (Option Nat) × DualRailPublicBasePrefixCache × σ :=
  match tryDualRailPublicBasePrefixCache S generation cache s c with
  | (some witness, cache', s') => (.ok witness, cache', s')
  | (none, cache', s') =>
    match findUncachedBaseCounterexampleAtFrontier S s' c with
    | .ok (witness, s'') => (.ok witness, cache', s'')
    | .error message => (.error message, cache', s')

/-- The state between calls. -/
structure PrefixHistory (σ : Type) where
  cache : DualRailPublicBasePrefixCache
  /-- ghost: the problem of the last call that changed the cache -/
  recordedFor : Option KInductionProblem
  solver : σ

def PrefixHistory.call (generation : Nat) (h : PrefixHistory σ) (c : FrontierCall) :
    Except String (Option Nat) × PrefixHistory σ :=
  let (witness, cache', s') := findBaseCounterexampleAtFrontier S generation h.cache h.solver c
  (witness, ⟨cache', if cache' = h.cache then h.recordedFor else some c.problem, s'⟩)

/-- The answers of a sequence of calls. -/
def frontierRun (generation : Nat) :
    PrefixHistory σ → List FrontierCall → List (Except String (Option Nat))
  | _, [] => []
  | h, c :: rest =>
    (h.call S generation c).1 :: frontierRun generation (h.call S generation c).2 rest

end Calls

/-! ## Cumulative searches -/

namespace KInductionProblem
variable {p : KInductionProblem}

theorem Unrolling.take {facts : StartupFacts} {n m : Nat} {τ : Trace}
    (h : p.Unrolling facts n τ) (hm : m ≤ n) : p.Unrolling facts m τ where
  domain f hf := h.domain f (hf.trans hm)
  transitions f hf := h.transitions f (hf.trans_le hm)
  reset := ⟨fun f hf => h.reset.asserted f (hf.trans hm),
    fun hne f hf => h.reset.deasserted hne f (hf.trans hm)⟩
  starts := h.starts

/-- Startup asserts no observation. -/
def NoObservation (p : KInductionProblem) : Prop :=
  p.baseStartup.initialMode.assertsObservation = false ∧
    p.baseStartup.observationFrontier = false

theorem frontierQuestion_iff_bad (hobs : p.NoObservation) {k : Nat} :
    p.FrontierQuestion k ↔ p.FrontierBad k :=
  and_iff_right (firstBadFrame_le_frontierFrame k hobs.1 hobs.2)

section Query
variable {σ : Type} {S : FrameSolver σ} {solverType : SolverType} {k : Nat} {s : σ}

/-- Without a witness no depth up to `k` has a bad frame. -/
theorem cumulativeQuery_safe (hS : S.DecidesUnlimited) (hpres : p.PreservesDomain)
    (hobs : p.NoObservation)
    (h : (findBaseCounterexampleQuery S solverType k s p none .secConeProof).1.1 = none) :
    ∀ j ≤ k, ¬ p.FrontierBad j := by
  intro j hj
  have hfirst := firstBadFrame_le_frontierFrame j hobs.1 hobs.2
  have hle : p.frontierFrame j ≤ p.frontierFrame k := Nat.add_le_add_right hj _
  have hframes : p.badFrames k none = some (p.baseStartup.firstBadFrame, p.frontierFrame k) := by
    unfold badFrames
    simp only [baseStartup_bootstrapFrames]
    exact if_neg (Nat.not_lt.mpr (hfirst.trans hle))
  have hunsat := unsatisfiable_of_status (status_of_none hS h) hframes
  exact no_frontierBad_of_unsat hpres hunsat hfirst hle

/-- The bad frame of a witness is bad in a run of that depth. -/
theorem cumulativeQuery_found {frame : Nat} (hpres : p.PreservesDomain)
    (hkeeps : p.KeepsStartup p.plainFacts (p.frontierFrame k) p.baseStartup.firstBadFrame)
    (h : (findBaseCounterexampleQuery S solverType k s p none .secConeProof).1.1 = some frame) :
    p.FrontierBad frame := by
  unfold findBaseCounterexampleQuery at h
  split at h
  · cases h
  · rename_i first last hframes
    obtain ⟨rfl, rfl⟩ : first = p.baseStartup.firstBadFrame ∧ last = p.frontierFrame k := by
      simp only [badFrames, Option.ite_none_left_eq_some, Option.some.injEq, Prod.mk.injEq]
        at hframes
      rw [baseStartup_bootstrapFrames] at hframes
      exact ⟨hframes.2.1.symm, hframes.2.2.symm⟩
    simp only at h
    split at h
    · rename_i m s' hsolve
      have hmodel := (S.sat_sound _ _ _ _ m (congrArg Prod.fst hsolve)).1
      obtain ⟨hreduced, -⟩ := evalQuery_baseQuery.mp hmodel
      simp only [reduceCtorEq, if_false, buildCounterexampleWitness, Option.map_eq_some_iff] at h
      obtain ⟨f, hfind, hframe⟩ := h
      have hbad := List.find?_some hfind
      have hmem := List.mem_of_find?_eq_some hfind
      simp only [List.mem_filter, List.mem_range, decide_eq_true_eq] at hmem
      have hprefix : p.resetBootstrapFrames ≤ p.baseStartup.firstBadFrame := by
        simp only [baseStartup]
        split <;> omega
      have hf : f = p.frontierFrame frame := by
        unfold frontierFrame
        omega
      obtain ⟨υ, hυ, hbad'⟩ := hreduced.exists_bad hpres hkeeps (Nat.le_add_left _ _) hmem.2
        (Nat.lt_succ_iff.mp hmem.1) hbad
      subst hf
      exact ⟨υ, hυ.take (Nat.lt_succ_iff.mp hmem.1), hbad'⟩
    · cases h
    · cases h

end Query
end KInductionProblem

/-! ## The search of the cached prefix -/

/-- The conditions under which a call at depth `k` has a right answer to give. -/
structure KInductionProblem.PrefixAgreement (p : KInductionProblem) (solverType : SolverType)
    (k : Nat) : Prop where
  frontier : p.FrontierAgreement k
  leaves : p.canUseDualRailPublicBasePrefixCache = true → solverType ≠ .kissat → p.LeavesHeld k
  prefixKeeps : p.canUseDualRailPublicBasePrefixCache = true → ∀ q, p.Slice q →
    q.KeepsStartup q.plainFacts (q.frontierFrame (k + p.dualRailPublicBasePrefixWindow))
      q.baseStartup.firstBadFrame

section Search
variable {σ : Type} {S : SolverType → FrameSolver σ} {p : KInductionProblem}
  {solverType : SolverType} {k : Nat} {s : σ}

theorem impl_eq_query {T : FrameSolver σ} :
    findBaseCounterexampleImpl T solverType k s p none false .secConeProof =
      findBaseCounterexampleQuery T solverType k s p none .secConeProof := rfl

theorem noObservation_batch (hobs : p.NoObservation) (firstOutput endOutput : Nat) :
    (p.configureOutputBatchProblem firstOutput endOutput).NoObservation := hobs

theorem searchOutputBatches_safe (hS : (S solverType).DecidesUnlimited)
    (hpres : p.PreservesDomain) (hobs : p.NoObservation) {batches : List (Nat × Nat)}
    (h : (searchOutputBatches S p solverType k s batches).1 = none) :
    ∀ t ∈ batches, ∀ j ≤ k, ¬ (p.configureOutputBatchProblem t.1 t.2).FrontierBad j := by
  induction batches generalizing s with
  | nil => exact fun t ht => absurd ht List.not_mem_nil
  | cons t rest ih =>
    rw [searchOutputBatches] at h
    split at h
    · cases h
    · rename_i s' hcall
      rw [impl_eq_query] at hcall
      have hnone : (findBaseCounterexampleQuery (S solverType) solverType k s
          (p.configureOutputBatchProblem t.1 t.2) none .secConeProof).1.1 = none := by
        rw [hcall]
      have hfirst : ∀ j ≤ k, ¬ (p.configureOutputBatchProblem t.1 t.2).FrontierBad j :=
        cumulativeQuery_safe hS (preservesDomain_observing hpres)
          (noObservation_batch hobs t.1 t.2) hnone
      exact List.forall_mem_cons.mpr ⟨hfirst, ih h⟩

theorem searchOutputBatches_found {frame : Nat} (hpres : p.PreservesDomain)
    {batches : List (Nat × Nat)}
    (hkeeps : ∀ t ∈ batches, (p.configureOutputBatchProblem t.1 t.2).KeepsStartup p.plainFacts
      (p.frontierFrame k) p.baseStartup.firstBadFrame)
    (h : (searchOutputBatches S p solverType k s batches).1 = some frame) :
    ∃ t ∈ batches, (p.configureOutputBatchProblem t.1 t.2).FrontierBad frame := by
  induction batches generalizing s with
  | nil => cases h
  | cons t rest ih =>
    rw [searchOutputBatches] at h
    split at h
    · rename_i g status s' hcall
      rw [impl_eq_query] at hcall
      obtain rfl := Option.some.inj h
      refine ⟨t, List.mem_cons_self, ?_⟩
      have hsome : (findBaseCounterexampleQuery (S solverType) solverType k s
          (p.configureOutputBatchProblem t.1 t.2) none .secConeProof).1.1 = some g := by
        rw [hcall]
      exact cumulativeQuery_found (preservesDomain_observing hpres) (hkeeps t List.mem_cons_self)
        hsome
    · obtain ⟨u, hu, hbad⟩ := ih (fun u hu => hkeeps u (List.mem_cons_of_mem _ hu)) h
      exact ⟨u, List.mem_cons_of_mem _ hu, hbad⟩

/-- A bad frame of the problem is a bad frame of one of its batches. -/
theorem frontierBad_iff_batch (h : p.FrontierAgreement k) (hseveral : p.hasSeveralOutputs = true)
    {batches : List (Nat × Nat)} (htiles : Tiles 0 batches p.observedOutputExprs0.length)
    (j : Nat) :
    p.FrontierBad j ↔
      ∃ t ∈ batches, (p.configureOutputBatchProblem t.1 t.2).FrontierBad j := by
  obtain ⟨hstart, hfrontier⟩ := h.observation hseveral
  have hobs : p.NoObservation := ⟨hstart, hfrontier⟩
  have hsides : p.observedOutputExprs0.length = p.observedOutputExprs1.length := by
    simp only [hasSeveralOutputs, Bool.and_eq_true, beq_iff_eq] at hseveral
    exact hseveral.2
  rw [← frontierQuestion_iff_bad hobs,
    frontierQuestion_iff_differs (h.observes hseveral) hstart hfrontier]
  have hbatch : ∀ t ∈ batches, ((p.configureOutputBatchProblem t.1 t.2).FrontierBad j ↔
      ∃ i, t.1 ≤ i ∧ i < t.2 ∧ ∃ τ, p.Unrolling p.plainFacts (p.frontierFrame j) τ ∧
        p.outputDiffers i (τ (p.frontierFrame j))) := by
    intro t ht
    rw [← frontierQuestion_iff_bad (noObservation_batch hobs t.1 t.2)]
    exact frontierQuestion_batch hsides (htiles.bounds ht).2.2 hstart hfrontier
  constructor
  · rintro ⟨i, hi, hdiffers⟩
    obtain ⟨t, ht, hfirst, hlast⟩ := htiles.covers (Nat.zero_le i) hi
    exact ⟨t, ht, (hbatch t ht).mpr ⟨i, hfirst, hlast, hdiffers⟩⟩
  · rintro ⟨t, ht, hbad⟩
    obtain ⟨i, _, hi, hdiffers⟩ := (hbatch t ht).mp hbad
    exact ⟨i, hi.trans_le (htiles.bounds ht).2.2, hdiffers⟩

/-- No witness: every depth of the prefix is safe. -/
theorem cumulative_safe (hS : (S solverType).DecidesUnlimited) {j : Nat}
    (h : p.FrontierAgreement j) (hseveral : p.hasSeveralOutputs = true)
    (hnone : (findDualRailBatchedBaseCounterexampleUpTo S s p solverType k).1 = none) :
    ∀ i ≤ k, ¬ p.FrontierQuestion i := by
  have hobs : p.NoObservation := h.observation hseveral
  intro i hi
  rw [frontierQuestion_iff_bad hobs]
  unfold findDualRailBatchedBaseCounterexampleUpTo at hnone
  split at hnone
  · exact cumulativeQuery_safe hS h.domain hobs hnone i hi
  · have hsafe := searchOutputBatches_safe hS h.domain hobs hnone
    rw [frontierBad_iff_batch h hseveral (tiles_buildSupportBoundedOutputBatches _)]
    rintro ⟨t, ht, hbad⟩
    exact hsafe t ht i hi hbad

/-- The bad frame of a witness is one. -/
theorem cumulative_found {j frame : Nat} (h : p.FrontierAgreement j)
    (hkeeps : ∀ q, p.Slice q →
      q.KeepsStartup q.plainFacts (q.frontierFrame k) q.baseStartup.firstBadFrame)
    (hseveral : p.hasSeveralOutputs = true)
    (hsome : (findDualRailBatchedBaseCounterexampleUpTo S s p solverType k).1 = some frame) :
    p.FrontierQuestion frame := by
  have hobs : p.NoObservation := h.observation hseveral
  rw [frontierQuestion_iff_bad hobs]
  unfold findDualRailBatchedBaseCounterexampleUpTo at hsome
  split at hsome
  · exact cumulativeQuery_found h.domain (hkeeps p .self) hsome
  · have htiles := tiles_buildSupportBoundedOutputBatches (p := p)
      p.defaultOutputBatchingLimitsForProblem
    rw [frontierBad_iff_batch h hseveral htiles]
    refine searchOutputBatches_found h.domain (fun t ht => ?_) hsome
    obtain ⟨_, hlt, hend⟩ := htiles.bounds ht
    exact hkeeps _ (.batch .self hlt hend)

theorem uncached_answers {c : FrontierCall} (hS : (S c.solverType).Decides)
    (h : c.problem.PrefixAgreement c.solverType c.k) :
    Returns c.k ((findUncachedBaseCounterexampleAtFrontier S s c).map Prod.fst)
      (c.problem.FrontierQuestion c.k) := by
  unfold findUncachedBaseCounterexampleAtFrontier
  split
  · rename_i hcan
    exact recursive_answers hS _ h.frontier (h.leaves hcan) s
  · simp only
    unfold findBaseCounterexampleImpl
    cases hseveral : c.problem.hasSeveralOutputs with
    | false =>
      exact (query_answers hS h.frontier.domain (h.frontier.keeps _ .self) s
        .secConeProof).returns
    | true => exact (perOutput_answers hS h.frontier hseveral .secConeProof s).returns

end Search

/-! ## The cache -/

namespace DualRailPublicBasePrefixCache
variable {cache : DualRailPublicBasePrefixCache} {generation : Nat} {c : FrontierCall}

theorem hasKey_keyed : (cache.keyed generation c).hasKey generation c = true := by
  unfold keyed
  split
  · assumption
  · simp [hasKey, reset]

theorem keyed_of_hasKey (h : cache.hasKey generation c = true) :
    cache.keyed generation c = cache := if_pos h

/-- A cache that was reset proves nothing. -/
theorem hasKey_of_safe (h : (cache.keyed generation c).hasSafeThrough = true) :
    cache.hasKey generation c = true := by
  unfold keyed at h
  split at h
  · assumption
  · cases h

end DualRailPublicBasePrefixCache

section History
variable {σ : Type} {S : SolverType → FrameSolver σ} {generation : Nat}
  {h : PrefixHistory σ} {c : FrontierCall}

/-- The safe prefix of this generation is safe for the ghost problem. -/
def PrefixHistory.Sound (generation : Nat) (h : PrefixHistory σ) : Prop :=
  h.cache.verificationGeneration = generation → h.cache.hasSafeThrough = true →
    ∃ q, h.recordedFor = some q ∧ ∀ j ≤ h.cache.safeThrough, ¬ q.FrontierQuestion j

/-- A call that is answered from the safe prefix finds the problem the prefix was
recorded for. -/
def PrefixHistory.Recognises (generation : Nat) (h : PrefixHistory σ) (c : FrontierCall) : Prop :=
  c.problem.canUseDualRailPublicBasePrefixCache = true → h.cache.hasKey generation c = true →
    h.cache.coversDepth c.k = true → h.recordedFor = some c.problem

/-- What the cached prefix does in a call. -/
theorem tryDualRailPublicBasePrefixCache_cases (cache : DualRailPublicBasePrefixCache) (s : σ) :
    (c.problem.canUseDualRailPublicBasePrefixCache = false ∧
      tryDualRailPublicBasePrefixCache S generation cache s c = (none, cache, s)) ∨
    (c.problem.canUseDualRailPublicBasePrefixCache = true ∧
      (cache.keyed generation c).coversDepth c.k = true ∧
      tryDualRailPublicBasePrefixCache S generation cache s c =
        (some none, cache.keyed generation c, s)) ∨
    (c.problem.canUseDualRailPublicBasePrefixCache = true ∧
      (cache.keyed generation c).coversDepth c.k = false ∧
      ∃ s', findDualRailBatchedBaseCounterexampleUpTo S s c.problem c.solverType
          (c.k + c.problem.dualRailPublicBasePrefixWindow) = (none, s') ∧
        tryDualRailPublicBasePrefixCache S generation cache s c =
          (some none, { cache.keyed generation c with
            hasSafeThrough := true
            safeThrough := c.k + c.problem.dualRailPublicBasePrefixWindow }, s')) ∨
    (c.problem.canUseDualRailPublicBasePrefixCache = true ∧
      (cache.keyed generation c).coversDepth c.k = false ∧
      ∃ frame s', findDualRailBatchedBaseCounterexampleUpTo S s c.problem c.solverType
          (c.k + c.problem.dualRailPublicBasePrefixWindow) = (some frame, s') ∧
        tryDualRailPublicBasePrefixCache S generation cache s c =
          (if frame = c.k then some (some frame) else none, cache.keyed generation c, s')) := by
  unfold tryDualRailPublicBasePrefixCache
  cases hcan : c.problem.canUseDualRailPublicBasePrefixCache with
  | false => exact .inl ⟨rfl, by simp⟩
  | true =>
    cases hcovers : (cache.keyed generation c).coversDepth c.k with
    | true => exact .inr (.inl ⟨rfl, rfl, by simp [hcovers]⟩)
    | false =>
      cases hsearch : findDualRailBatchedBaseCounterexampleUpTo S s c.problem c.solverType
          (c.k + c.problem.dualRailPublicBasePrefixWindow) with
      | mk witness s' =>
        cases witness with
        | none => exact .inr (.inr (.inl ⟨rfl, rfl, s', rfl, by simp [hcovers, hsearch]⟩))
        | some frame =>
          exact .inr (.inr (.inr ⟨rfl, rfl, frame, s', rfl, by simp [hcovers, hsearch]⟩))

/-- The next state after a call that leaves `cache'`. -/
def PrefixHistory.next (h : PrefixHistory σ) (c : FrontierCall)
    (cache' : DualRailPublicBasePrefixCache) (s' : σ) : PrefixHistory σ :=
  ⟨cache', if cache' = h.cache then h.recordedFor else some c.problem, s'⟩

theorem PrefixHistory.call_handled {witness : Option Nat}
    {cache' : DualRailPublicBasePrefixCache} {s' : σ}
    (htry : tryDualRailPublicBasePrefixCache S generation h.cache h.solver c =
      (some witness, cache', s')) :
    h.call S generation c = (.ok witness, h.next c cache' s') := by
  simp [call, next, findBaseCounterexampleAtFrontier, htry]

theorem PrefixHistory.call_unhandled {cache' : DualRailPublicBasePrefixCache} {s' : σ}
    (htry : tryDualRailPublicBasePrefixCache S generation h.cache h.solver c =
      (none, cache', s')) :
    ∃ s'', h.call S generation c = ((findUncachedBaseCounterexampleAtFrontier S s' c).map
      Prod.fst, h.next c cache' s'') := by
  unfold call findBaseCounterexampleAtFrontier
  rw [htry]
  dsimp only
  cases findUncachedBaseCounterexampleAtFrontier S s' c with
  | ok r => exact ⟨r.2, rfl⟩
  | error message => exact ⟨s', rfl⟩

theorem PrefixHistory.Sound.same (hsound : h.Sound generation) (s' : σ) :
    (h.next c h.cache s').Sound generation := by
  intro hgen hsafe
  have hrecorded : (h.next c h.cache s').recordedFor = h.recordedFor := if_pos rfl
  rw [hrecorded]
  exact hsound hgen hsafe

theorem PrefixHistory.Sound.keyed (hsound : h.Sound generation) (s' : σ) :
    (h.next c (h.cache.keyed generation c) s').Sound generation := by
  intro hgen hsafe
  have hkept := DualRailPublicBasePrefixCache.keyed_of_hasKey
    (DualRailPublicBasePrefixCache.hasKey_of_safe hsafe)
  rw [hkept] at hgen hsafe ⊢
  exact hsound.same s' hgen hsafe

/-- A cache that did not cover the depth is changed by recording a prefix that does. -/
theorem PrefixHistory.recorded_sound {window : Nat} (s' : σ)
    (huncovered : (h.cache.keyed generation c).coversDepth c.k = false)
    (hsafe : ∀ j ≤ c.k + window, ¬ c.problem.FrontierQuestion j) :
    (h.next c { h.cache.keyed generation c with
      hasSafeThrough := true
      safeThrough := c.k + window } s').Sound generation := by
  intro _ _
  refine ⟨c.problem, if_neg fun hsame => ?_, hsafe⟩
  -- an unchanged cache has the key of the call, so it was not reset and covered the depth
  have hkey : h.cache.hasKey generation c = true := by
    rw [← hsame]
    apply DualRailPublicBasePrefixCache.hasKey_keyed
  rw [DualRailPublicBasePrefixCache.keyed_of_hasKey hkey, ← hsame] at huncovered
  simp [DualRailPublicBasePrefixCache.coversDepth] at huncovered

/-- One call: the answer is right, and the safe prefix stays safe for its problem. -/
theorem PrefixHistory.call_sound (hS : ∀ t, (S t).Decides) (hsound : h.Sound generation)
    (hrecognises : h.Recognises generation c)
    (hagree : c.problem.PrefixAgreement c.solverType c.k) :
    Returns c.k (h.call S generation c).1 (c.problem.FrontierQuestion c.k) ∧
      (h.call S generation c).2.Sound generation := by
  have hseveral : c.problem.canUseDualRailPublicBasePrefixCache = true →
      c.problem.hasSeveralOutputs = true := fun hcan => (Bool.and_eq_true_iff.mp hcan).2
  have hcases : _ ∨ _ ∨ _ ∨ _ :=
    @tryDualRailPublicBasePrefixCache_cases _ S generation c h.cache h.solver
  rcases hcases with
    ⟨_, htry⟩ | ⟨hcan, hcovers, htry⟩ | ⟨hcan, huncovered, s', hsearch, htry⟩ |
      ⟨hcan, huncovered, frame, s', hsearch, htry⟩
  · obtain ⟨s', hcall⟩ := h.call_unhandled htry
    rw [hcall]
    exact ⟨uncached_answers (hS _) hagree, hsound.same _⟩
  · rw [h.call_handled htry]
    refine ⟨(Answers.safe ?_).returns, hsound.keyed _⟩
    -- the prefix was recorded in this generation, for the problem of the call
    have hsafe : (h.cache.keyed generation c).hasSafeThrough = true :=
      (Bool.and_eq_true_iff.mp hcovers).1
    have hkey := DualRailPublicBasePrefixCache.hasKey_of_safe hsafe
    rw [DualRailPublicBasePrefixCache.keyed_of_hasKey hkey] at hcovers hsafe
    have hgen : h.cache.verificationGeneration = generation := by
      simp only [DualRailPublicBasePrefixCache.hasKey, Bool.and_eq_true, beq_iff_eq] at hkey
      exact hkey.2
    obtain ⟨q, hq, hprefix⟩ := hsound hgen hsafe
    obtain rfl : q = c.problem := Option.some.inj (hq.symm.trans (hrecognises hcan hkey hcovers))
    exact hprefix c.k (of_decide_eq_true (Bool.and_eq_true_iff.mp hcovers).2)
  · rw [h.call_handled htry]
    have hsafe := cumulative_safe (hS _).unlimited hagree.frontier (hseveral hcan)
      (congrArg Prod.fst hsearch)
    exact ⟨(Answers.safe (hsafe c.k (Nat.le_add_right _ _))).returns,
      h.recorded_sound s' huncovered hsafe⟩
  · by_cases hframe : frame = c.k
    · rw [if_pos hframe] at htry
      rw [h.call_handled htry]
      refine ⟨?_, hsound.keyed _⟩
      subst hframe
      exact (Answers.found (cumulative_found hagree.frontier (hagree.prefixKeeps hcan)
        (hseveral hcan) (congrArg Prod.fst hsearch))).returns
    · rw [if_neg hframe] at htry
      obtain ⟨s'', hcall⟩ := h.call_unhandled htry
      rw [hcall]
      exact ⟨uncached_answers (hS _) hagree, hsound.keyed _⟩

/-- Every call of the run finds the recorded problem where it is answered from the prefix,
and has a right answer to give. -/
def FrontierRunKept (S : SolverType → FrameSolver σ) (generation : Nat) :
    PrefixHistory σ → List FrontierCall → Prop
  | _, [] => True
  | h, c :: rest =>
    h.Recognises generation c ∧ c.problem.PrefixAgreement c.solverType c.k ∧
      FrontierRunKept S generation (h.call S generation c).2 rest

theorem frontierRun_answers (hS : ∀ t, (S t).Decides) {calls : List FrontierCall}
    (hsound : h.Sound generation) (hkept : FrontierRunKept S generation h calls) :
    List.Forall₂ (fun c r => (∀ s, r = (findUncachedBaseCounterexampleAtFrontier S s c).map
      Prod.fst) ∧ Returns c.k r (c.problem.FrontierQuestion c.k)) calls
      (frontierRun S generation h calls) := by
  induction calls generalizing h with
  | nil => exact .nil
  | cons c rest ih =>
    obtain ⟨hrecognises, hagree, hrest⟩ := hkept
    obtain ⟨hanswer, hsound'⟩ := h.call_sound hS hsound hrecognises hagree
    have huncached : ∀ s, (h.call S generation c).1 =
        (findUncachedBaseCounterexampleAtFrontier S s c).map Prod.fst := by
      intro s
      obtain ⟨a, ha, hright⟩ := hanswer
      exact ha.trans ((uncached_answers (hS _) hagree).eq hright).symm
    exact .cons ⟨huncached, hanswer⟩ (ih hsound' hrest)

end History

/-- Every answer of such a run is that of the search without the cache, whatever the
solver has learned by then. -/
theorem frontierRun_uncached {σ : Type} (S : SolverType → FrameSolver σ) (generation : Nat)
    (h : PrefixHistory σ) (calls : List FrontierCall) (hS : ∀ t, (S t).Decides)
    (hfresh : h.cache.verificationGeneration = generation → h.cache.hasSafeThrough = false)
    (hkept : FrontierRunKept S generation h calls) :
    List.Forall₂ (fun c r => (∀ s, r = (findUncachedBaseCounterexampleAtFrontier S s c).map
      Prod.fst) ∧ Returns c.k r (c.problem.FrontierQuestion c.k)) calls
      (frontierRun S generation h calls) := by
  apply frontierRun_answers hS ?_ hkept
  intro hgen hsafe
  rw [hfresh hgen] at hsafe
  cases hsafe

/-- Four outputs that pass inputs through; the second design inverts the third one. -/
def fourOutputProblem : KInductionProblem :=
  { KInductionProblem.stateless (.var 0) (.var 1) with
    allSymbols := [20, 21, 22, 23]
    observedOutputExprs0 := [.var 20, .var 21, .var 22, .var 23]
    observedOutputExprs1 := [.var 20, .var 21, .not (.var 22), .var 23]
    usesDualRailStateEncoding := true }

/-- The batch object at address 5, configured for outputs `firstOutput .. endOutput`. -/
def batchCall (solverType : SolverType) (firstOutput endOutput k : Nat) : FrontierCall :=
  ⟨5, fourOutputProblem.configureOutputBatchProblem firstOutput endOutput, solverType, k⟩

/-- Equal outputs read nothing. -/
theorem equalOutputs_leavesHeld (solverType : SolverType) (k : Nat) :
    (batchCall solverType 0 2 k).problem.LeavesHeld k := by
  intro q hq _ i hi
  obtain rfl := hq.eq_of_few (show 2 ≤ kMaxImcAssumptionFrontierBatchOutputs by decide)
  have hnothing : ∀ i < 2, addFormulaSupport
      (outputMismatch (fourOutputProblem.configureOutputBatchProblem 0 2) i) = ∅ := by
    decide +kernel
  exact (hnothing i hi).subset.trans (Finset.empty_subset _)

theorem equalOutputs_agreement (solverType : SolverType) (k : Nat) :
    (batchCall solverType 0 2 k).problem.PrefixAgreement solverType k := by
  have hdomain : ∀ q, (batchCall solverType 0 2 k).problem.Slice q → ∀ σ, q.DomainValid σ := by
    intro q hq σ
    rcases hq.exists_view with rfl | ⟨view, rfl⟩ <;>
      exact ⟨fun pr hpr => absurd hpr (List.not_mem_nil (a := pr)),
        fun pr hpr => absurd hpr (List.not_mem_nil (a := pr)),
        fun r hr => absurd hr (List.not_mem_nil (a := r))⟩
  -- no slice has auxiliary states, relations or startup assignments
  have hkeeps : ∀ q, (batchCall solverType 0 2 k).problem.Slice q → ∀ n first,
      q.KeepsStartup q.plainFacts n first := by
    intro q hq n first
    refine ⟨?_, fun σ _ _ => ⟨σ, fun _ _ => rfl, hdomain q hq σ, ?_⟩, ?_⟩
    · rcases hq.exists_view with rfl | ⟨view, rfl⟩ <;>
        exact fun s hs => absurd hs List.not_mem_nil
    · rcases hq.exists_view with rfl | ⟨view, rfl⟩ <;>
        exact fun _ a ha => absurd ha List.not_mem_nil
    · rcases hq.exists_view with rfl | ⟨view, rfl⟩ <;>
        exact fun _ _ _ _ a ha => absurd ha List.not_mem_nil
  refine ⟨⟨fun hne => absurd rfl hne, fun _ σ' _ _ => hdomain _ .self σ',
    fun q hq => hkeeps q hq _ _, fun _ => ⟨rfl, rfl⟩, fun _ => ?_⟩,
    fun _ _ => equalOutputs_leavesHeld solverType k, fun _ q hq => hkeeps q hq _ _⟩
  exact observes_batch rfl 0 2

/-- Two depths of the equal outputs: the second is answered from the prefix. -/
theorem frontierRun_uncached_equalOutputs :
    List.Forall₂
      (fun c r => (∀ s, r = (findUncachedBaseCounterexampleAtFrontier
        (fun _ => exhaustiveSolver) s c).map Prod.fst) ∧
          Returns c.k r (c.problem.FrontierQuestion c.k))
      [batchCall .cadical 0 2 0, batchCall .cadical 0 2 1]
      (frontierRun (fun _ => exhaustiveSolver) 3 ⟨{}, none, ()⟩
        [batchCall .cadical 0 2 0, batchCall .cadical 0 2 1]) := by
  refine frontierRun_uncached _ 3 _ _ (fun _ => exhaustiveSolver_decides) (fun _ => rfl) ⟨?_, ?_⟩
  · intro _ hkey
    cases hkey
  · exact ⟨equalOutputs_agreement _ 0, fun _ _ _ => rfl, equalOutputs_agreement _ 1, trivial⟩

/-- The same object, reconfigured for the other two outputs, is called safe. -/
theorem frontierRun_stale :
    frontierRun (fun _ => exhaustiveSolver) 3 ⟨{}, none, ()⟩
        [batchCall .kissat 0 2 0, batchCall .kissat 2 4 0] = [.ok none, .ok none] ∧
      (findUncachedBaseCounterexampleAtFrontier (fun _ => exhaustiveSolver) ()
        (batchCall .kissat 2 4 0)).map Prod.fst = .ok (some 0) := by
  decide +kernel

end KeplerFormal
