import KeplerFormal.L5Strategy.PdrRun

/-!
# The frames of a PDR run (`src/sec/pdr/PDREngine.cpp`)

* `frameHolds_addClauseToFrames`, `frameHolds_push`: what a clause and a new frame change.
* `PdrQueries.Right`: what is asked of the answers of the queries.
* `FramesOk`: the frames hold the start states, grow, a step leads to the next one, the levels that
  were searched are safe, and all above 0 say what the shared invariant does. `block`, `restrict`,
  `push` and `extend` keep it.
* `QueueOk`: the cubes of the waiting obligations lead to an unsafe state.
-/
namespace KeplerFormal

open Core

/-! ## The states of a frame -/

/-- Every frame is what additions to an empty frame leave. -/
def FramesKept (frames : List FrameClauses) : Prop :=
  ∀ frame ∈ frames, ∃ accepted added, FrameInv frame accepted added

/-- What the shared invariant says. -/
def ReusableHolds (sharedExactInit : Option PDRExactInitCache) (v : Valuation) : Prop :=
  ∀ cache, sharedExactInit = some cache → ClausesHold cache.reusableInvariant.clauses v

section Additions
variable {frames : List FrameClauses} {level : Nat} {clause : StateClause}

@[simp] theorem length_addClauseAt : (addClauseAt level clause frames).length = frames.length :=
  List.length_modify _ _ _

theorem frameAt_addClauseAt_ne {i : Nat} (h : i ≠ level) :
    frameAt (addClauseAt level clause frames) i = frameAt frames i := by
  simp [frameAt, addClauseAt, List.getD_eq_getElem?_getD, Ne.symm h]

theorem frameAt_addClauseAt_self (h : level < frames.length) :
    frameAt (addClauseAt level clause frames) level =
      (addClauseToFrame (frameAt frames level) clause).1 := by
  simp only [frameAt, addClauseAt, List.getD_eq_getElem?_getD, List.getElem?_modify, if_true,
    List.getElem?_eq_getElem h]
  rfl

theorem FramesKept.frameAt (h : FramesKept frames) (hl : level < frames.length) :
    ∃ accepted added, FrameInv (frameAt frames level) accepted added := by
  have hmem : KeplerFormal.frameAt frames level ∈ frames := by
    rw [KeplerFormal.frameAt, List.getD_eq_getElem _ _ hl]
    exact List.getElem_mem hl
  exact h _ hmem

theorem frameHolds_addClauseAt (h : FramesKept frames) (hl : level < frames.length) (i : Nat)
    (v : Valuation) : FrameHolds (addClauseAt level clause frames) i v ↔
      FrameHolds frames i v ∧ (i = level → ClauseHolds (lit v) clause) := by
  unfold FrameHolds
  by_cases hi : i = level
  · subst hi
    obtain ⟨accepted, added, hinv⟩ := h.frameAt hl
    rw [frameAt_addClauseAt_self hl, hinv.holds_add]
    simp
  · rw [frameAt_addClauseAt_ne hi]
    simp [hi]

theorem FramesKept.addClauseAt (h : FramesKept frames) :
    FramesKept (addClauseAt level clause frames) := by
  intro frame hframe
  obtain ⟨i, hi, rfl⟩ := List.mem_iff_getElem.mp hframe
  have hlt : i < frames.length := by rwa [length_addClauseAt] at hi
  rw [← List.getD_eq_getElem _ { clauses := [], addedClauseLog := [] } hi]
  change ∃ accepted added, FrameInv (KeplerFormal.frameAt _ i) accepted added
  by_cases hne : i = level
  · subst hne
    obtain ⟨accepted, added, hinv⟩ := h.frameAt hlt
    rw [frameAt_addClauseAt_self hlt]
    exact ⟨_, _, hinv.add clause⟩
  · rw [frameAt_addClauseAt_ne hne]
    exact h.frameAt hlt

theorem length_addClauseToFrames (maxLevel : Nat) :
    (addClauseToFrames frames clause maxLevel).length = frames.length := by
  unfold addClauseToFrames
  generalize List.range' 1 maxLevel = levels
  induction levels generalizing frames with
  | nil => rfl
  | cons level levels ih => rw [List.foldl_cons, ih, length_addClauseAt]

theorem addClauseToFrames_succ (maxLevel : Nat) :
    addClauseToFrames frames clause (maxLevel + 1) =
      addClauseAt (maxLevel + 1) clause (addClauseToFrames frames clause maxLevel) := by
  simp only [addClauseToFrames, List.range'_concat, List.foldl_append, List.foldl_cons,
    List.foldl_nil, Nat.one_mul, Nat.add_comm 1 maxLevel]

theorem FramesKept.addClauseToFrames (h : FramesKept frames) (maxLevel : Nat) :
    FramesKept (addClauseToFrames frames clause maxLevel) := by
  induction maxLevel with
  | zero => exact h
  | succ maxLevel ih =>
    rw [addClauseToFrames_succ]
    exact ih.addClauseAt

/-- The levels `1 .. maxLevel` get the clause. -/
theorem frameHolds_addClauseToFrames (h : FramesKept frames) {maxLevel : Nat}
    (hl : maxLevel < frames.length) (i : Nat) (v : Valuation) :
    FrameHolds (addClauseToFrames frames clause maxLevel) i v ↔
      FrameHolds frames i v ∧ (0 < i → i ≤ maxLevel → ClauseHolds (lit v) clause) := by
  induction maxLevel with
  | zero =>
    refine ⟨fun hv => ⟨hv, fun h0 hi => by omega⟩, fun hv => hv.1⟩
  | succ maxLevel ih =>
    rw [addClauseToFrames_succ, frameHolds_addClauseAt (h.addClauseToFrames maxLevel)
      (by rwa [length_addClauseToFrames]), ih (by omega)]
    constructor
    · rintro ⟨⟨hv, hle⟩, heq⟩
      refine ⟨hv, fun h0 hi => ?_⟩
      rcases Nat.eq_or_lt_of_le hi with rfl | hlt
      · exact heq rfl
      · exact hle h0 (by omega)
    · rintro ⟨hv, hle⟩
      exact ⟨⟨hv, fun h0 hi => hle h0 (by omega)⟩, fun heq => hle (by omega) (by omega)⟩

theorem frameInv_empty : FrameInv { clauses := [], addedClauseLog := [] } [] [] :=
  addAll_inv []

/-- A new frame says what the shared invariant does. -/
theorem newFrame_spec {sharedExactInit : Option PDRExactInitCache} :
    (∃ accepted added, FrameInv (newFrame sharedExactInit) accepted added) ∧
      ∀ v, ClausesHold (newFrame sharedExactInit).clauses v ↔ ReusableHolds sharedExactInit v := by
  cases sharedExactInit with
  | none =>
    refine ⟨⟨[], [], frameInv_empty⟩, fun v => iff_of_true ?_ ?_⟩
    · exact fun clause hclause => absurd hclause List.not_mem_nil
    · intro cache heq
      cases heq
  | some cache =>
    obtain ⟨hkept, hholds⟩ := frameInv_empty.addClauses cache.reusableInvariant.clauses
    refine ⟨hkept, fun v =>
      (hholds (lit v)).trans ⟨fun h cache' heq => ?_, fun h => ⟨?_, h cache rfl⟩⟩⟩
    · rw [← Option.some.inj heq]
      exact h.2
    · exact fun clause hclause => absurd hclause List.not_mem_nil

theorem frameAt_push (frame : FrameClauses) (i : Nat) :
    frameAt (frames ++ [frame]) i = if i = frames.length then frame else frameAt frames i := by
  simp only [frameAt, List.getD_eq_getElem?_getD]
  rcases Nat.lt_trichotomy i frames.length with hlt | rfl | hgt
  · rw [List.getElem?_append_left hlt, if_neg (by omega)]
  · simp
  · rw [List.getElem?_eq_none (by simp; omega), List.getElem?_eq_none (by omega), if_neg (by omega)]

/-- The frames behind the last one say nothing. -/
theorem frameHolds_of_length_le (h : frames.length ≤ level) (v : Valuation) :
    FrameHolds frames level v := by
  intro clause hclause
  rw [frameAt, List.getD_eq_default _ _ h] at hclause
  exact absurd hclause List.not_mem_nil

theorem frameHolds_push (sharedExactInit : Option PDRExactInitCache) (i : Nat) (v : Valuation) :
    FrameHolds (frames ++ [newFrame sharedExactInit]) i v ↔
      FrameHolds frames i v ∧ (i = frames.length → ReusableHolds sharedExactInit v) := by
  unfold FrameHolds
  rw [frameAt_push]
  split
  · next heq =>
    have hbehind : FrameHolds frames i v := frameHolds_of_length_le (heq ▸ Nat.le_refl _) v
    exact (newFrame_spec.2 v).trans ⟨fun h => ⟨hbehind, fun _ => h⟩, fun h => h.2 heq⟩
  · next hne => exact ⟨fun h => ⟨h, fun heq => absurd heq hne⟩, fun h => h.1⟩

theorem FramesKept.push (h : FramesKept frames) (sharedExactInit : Option PDRExactInitCache) :
    FramesKept (frames ++ [newFrame sharedExactInit]) := by
  intro frame hframe
  rcases List.mem_append.mp hframe with hold | hnew
  · exact h frame hold
  · rw [List.mem_singleton.mp hnew]
    exact newFrame_spec.1

end Additions

/-! ## What is asked of the queries -/

/-- A system, what holds of all its reachable states and which states are safe; and what the
cubes of a run stand for: those that lead to an unsafe state in some number of steps, and those
that have a start state. -/
structure PdrMeaning where
  system : LTS Valuation Unit
  J : Valuation → Prop
  Safe : Valuation → Prop
  StartFails : Prop
  Leads : Nat → StateCube → Prop
  Meets : StateCube → Prop

namespace PdrMeaning
variable (M : PdrMeaning) (frames : List FrameClauses)

def Leaves (level : Nat) (v : Valuation) : Prop :=
  M.system.Leaves M.J M.Safe (FrameHolds frames) level v

/-- The states among which a bad one is looked for. -/
structure Sought (level : Nat) (v : Valuation) : Prop where
  frame : FrameHolds frames level v
  start : level = 0 → M.system.init v
  later : 0 < level → M.J v

def Outside (cube : StateCube) : Prop := ∀ v, M.system.init v → ¬ cube.Holds v

/-- No step out of the level leads into the cube, from outside of it where `exclude` says so. -/
def NoStep (level : Nat) (exclude : Bool) (cube : StateCube) : Prop :=
  ∀ v v', M.Leaves frames level v → (exclude = true → ¬ cube.Holds v) →
    M.system.step v () v' → ¬ cube.Holds v'

/-- The cube can be excluded from the frames up to the level. -/
structure Blocks (level : Nat) (cube : StateCube) : Prop where
  start : M.Outside cube
  step : M.NoStep frames (level - 1) true cube

/-- A part of the cube that no step leads into, from outside of the cube where `exclude` says
so. -/
structure CoreOf (level : Nat) (exclude : Bool) (cube core : StateCube) : Prop where
  part : ∀ literal ∈ core, literal ∈ cube
  step : ∀ v v', M.Leaves frames level v → (exclude = true → ¬ cube.Holds v) →
    M.system.step v () v' → ¬ core.Holds v'

end PdrMeaning

/-! ## Invariants of a run -/

/-- The frames `0 .. top`; the levels below `searched` are safe, and those above 0 say what `H`
does. -/
structure PdrMeaning.FramesOk (M : PdrMeaning) (H : Valuation → Prop) (top searched : Nat)
    (frames : List FrameClauses) : Prop where
  length : frames.length = top + 1
  kept : FramesKept frames
  seq : M.system.FrameSeq M.J M.Safe (FrameHolds frames) top
  safe : ∀ i, 0 < i → i < searched → ∀ v, FrameHolds frames i v → M.J v → M.Safe v
  reused : ∀ i, 0 < i → i ≤ top → ∀ v, FrameHolds frames i v → H v

/-- The answers of the queries are right, as long as no budget is exhausted: `Good` is what the
caches keep about the frames. -/
structure PdrQueries.Right {κ : Type} (Q : PdrQueries κ) (M : PdrMeaning)
    (Good : κ → List FrameClauses → Prop) : Prop where
  grows : ∀ caches frames frames', FramesKept frames' →
    (∀ i v, FrameHolds frames' i v → FrameHolds frames i v) → Good caches frames →
    Good caches frames'
  retire : ∀ caches frames, Good caches frames →
    Good (Q.retireGeneralizationStatusQ2Selectors caches) frames
  bad : ∀ frames level, Program.Triple (fun c => Good c.caches frames) (Q.findBadCube frames level)
    fun found c => Good c.caches frames ∧
      (found = none → c.exhausted = none → ∀ v, M.Sought frames level v → M.Safe v) ∧
      ∀ cube, found = some cube → M.Leads 0 cube ∧ (level = 0 → M.StartFails)
  predecessor : ∀ frames level target exclude purpose,
    Program.Triple (fun c => Good c.caches frames)
      (Q.findPredecessorCube frames level target exclude purpose)
      fun outcome c => Good c.caches frames ∧
        (outcome.hasPredecessor = false → c.exhausted = none →
          M.NoStep frames level exclude target) ∧
        ∀ cube d, outcome.predecessor = some cube → M.Leads d target → M.Leads (d + 1) cube
  intersects : ∀ frames cube, Program.Triple (fun c => Good c.caches frames)
    (Q.cubeIntersectsInit cube)
    fun meets c => Good c.caches frames ∧ (meets = false → M.Outside cube) ∧
      (meets = true → M.Meets cube)
  core : ∀ frames level cube, Program.Triple (fun c => Good c.caches frames)
    (Q.cachedPredecessorUnsatCoreForCube frames level cube true)
    fun found c => Good c.caches frames ∧
      ∀ core, found = some core → M.CoreOf frames level true cube core

namespace PdrMeaning
variable {M : PdrMeaning} {frames : List FrameClauses} {level : Nat} {cube core grown : StateCube}

/-- Literals of the cube that join a core keep it one, and what is outside the grown core is
outside the cube. -/
theorem CoreOf.blocks (h : M.CoreOf frames (level - 1) true cube core)
    (hcore : ∀ literal ∈ core, literal ∈ grown)
    (hgrown : ∀ literal ∈ grown, literal ∈ core ∨ literal ∈ cube) (hstart : M.Outside grown) :
    M.Blocks frames level grown where
  start := hstart
  step v v' hv hout hstep hv' := by
    refine h.step v v' hv (fun _ hcube => hout rfl fun literal hmem => ?_) hstep
      fun literal hmem => hv' literal (hcore literal hmem)
    rcases hgrown literal hmem with hold | hnew
    · exact hcube literal (h.part literal hold)
    · exact hcube literal hnew

end PdrMeaning

/-! ## Obligations -/

/-- What is known of an obligation: its cube leads to an unsafe state in as many steps as the
bad frame is above the level. -/
structure PdrMeaning.ObligationOk (M : PdrMeaning) (rootLevel : Nat)
    (obligation : ProofObligation) : Prop where
  level : obligation.level ≤ rootLevel
  badFrame : obligation.level ≤ obligation.badFrame
  leads : M.Leads (obligation.badFrame - obligation.level) obligation.cube

def PdrMeaning.QueueOk (M : PdrMeaning) (rootLevel : Nat) (q : ProofObligationQueue) : Prop :=
  ∀ obligation ∈ q.queue, M.ObligationOk rootLevel obligation

/-- A failing run of at most `bound` steps from a start state. -/
def PdrMeaning.Counterexample (M : PdrMeaning) (bound : Nat) : Prop :=
  ∃ cube d, M.Leads d cube ∧ M.Meets cube ∧ d ≤ bound

section Queue
variable {M : PdrMeaning} {rootLevel : Nat} {q : ProofObligationQueue} {obligation : ProofObligation}

theorem PdrMeaning.QueueOk.enqueue (h : M.QueueOk rootLevel q)
    (hobligation : M.ObligationOk rootLevel obligation) :
    M.QueueOk rootLevel (q.enqueue obligation) := by
  unfold ProofObligationQueue.enqueue
  split
  · exact h
  · intro o ho
    rcases (List.mem_orderedInsert _).mp ho with rfl | hold
    · exact ⟨hobligation.level, hobligation.badFrame, hobligation.leads⟩
    · exact h o hold

theorem PdrMeaning.QueueOk.enqueueNext (h : M.QueueOk rootLevel q)
    (hobligation : M.ObligationOk rootLevel obligation) :
    M.QueueOk rootLevel (q.enqueueNext obligation rootLevel) := by
  unfold ProofObligationQueue.enqueueNext
  split
  · exact h
  · have hlevel := hobligation.badFrame
    refine h.enqueue ⟨by dsimp only; omega, by dsimp only; omega, ?_⟩
    dsimp only
    rw [Nat.add_sub_add_right]
    exact hobligation.leads

theorem PdrMeaning.QueueOk.pop (h : M.QueueOk rootLevel q) {rest : ProofObligationQueue}
    (hpop : q.pop = some (obligation, rest)) :
    M.ObligationOk rootLevel obligation ∧ M.QueueOk rootLevel rest := by
  unfold ProofObligationQueue.pop at hpop
  split at hpop
  · cases hpop
  · next first others hqueue =>
    obtain ⟨rfl, rfl⟩ := Prod.mk.inj (Option.some.inj hpop)
    refine ⟨h _ (hqueue ▸ List.mem_cons_self), fun o ho => h o ?_⟩
    exact hqueue ▸ List.mem_cons_of_mem _ ho

end Queue

namespace PdrMeaning.FramesOk
variable {M : PdrMeaning} {H : Valuation → Prop} {frames frames' : List FrameClauses}
  {top searched : Nat} {cube : StateCube} {level : Nat}

/-- Frames that say more. -/
theorem stronger (h : M.FramesOk H top searched frames) (hlength : frames'.length = frames.length)
    (hkept : FramesKept frames') (hseq : M.system.FrameSeq M.J M.Safe (FrameHolds frames') top)
    (hF : ∀ i v, FrameHolds frames' i v → FrameHolds frames i v) :
    M.FramesOk H top searched frames' where
  length := hlength.trans h.length
  kept := hkept
  seq := hseq
  safe i h0 hi v hv hj := h.safe i h0 hi v (hF i v hv) hj
  reused i h0 hi v hv := h.reused i h0 hi v (hF i v hv)

/-- A cube that can be excluded is excluded. -/
theorem block (h : M.FramesOk H top searched frames)
    (hstart : ∀ v, M.system.init v → M.J v ∧ M.Safe v) (hcube : M.Blocks frames level cube)
    (h0 : 0 < level) (hlevel : level ≤ top) :
    M.FramesOk H top searched (addClauseToFrames frames (clauseFromCube cube) level) := by
  have hF : ∀ i v, FrameHolds (addClauseToFrames frames (clauseFromCube cube) level) i v ↔
      FrameHolds frames i v ∧ (0 < i → i ≤ level - 1 + 1 → ¬ cube.Holds v) := by
    intro i v
    rw [frameHolds_addClauseToFrames h.kept (by rw [h.length]; omega), clauseHolds_clauseFromCube,
      Nat.sub_add_cancel h0]
  refine h.stronger (length_addClauseToFrames level) (h.kept.addClauseToFrames level) ?_
    fun i v hv => ((hF i v).mp hv).1
  exact h.seq.block hstart (by omega) hcube.start
    (fun v l v' hv hout hstep => hcube.step v v' hv (fun _ => hout) hstep) hF

/-- A cube without start states is excluded from frame 0. -/
theorem restrict (h : M.FramesOk H top searched frames) (hcube : M.Outside cube) :
    M.FramesOk H top searched (addClauseAt 0 (clauseFromCube cube) frames) := by
  have hF : ∀ i v, FrameHolds (addClauseAt 0 (clauseFromCube cube) frames) i v ↔
      FrameHolds frames i v ∧ (i = 0 → ¬ cube.Holds v) := by
    intro i v
    rw [frameHolds_addClauseAt h.kept (by rw [h.length]; omega), clauseHolds_clauseFromCube]
  exact h.stronger length_addClauseAt h.kept.addClauseAt (h.seq.restrict hcube hF)
    fun i v hv => ((hF i v).mp hv).1

/-- A clause of a frame that every step keeps is pushed to the next one. -/
theorem push (h : M.FramesOk H top searched frames) {clause : StateClause}
    (hclause : ∀ v, FrameHolds frames level v → ClauseHolds (lit v) clause)
    (hrel : M.NoStep frames level false (cubeFromClauseNegation clause))
    (hlevel : level < top) :
    M.FramesOk H top searched (addClauseAt (level + 1) clause frames) := by
  have hF : ∀ i v, FrameHolds (addClauseAt (level + 1) clause frames) i v ↔
      FrameHolds frames i v ∧ (i = level + 1 → ClauseHolds (lit v) clause) :=
    frameHolds_addClauseAt h.kept (by rw [h.length]; omega)
  refine h.stronger length_addClauseAt h.kept.addClauseAt ?_ fun i v hv => ((hF i v).mp hv).1
  refine h.seq.push hclause (fun v l v' hv hstep => ?_) hF
  have hnext := hrel v v' hv (fun hf => by cases hf) hstep
  rwa [holds_cubeFromClauseNegation, not_not] at hnext

/-- A new frame says what an invariant of the system does. -/
theorem extend {sharedExactInit : Option PDRExactInitCache}
    (h : M.FramesOk (ReusableHolds sharedExactInit) top searched frames)
    (hreusable : M.system.Inductive (ReusableHolds sharedExactInit)) :
    M.FramesOk (ReusableHolds sharedExactInit) (top + 1) searched
      (frames ++ [newFrame sharedExactInit]) := by
  have hF : ∀ i v, FrameHolds (frames ++ [newFrame sharedExactInit]) i v ↔
      FrameHolds frames i v ∧ (i = top + 1 → ReusableHolds sharedExactInit v) := by
    intro i v
    rw [frameHolds_push, h.length]
  refine ⟨by simp [h.length], h.kept.push _, ?_, fun i h0 hi v hv hj => ?_, fun i h0 hi v hv => ?_⟩
  · exact h.seq.extend hreusable (fun h0 => h.reused top h0 (Nat.le_refl _))
      (fun v => frameHolds_of_length_le (by rw [h.length]) v) hF
  · exact h.safe i h0 hi v ((hF i v).mp hv).1 hj
  · obtain ⟨hold, hnew⟩ := (hF i v).mp hv
    rcases Nat.eq_or_lt_of_le hi with rfl | hlt
    · exact hnew rfl
    · exact h.reused i h0 (by omega) v hold

end PdrMeaning.FramesOk

namespace PdrMeaning
variable (M : PdrMeaning)

/-- Every run of fewer than `bound` steps ends in a safe state. -/
def SafeBelow (bound : Nat) : Prop :=
  ∀ (τ : Nat → Valuation) (d : Nat), M.system.init (τ 0) →
    (∀ i < d, M.system.step (τ i) () (τ (i + 1))) → d < bound → M.Safe (τ d)

/-- What the result of a run says about the system. -/
structure ResultOk (hasStates : Bool) (result : PDRResult) : Prop where
  equivalent : result.status = .equivalent → (∀ v, M.system.init v → M.Safe v) ∧
    (hasStates = true → ∃ K, M.system.Inductive K ∧ ∀ v, K v → M.Safe v)
  different : result.status = .different →
    (result.bound = 0 ∧ M.StartFails) ∨ M.Counterexample result.bound
  inconclusive : result.status = .inconclusive → M.SafeBelow result.bound

theorem ResultOk.of_equivalent {M : PdrMeaning} {hasStates : Bool} {bound : Nat}
    (hstart : ∀ v, M.system.init v → M.Safe v)
    (h : hasStates = true → ∃ K, M.system.Inductive K ∧ ∀ v, K v → M.Safe v) :
    M.ResultOk hasStates ⟨.equivalent, bound⟩ where
  equivalent _ := ⟨hstart, h⟩
  different hne := by cases hne
  inconclusive hne := by cases hne

theorem ResultOk.of_different {M : PdrMeaning} {hasStates : Bool} {bound : Nat}
    (h : (bound = 0 ∧ M.StartFails) ∨ M.Counterexample bound) :
    M.ResultOk hasStates ⟨.different, bound⟩ where
  equivalent hne := by cases hne
  different _ := h
  inconclusive hne := by cases hne

theorem ResultOk.of_inconclusive {M : PdrMeaning} {hasStates : Bool} {bound : Nat}
    (h : M.SafeBelow bound) : M.ResultOk hasStates ⟨.inconclusive, bound⟩ where
  equivalent hne := by cases hne
  different hne := by cases hne
  inconclusive _ := h

theorem safeBelow_zero : M.SafeBelow 0 := fun _ d _ _ hd => absurd hd (Nat.not_lt_zero d)

theorem FramesOk.safeBelow {M : PdrMeaning} {H : Valuation → Prop} {frames : List FrameClauses}
    {top searched : Nat}
    (h : M.FramesOk H top searched frames) (hJ : M.system.Inductive M.J)
    (hstart : ∀ v, M.system.init v → M.Safe v) {bound : Nat} (htop : bound ≤ top)
    (hsearched : bound ≤ searched) : M.SafeBelow bound := by
  intro τ d hinit hstep hd
  rcases Nat.eq_zero_or_pos d with rfl | hpos
  · exact hstart _ hinit
  · have hseq : M.system.FrameSeq M.J M.Safe (FrameHolds frames) bound :=
      ⟨h.seq.init, fun i h0 hi => h.seq.grows i h0 (by omega), fun i hi => h.seq.step i (by omega)⟩
    exact (hseq.covers hJ hstart (fun i h0 hi => h.safe i h0 (by omega)) hinit
      (fun i hi => ⟨(), hstep i hi⟩) (Nat.le_of_lt hd)).2.2 hd

/-- Two neighbours that agree prove the property. -/
theorem FramesOk.converged {M : PdrMeaning} {H : Valuation → Prop} {frames : List FrameClauses}
    {top level : Nat}
    (h : M.FramesOk H top top frames) (hJ : M.system.Inductive M.J)
    (hstart : ∀ v, M.system.init v → M.Safe v) (h0 : 0 < level) (hlevel : level < top)
    (hconv : framesConverged (frameAt frames level) (frameAt frames (level + 1)) = true) :
    ∃ K, M.system.Inductive K ∧ ∀ v, K v → M.Safe v := by
  obtain ⟨accepted, added, hinv⟩ :=
    h.kept.frameAt (show level < frames.length by rw [h.length]; omega)
  obtain ⟨accepted', added', hinv'⟩ := h.kept.frameAt
    (show level + 1 < frames.length by rw [h.length]; omega)
  have heq := (hinv.converged_iff hinv').mp hconv
  refine ⟨_, h.seq.inductive_of_eq hJ hstart h0 (Nat.le_refl level) hlevel (by omega)
    (h.safe level h0 hlevel) fun v hv => ?_, fun v hv => hv.2.2⟩
  unfold FrameHolds at hv ⊢
  rwa [heq]

end PdrMeaning

end KeplerFormal
