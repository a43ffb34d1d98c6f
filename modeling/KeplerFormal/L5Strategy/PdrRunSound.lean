import KeplerFormal.L5Strategy.PdrFrames

/-!
# What a run of the PDR engine keeps (`src/sec/pdr/PDREngine.cpp`)

One `_spec` for each function of the run, with the queries right.

* `generalizeBlockedCube_spec`: a cube that can be excluded is generalized to one that can be.
* `blockProofObligations_spec`, `propagateClauses_spec`: blocking and pushing keep `FramesOk`.
* `explore_spec`: what a result says about the system.
-/
namespace KeplerFormal

open Core

namespace PDREngine
variable {κ α : Type} {Q : PdrQueries κ} {M : PdrMeaning} {Good : κ → List FrameClauses → Prop}
  {H : Valuation → Prop} {frames : List FrameClauses}

/-- The frames of a state, with caches that know them. -/
def At (Good : κ → List FrameClauses → Prop) (frames : List FrameClauses) (s : PdrState κ) : Prop :=
  s.frames = frames ∧ Good s.context.caches frames

/-! ## Single steps -/

theorem ask_spec {query : List FrameClauses → PdrQuery κ α} {R : α → PdrContext κ → Prop}
    (h : Program.Triple (fun c => Good c.caches frames) (query frames)
      fun a c => Good c.caches frames ∧ R a c) :
    Program.Triple (At Good frames) (ask query) fun a s => At Good frames s ∧ R a s.context := by
  rintro s ⟨rfl, hs⟩ a s' hrun
  obtain ⟨⟨answer, context⟩, hquery, hrun⟩ := bind_ok.mp hrun
  obtain ⟨rfl, rfl⟩ := Prod.mk.inj (Except.ok.inj hrun)
  have hanswer := h s.context hs answer context hquery
  exact ⟨⟨rfl, hanswer.1⟩, hanswer.2⟩

theorem hasPdrBudgetExhaustion_spec {P : PdrState κ → Prop} :
    Program.Triple P hasPdrBudgetExhaustion
      fun flag s => P s ∧ (flag = false → s.context.exhausted = none) := by
  refine Program.Triple.get.bind fun s => .ret _ ?_
  rintro s' ⟨hs', rfl⟩
  refine ⟨hs', fun hflag => ?_⟩
  rwa [Option.isSome_eq_false_iff, Option.isNone_iff_eq_none] at hflag

theorem changeFrames_spec {P Q' : PdrState κ → Prop}
    {change : List FrameClauses → List FrameClauses}
    (h : ∀ s, P s → Q' { s with frames := change s.frames }) :
    Program.Triple P (changeFrames change) fun _ s => Q' s := .modify h

section Queries
variable (hQ : Q.Right M Good)

include hQ

theorem intersectsInit_spec (cube : StateCube) :
    Program.Triple (At Good frames) (intersectsInit Q cube) fun meets s =>
      At Good frames s ∧ (meets = false → M.Outside cube) ∧ (meets = true → M.Meets cube) := by
  exact @ask_spec _ _ Good frames (fun _ => Q.cubeIntersectsInit cube) _
    (hQ.intersects frames cube)

theorem findPredecessorCube_spec (level : Nat) (target : StateCube) (exclude : Bool)
    (purpose : PredecessorQueryPurpose) :
    Program.Triple (At Good frames)
      (ask fun frames => Q.findPredecessorCube frames level target exclude purpose)
      fun outcome s => At Good frames s ∧
        (outcome.hasPredecessor = false → s.context.exhausted = none →
          M.NoStep frames level exclude target) ∧
        ∀ cube d, outcome.predecessor = some cube → M.Leads d target → M.Leads (d + 1) cube := by
  exact @ask_spec _ _ Good frames
    (fun frames => Q.findPredecessorCube frames level target exclude purpose) _
    (hQ.predecessor frames level target exclude purpose)

/-- What the query says is known to the rest of the program. -/
theorem intersectsInit_then {cube : StateCube} {prog prog' : PdrProgram κ α}
    {R : α → PdrState κ → Prop} (hmeets : M.Meets cube → Program.Triple (At Good frames) prog R)
    (hout : M.Outside cube → Program.Triple (At Good frames) prog' R) :
    Program.Triple (At Good frames)
      (intersectsInit Q cube >>= fun meets => if meets = true then prog else prog') R :=
  (intersectsInit_spec hQ cube).known fun _ h =>
    .ite (fun heq => hmeets (h.2 heq)) fun hne => hout (h.1 (Bool.not_eq_true _ ▸ hne))

/-- What a query within the budget says is known to the rest of the program. -/
theorem findPredecessorCube_then {level : Nat} {target : StateCube} {exclude : Bool}
    {purpose : PredecessorQueryPurpose}
    {next : PredecessorQueryOutcome → Bool → PdrProgram κ α} {R : α → PdrState κ → Prop}
    (hnext : ∀ outcome flag,
      (flag = false → outcome.hasPredecessor = false → M.NoStep frames level exclude target) →
      (∀ cube d, outcome.predecessor = some cube → M.Leads d target → M.Leads (d + 1) cube) →
      Program.Triple (At Good frames) (next outcome flag) R) :
    Program.Triple (At Good frames)
      (ask (fun frames => Q.findPredecessorCube frames level target exclude purpose) >>=
        fun outcome => hasPdrBudgetExhaustion >>= next outcome) R :=
  (findPredecessorCube_spec hQ level target exclude purpose).bind fun outcome =>
    hasPdrBudgetExhaustion_spec.bind fun flag s hs =>
      hnext outcome flag (fun hflag hnone => hs.1.2.1 hnone (hs.2 hflag)) hs.1.2.2 s hs.1.1

theorem findBadCube_spec (level : Nat) :
    Program.Triple (At Good frames) (ask fun frames => Q.findBadCube frames level)
      fun found s => At Good frames s ∧
        (found = none → s.context.exhausted = none → ∀ v, M.Sought frames level v → M.Safe v) ∧
        ∀ cube, found = some cube → M.Leads 0 cube ∧ (level = 0 → M.StartFails) := by
  exact @ask_spec _ _ Good frames (fun frames => Q.findBadCube frames level) _ (hQ.bad frames level)

/-! ## Generalization -/

/-- Between the core and the core with the target's literals. -/
def Grown (core targetCube candidate : StateCube) : Prop :=
  (∀ literal ∈ core, literal ∈ candidate) ∧
    ∀ literal ∈ candidate, literal ∈ core ∨ literal ∈ targetCube

omit hQ in
theorem Grown.push {core targetCube candidate : StateCube} {literal : CubeLiteral}
    (h : Grown core targetCube candidate) (hmem : literal ∈ targetCube) :
    Grown core targetCube (normalizeCube (candidate ++ [literal])) := by
  constructor
  · intro l hl
    rw [mem_normalizeCube]
    exact List.mem_append_left _ (h.1 l hl)
  · intro l hl
    rw [mem_normalizeCube] at hl
    rcases List.mem_append.mp hl with hold | hnew
    · exact h.2 l hold
    · rw [List.mem_singleton.mp hnew]
      exact .inr hmem

theorem growCoreByLiteral_spec {core targetCube : StateCube} {literal : CubeLiteral}
    (hmem : literal ∈ targetCube) (candidate : StateCube) :
    Program.Triple (fun s => Grown core targetCube candidate ∧ At Good frames s)
      (growCoreByLiteral Q literal candidate)
      (Sum.elim (fun c s => Grown core targetCube c ∧ At Good frames s)
        fun c s => At Good frames s ∧ Grown core targetCube c ∧ M.Outside c) :=
  .assume fun hgrown => .ite (fun _ => .ret _ fun _ hs => ⟨hgrown, hs⟩) fun _ =>
    intersectsInit_then hQ (fun _ => .ret _ fun _ hs => ⟨hgrown.push hmem, hs⟩)
      fun hout => .ret _ fun _ hs => ⟨hs, hgrown.push hmem, hout⟩

theorem growCoreOutsideInit_spec (core targetCube : StateCube) :
    Program.Triple (At Good frames) (growCoreOutsideInit Q core targetCube) fun grown s =>
      At Good frames s ∧ ∀ c, grown = some c → Grown core targetCube c ∧ M.Outside c := by
  have hstart : Grown core targetCube core := ⟨fun _ h => h, fun _ h => .inl h⟩
  refine intersectsInit_then hQ (fun _ => ?_) fun hout => .ret _ fun s hs => ⟨hs, fun c hc => ?_⟩
  · refine ((Program.Triple.scan (fun literal hmem candidate =>
      growCoreByLiteral_spec hQ hmem candidate) core).strengthen
        fun s hs => ⟨hstart, hs⟩).bind fun next => ?_
    cases next with
    | inl c => exact .ret _ fun s hs => ⟨hs.2, fun c hc => by cases hc⟩
    | inr c =>
      refine .ret _ fun s hs => ⟨hs.1, fun c' hc => ?_⟩
      rw [← Option.some.inj hc]
      exact hs.2
  · rw [← Option.some.inj hc]
    exact ⟨hstart, hout⟩

theorem cachedCore_spec (level : Nat) (cube : StateCube) :
    Program.Triple (At Good frames) (cachedCore Q level cube) fun core s =>
      At Good frames s ∧ ∀ c, core = some c → M.Blocks frames level c := by
  refine Program.Triple.known (@ask_spec _ _ Good frames
    (fun frames => Q.cachedPredecessorUnsatCoreForCube frames (level - 1) cube true) _
    (hQ.core frames (level - 1) cube)) fun found hfound => ?_
  cases found with
  | none => exact .ret _ fun s hs => ⟨hs, fun c hc => by cases hc⟩
  | some core =>
    refine .ite (fun _ => .ret _ fun s hs => ⟨hs, fun c hc => by cases hc⟩) fun _ => ?_
    refine (growCoreOutsideInit_spec hQ core cube).weaken fun grown s hs =>
      ⟨hs.1, fun c hc => ?_⟩
    obtain ⟨hgrown, hout⟩ := hs.2 c hc
    exact (hfound core rfl).blocks hgrown.1 hgrown.2 hout

theorem generalize_spec (level : Nat) (reduced : StateCube) :
    Program.Triple (At Good frames) (generalize Q level reduced) fun result s =>
      At Good frames s ∧ ∀ c, result = some c → M.Blocks frames level c := by
  have hnone : Program.Triple (At Good frames)
      (pure none : PdrProgram κ (Option StateCube)) fun result s =>
        At Good frames s ∧ ∀ c, result = some c → M.Blocks frames level c :=
    .ret _ fun s hs => ⟨hs, fun c hc => by cases hc⟩
  refine .ite (fun _ => hnone) fun _ => intersectsInit_then hQ (fun _ => hnone) fun hout =>
    findPredecessorCube_then hQ fun outcome flag hstep _ => .ite (fun _ => hnone) fun hgo => ?_
  obtain ⟨hflag, hpredecessor⟩ : flag = false ∧ outcome.hasPredecessor = false := by
    simpa using hgo
  have hreduced : M.Blocks frames level reduced := ⟨hout, hstep hflag hpredecessor⟩
  refine (cachedCore_spec hQ level reduced).known fun core hcore => ?_
  cases core with
  | some core => exact .ret _ fun s hs => ⟨hs, hcore⟩
  | none =>
    refine .ret _ fun s hs => ⟨hs, fun c hc => ?_⟩
    rw [← Option.some.inj hc]
    exact hreduced

theorem tryWithoutLiteral_spec (level : Nat) (literal : CubeLiteral) (generalized : StateCube) :
    Program.Triple (fun s => M.Blocks frames level generalized ∧ At Good frames s)
      (tryWithoutLiteral Q level literal generalized)
      (Sum.elim (fun c s => M.Blocks frames level c ∧ At Good frames s)
        fun c s => M.Blocks frames level c ∧ At Good frames s) := by
  refine .assume fun hblocks => .ite (fun _ => .ret _ fun s hs => ⟨hblocks, hs⟩) fun _ =>
    .ite (fun _ => .ret _ fun s hs => ⟨hblocks, hs⟩) fun _ =>
      (generalize_spec hQ level _).known fun result hresult => hasPdrBudgetExhaustion_spec.bind
        fun flag => .ite (fun _ => .ret _ fun s hs => ⟨hblocks, hs.1⟩) fun _ =>
          .ret _ fun s hs => ⟨?_, hs.1⟩
  cases result with
  | none => exact hblocks
  | some c => exact hresult c rfl

/-- A cube that can be excluded is generalized to one that can be. -/
theorem generalizeBlockedCube_spec {level : Nat} {cube : StateCube}
    (hcube : M.Blocks frames level cube) :
    Program.Triple (At Good frames) (generalizeBlockedCube Q level cube) fun generalized s =>
      At Good frames s ∧ M.Blocks frames level generalized := by
  refine (cachedCore_spec hQ level cube).known fun core hcore => ?_
  have hstart : M.Blocks frames level (core.getD cube) := by
    cases core with
    | none => exact hcube
    | some c => exact hcore c rfl
  refine ((Program.Triple.scan (fun literal _ generalized =>
    tryWithoutLiteral_spec hQ level literal generalized) _).strengthen
      fun s hs => ⟨hstart, hs⟩).bind fun next => ?_
  have hnext : ∀ s, Sum.elim (fun c s => M.Blocks frames level c ∧ At Good frames s)
      (fun c s => M.Blocks frames level c ∧ At Good frames s) next s →
      M.Blocks frames level (next.elim id id) ∧ At Good frames s := by
    intro s hs
    cases next <;> exact hs
  refine Program.Triple.strengthen (.assume fun hblocks => ?_) hnext
  refine Program.Triple.bind (Q := fun _ s => At Good frames s) (.modify fun s hs => ?_)
    fun _ => .ret _ fun s hs => ⟨hs, hblocks⟩
  exact ⟨hs.1, hQ.retire _ _ hs.2⟩

theorem dropInitExcludedLiterals_spec (attempts index : Nat) {candidate : StateCube}
    (hout : M.Outside candidate) :
    Program.Triple (At Good frames) (dropInitExcludedLiterals Q attempts index candidate)
      fun c s => At Good frames s ∧ M.Outside c := by
  induction attempts generalizing index candidate with
  | zero => exact .ret _ fun s hs => ⟨hs, hout⟩
  | succ attempts ih =>
    exact .ite (fun _ => .ret _ fun s hs => ⟨hs, hout⟩) fun _ =>
      intersectsInit_then hQ (fun _ => ih (index + 1) hout) fun hout' => ih index hout'

end Queries

/-! ## Blocking -/

/-- The frames are right, and the caches know them. -/
structure Inv (M : PdrMeaning) (Good : κ → List FrameClauses → Prop) (H : Valuation → Prop)
    (top searched : Nat) (s : PdrState κ) : Prop where
  frames : M.FramesOk H top searched s.frames
  good : Good s.context.caches s.frames

section Blocking
variable {top searched : Nat}

/-- What holds for any fixed frames. -/
theorem Inv.fix {prog : PdrProgram κ α} {R : α → PdrState κ → Prop}
    (h : ∀ frames, M.FramesOk H top searched frames → Program.Triple (At Good frames) prog R) :
    Program.Triple (Inv M Good H top searched) prog R :=
  fun s hs => h s.frames hs.frames s ⟨rfl, hs.good⟩

theorem Inv.of_at {s : PdrState κ} (hframes : M.FramesOk H top searched frames)
    (hs : At Good frames s) : Inv M Good H top searched s := by
  obtain ⟨rfl, hgood⟩ := hs
  exact ⟨hframes, hgood⟩

variable (hQ : Q.Right M Good) (hstart : ∀ v, M.system.init v → M.J v ∧ M.Safe v)

include hQ

/-- New frames that say more. -/
theorem Inv.change {change : List FrameClauses → List FrameClauses}
    (hframes : M.FramesOk H top searched (change frames))
    (hF : ∀ i v, FrameHolds (change frames) i v → FrameHolds frames i v) :
    Program.Triple (At Good frames) (changeFrames change) fun _ s =>
      Inv M Good H top searched s := by
  refine changeFrames_spec ?_
  rintro s ⟨rfl, hgood⟩
  exact ⟨hframes, hQ.grows _ _ _ hframes.kept hF hgood⟩

/-- The level of a learned clause is one at which its cube can be excluded. -/
theorem liftBlocker_spec {cube : StateCube} (levels : Nat) {level : Nat}
    (hblocks : M.Blocks frames level cube) :
    Program.Triple (At Good frames) (liftBlocker Q cube levels level) fun learned s =>
      At Good frames s ∧ M.Blocks frames learned cube ∧ level ≤ learned ∧
        learned ≤ level + levels := by
  induction levels generalizing level with
  | zero => exact .ret _ fun s hs => ⟨hs, hblocks, Nat.le_refl _, Nat.le_refl _⟩
  | succ levels ih =>
    refine findPredecessorCube_then hQ fun outcome flag hstep _ => .ite
      (fun _ => .ret _ fun s hs => ⟨hs, hblocks, Nat.le_refl _, by omega⟩) fun hgo => ?_
    obtain ⟨hflag, hpredecessor⟩ : flag = false ∧ outcome.hasPredecessor = false := by
      simpa using hgo
    have hnext : M.Blocks frames (level + 1) cube :=
      ⟨hblocks.start, hstep hflag hpredecessor⟩
    refine (ih hnext).weaken fun learned s hs => ?_
    obtain ⟨hat, hlearned, hle, hle'⟩ := hs
    exact ⟨hat, hlearned, by omega, by omega⟩

include hstart

/-- A blocked obligation excludes its cube and more. -/
theorem learnBlockedObligation_spec (hframes : M.FramesOk H top searched frames)
    {obligation : ProofObligation} (h0 : 0 < obligation.level) (hlevel : obligation.level ≤ top)
    (hblocks : M.Blocks frames obligation.level obligation.cube) :
    Program.Triple (At Good frames) (learnBlockedObligation Q top obligation) fun _ s =>
      Inv M Good H top searched s := by
  refine (generalizeBlockedCube_spec hQ hblocks).known fun cube hcube =>
    (liftBlocker_spec hQ _ hcube).known fun learned hlearned => ?_
  obtain ⟨hblocks, hle, hle'⟩ := hlearned
  refine Inv.change hQ (hframes.block hstart hblocks (by omega) (by omega)) fun i v hv => ?_
  exact ((frameHolds_addClauseToFrames hframes.kept (by rw [hframes.length]; omega) i v).mp hv).1

variable {initFacts : InitFactIndex}
  (hfacts : ∀ cube conflict, initFacts.knownInitConflictCube cube = some conflict →
    M.Outside conflict)

include hfacts

omit hstart in
theorem excludeFromInit_spec (hframes : M.FramesOk H top searched frames)
    (obligation : ProofObligation) :
    Program.Triple (At Good frames) (excludeFromInit Q initFacts obligation) fun bad s =>
      Inv M Good H top searched s ∧
        ∀ badFrame, bad = some badFrame →
          badFrame = obligation.badFrame ∧ M.Meets obligation.cube := by
  have hchange : ∀ cube, M.Outside cube → Program.Triple (At Good frames)
      (changeFrames (addClauseAt 0 (clauseFromCube cube))) fun _ s =>
        Inv M Good H top searched s := by
    intro cube hcube
    refine Inv.change hQ (hframes.restrict hcube) fun i v hv => ?_
    exact ((frameHolds_addClauseAt hframes.kept (by rw [hframes.length]; omega) i v).mp hv).1
  unfold excludeFromInit
  cases hconflict : initFacts.knownInitConflictCube obligation.cube with
  | some conflict =>
    refine (hchange conflict (hfacts _ _ hconflict)).bind fun _ => .ret _ fun s hs => ⟨hs, ?_⟩
    intro badFrame heq
    cases heq
  | none =>
    refine intersectsInit_then hQ
      (fun hmeets => .ret _ fun s hs => ⟨.of_at hframes hs, fun badFrame heq => ?_⟩)
      fun hout => (dropInitExcludedLiterals_spec hQ _ 0 hout).known fun cube hcube =>
        (hchange cube hcube).bind fun _ => .ret _ fun s hs => ⟨hs, fun badFrame heq => ?_⟩
    · exact ⟨(Option.some.inj heq).symm, hmeets⟩
    · cases heq

/-- What the loop over the queue ends with. -/
def Blocked (M : PdrMeaning) (Good : κ → List FrameClauses → Prop) (H : Valuation → Prop)
    (top searched : Nat) (bad : Option Nat) (s : PdrState κ) : Prop :=
  Inv M Good H top searched s ∧ ∀ badFrame, bad = some badFrame → M.Counterexample badFrame

omit hQ hstart hfacts in
theorem Blocked.none {s : PdrState κ} (hs : Inv M Good H top searched s) :
    Blocked M Good H top searched none s := ⟨hs, fun badFrame heq => by cases heq⟩

/-- One turn of the loop over the queue. -/
def Turn (M : PdrMeaning) (Good : κ → List FrameClauses → Prop) (H : Valuation → Prop)
    (top searched : Nat) : ProofObligationQueue ⊕ Option Nat → PdrState κ → Prop :=
  Sum.elim (fun queue s => M.QueueOk top queue ∧ Inv M Good H top searched s)
    (Blocked M Good H top searched)

omit hfacts in
/-- An obligation above level 0: a failing run, one more obligation, or a new clause. -/
theorem blockObligation_spec (hframes : M.FramesOk H top searched frames)
    {obligation : ProofObligation} {queue : ProofObligationQueue}
    (hobligation : M.ObligationOk top obligation) (hqueue : M.QueueOk top queue)
    (h0 : 0 < obligation.level) :
    Program.Triple (At Good frames) (blockObligation Q top obligation queue)
      (Turn M Good H top searched) := by
  have hbad := hobligation.badFrame
  have hlevel := hobligation.level
  refine intersectsInit_then hQ
    (fun hmeets => .ret _ fun s hs => ⟨.of_at hframes hs, fun badFrame heq => ?_⟩) fun hout =>
      findPredecessorCube_then hQ fun outcome flag hstep hleads => .ite
        (fun _ => .ret _ fun s hs => .none (.of_at hframes hs)) fun hflag => .ite (fun _ => ?_)
          fun hpredecessor => ?_
  · rw [← Option.some.inj heq]
    exact ⟨_, _, hobligation.leads, hmeets, Nat.sub_le _ _⟩
  · cases hcube : outcome.predecessor with
    | none => exact .stop _
    | some cube =>
      refine .ret _ fun s hs => ⟨(hqueue.enqueue hobligation).enqueue
        ⟨by dsimp only; omega, by dsimp only; omega, ?_⟩, .of_at hframes hs⟩
      dsimp only
      rw [show obligation.badFrame - (obligation.level - 1) =
        obligation.badFrame - obligation.level + 1 by omega]
      exact hleads cube _ hcube hobligation.leads
  · have hblocks : M.Blocks frames obligation.level obligation.cube :=
      ⟨hout, hstep (Bool.not_eq_true _ ▸ hflag) (Bool.not_eq_true _ ▸ hpredecessor)⟩
    exact (learnBlockedObligation_spec hQ hstart hframes h0 hlevel hblocks).bind fun _ =>
      hasPdrBudgetExhaustion_spec.bind fun flag => .ite (fun _ => .ret _ fun s hs => .none hs.1)
        fun _ => .ret _ fun s hs => ⟨hqueue.enqueueNext hobligation, hs.1⟩

theorem processObligation_spec (queue : ProofObligationQueue) :
    Program.Triple (fun s => M.QueueOk top queue ∧ Inv M Good H top searched s)
      (processObligation Q initFacts top queue) (Turn M Good H top searched) := by
  refine .assume fun hqueue => ?_
  unfold processObligation
  cases hpop : queue.pop with
  | none => exact .ret _ fun s hs => .none hs
  | some popped =>
    obtain ⟨obligation, rest⟩ := popped
    obtain ⟨hobligation, hrest⟩ := hqueue.pop hpop
    refine Program.Triple.get.bind fun s0 => .ite (fun _ => .ret _ fun s hs => ⟨hrest, hs.1⟩)
      fun _ => .ite (fun h0 => ?_) fun hne => ?_
    · refine Program.Triple.strengthen (Inv.fix fun frames hframes => ?_) fun s hs => hs.1
      refine (excludeFromInit_spec hQ hfacts hframes obligation).known fun bad hbad => ?_
      cases bad with
      | none => exact .ret _ fun s hs => ⟨hrest, hs⟩
      | some badFrame =>
        refine .ret _ fun s hs => ⟨hs, fun badFrame' heq => ?_⟩
        obtain ⟨rfl, hmeets⟩ := hbad badFrame rfl
        rw [← Option.some.inj heq]
        exact ⟨_, _, hobligation.leads, hmeets, Nat.sub_le _ _⟩
    · refine Program.Triple.strengthen (Inv.fix fun frames hframes => ?_) fun s hs => hs.1
      exact blockObligation_spec hQ hstart hframes hobligation hrest (Nat.pos_of_ne_zero hne)

/-- Blocking keeps the frames right, and a frame that it reports is that of a failing run. -/
theorem blockProofObligations_spec (fuel : Nat) (cube : StateCube) (hcube : M.Leads 0 cube) :
    Program.Triple (Inv M Good H top searched)
      (blockProofObligations Q initFacts fuel cube top) (Blocked M Good H top searched) := by
  have hqueue : M.QueueOk top (({} : ProofObligationQueue).enqueue
      { cube, level := top, badFrame := top }) := by
    have hempty : M.QueueOk top {} := fun o ho => absurd ho List.not_mem_nil
    refine hempty.enqueue ⟨Nat.le_refl _, Nat.le_refl _, ?_⟩
    dsimp only
    rwa [Nat.sub_self]
  exact (Program.Triple.iterate (fun queue => processObligation_spec hQ hstart hfacts queue)
    fuel _).strengthen fun s hs => ⟨hqueue, hs⟩

end Blocking

/-! ## Propagation -/

section Propagation
variable {top searched level : Nat} (hQ : Q.Right M Good)

/-- The clauses of a level as it was still hold in it. -/
def Snapshot (level : Nat) (clauses : List StateClause) (s : PdrState κ) : Prop :=
  ∀ clause ∈ clauses, ∀ v, FrameHolds s.frames level v → ClauseHolds (lit v) clause

include hQ

theorem propagateClause_spec (hlevel : level < top) {clauses : List StateClause}
    {clause : StateClause} (hmem : clause ∈ clauses) :
    Program.Triple (fun s => Inv M Good H top searched s ∧ Snapshot level clauses s)
      (propagateClause Q level clause ()) fun _ s =>
        Inv M Good H top searched s ∧ Snapshot level clauses s := by
  rintro s0 ⟨hinv, hsnapshot⟩
  have hframes := hinv.frames
  have hkeep : ∀ s, At Good s0.frames s →
      Inv M Good H top searched s ∧ Snapshot level clauses s := by
    intro s hs
    refine ⟨.of_at hframes hs, ?_⟩
    rw [Snapshot, hs.1]
    exact hsnapshot
  suffices htriple : Program.Triple (At Good s0.frames) (propagateClause Q level clause ())
      fun _ s => Inv M Good H top searched s ∧ Snapshot level clauses s from
    htriple s0 ⟨rfl, hinv.good⟩
  refine Program.Triple.get.bind fun _ => Program.Triple.strengthen (.ite
    (fun _ => .ret _ hkeep) fun _ => findPredecessorCube_then hQ fun outcome flag hstep _ => .ite
      (fun _ => ?_) fun hflag => .ite (fun _ => .ret _ hkeep) fun hpredecessor => ?_)
        fun s hs => hs.1
  · refine Program.Triple.bind (Q := fun _ s => At Good s0.frames s)
      (Program.Triple.get.bind fun _ => .ret _ fun s hs => hs.1) fun flag => .ite
        (fun _ => .ret _ hkeep) fun _ => ?_
    refine Program.Triple.bind (Q := fun _ s => At Good s0.frames s)
      (.modify fun s hs => hs) fun _ => .ret _ hkeep
  · have hrel := hstep (Bool.not_eq_true _ ▸ hflag) (Bool.not_eq_true _ ▸ hpredecessor)
    have hnew := hframes.push (hsnapshot clause hmem) hrel hlevel
    have hF : ∀ i v, FrameHolds (addClauseAt (level + 1) clause s0.frames) i v →
        FrameHolds s0.frames i v := fun i v hv =>
      ((frameHolds_addClauseAt hframes.kept (by rw [hframes.length]; omega) i v).mp hv).1
    refine Program.Triple.bind (Q := fun _ s =>
      Inv M Good H top searched s ∧ Snapshot level clauses s) (changeFrames_spec ?_)
        fun _ => .ret _ fun s hs => hs
    rintro s ⟨hs, hgood⟩
    dsimp only [Snapshot]
    rw [hs]
    exact ⟨⟨hnew, hQ.grows _ _ _ hnew.kept hF hgood⟩,
      fun c hc v hv => hsnapshot c hc v (hF level v hv)⟩

theorem propagateLevel_spec (hlevel : level < top) :
    Program.Triple (Inv M Good H top searched) (propagateLevel Q level ()) fun _ s =>
      Inv M Good H top searched s := by
  intro s0 hs0
  suffices htriple : Program.Triple (fun s => s = s0) (propagateLevel Q level ()) fun _ s =>
      Inv M Good H top searched s from htriple s0 rfl
  refine Program.Triple.get.bind fun s1 => ?_
  rintro s ⟨rfl, rfl⟩
  refine (((Program.Triple.scan (I := fun _ s =>
    Inv M Good H top searched s ∧ Snapshot level (frameAt s1.frames level).clauses s)
    (R := fun _ s => Inv M Good H top searched s) fun clause hmem _ =>
      (propagateClause_spec hQ hlevel hmem).weaken fun next s hs => ?_) ()).weaken
        fun next s hs => ?_) s1 ⟨hs0, fun clause hmem v hv => hv clause hmem⟩
  · cases next with
    | inl a => exact hs
    | inr b => exact hs.1
  · cases next with
    | inl a => exact hs.1
    | inr b => exact hs

/-- Pushing keeps the frames right. -/
theorem propagateClauses_spec {maxLevel : Nat} (hmax : maxLevel < top) :
    Program.Triple (Inv M Good H top searched) (propagateClauses Q maxLevel) fun _ s =>
      Inv M Good H top searched s := by
  refine Program.Triple.bind (Q := fun _ s => Inv M Good H top searched s)
    (((Program.Triple.scan (I := fun _ s => Inv M Good H top searched s)
      (R := fun _ s => Inv M Good H top searched s) fun level hmem _ => ?_) ()).weaken
        fun next s hs => ?_) fun _ => .ret _ fun s hs => hs
  · have hrange := List.mem_range'_1.mp hmem
    refine (propagateLevel_spec hQ (by omega)).weaken fun next s hs => ?_
    cases next <;> exact hs
  · cases next <;> exact hs

end Propagation

/-! ## The frame loop -/

/-- A result is right, and the caches are what the queries left. -/
def Ended (M : PdrMeaning) (Good : κ → List FrameClauses → Prop) (hasStates : Bool)
    (result : PDRResult) (s : PdrState κ) : Prop :=
  M.ResultOk hasStates result ∧ ∃ frames, Good s.context.caches frames

/-- What the search of a level ends with: the level has no unsafe state, or the run a result. -/
def Searched (M : PdrMeaning) (Good : κ → List FrameClauses → Prop) (H : Valuation → Prop)
    (hasStates : Bool) (level : Nat) : Option PDRResult → PdrState κ → Prop
  | none, s => Inv M Good H level (level + 1) s
  | some result, s => Ended M Good hasStates result s

section FrameLoop
variable (hQ : Q.Right M Good) (hJ : M.system.Inductive M.J)
  (hsafe : ∀ v, M.system.init v → M.Safe v) {initFacts : InitFactIndex}
  (hfacts : ∀ cube conflict, initFacts.knownInitConflictCube cube = some conflict →
    M.Outside conflict)

include hQ hJ hsafe hfacts

/-- A level is searched, or the run has a result. -/
theorem blockBadCube_spec (hasStates : Bool) (fuel : Nat) {level : Nat} (h0 : 0 < level) :
    Program.Triple (Inv M Good H level level) (blockBadCube Q initFacts fuel level ())
      (Sum.elim (fun _ => Inv M Good H level level) (Searched M Good H hasStates level)) := by
  have hinconclusive : ∀ s, Inv M Good H level level s →
      Ended M Good hasStates ⟨.inconclusive, level⟩ s := fun s hs =>
    ⟨.of_inconclusive (hs.frames.safeBelow hJ hsafe (Nat.le_refl _) (Nat.le_refl _)), _, hs.good⟩
  refine Inv.fix fun frames hframes => ?_
  refine (findBadCube_spec hQ level).bind fun badCube => hasPdrBudgetExhaustion_spec.bind
    fun flag => .ite (fun _ => .ret _ fun s hs => hinconclusive s (.of_at hframes hs.1.1))
      fun hflag => ?_
  cases badCube with
  | none =>
    refine .ret _ fun s hs => ⟨?_, hs.1.1.1 ▸ hs.1.1.2⟩
    have hnone := hs.1.2.1 rfl (hs.2 (Bool.not_eq_true _ ▸ hflag))
    rw [hs.1.1.1]
    refine ⟨hframes.length, hframes.kept, hframes.seq, fun i hi hlt v hv hj => ?_, hframes.reused⟩
    rcases Nat.eq_or_lt_of_le (Nat.le_of_lt_succ hlt) with rfl | hlt
    · exact hnone v ⟨hv, fun heq => by omega, fun _ => hj⟩
    · exact hframes.safe i hi hlt v hv hj
  | some cube =>
    intro s hs
    have hcube := (hs.1.2.2 cube rfl).1
    refine (?_ : Program.Triple (Inv M Good H level level) _ _) s (.of_at hframes hs.1.1)
    refine (blockProofObligations_spec hQ (fun v hv => ⟨hJ.init v hv, hsafe v hv⟩) hfacts fuel cube
      hcube).bind fun bad => ?_
    cases bad with
    | some badFrame =>
      exact hasPdrBudgetExhaustion_spec.bind fun flag => .ite
        (fun _ => .ret _ fun s hs => hinconclusive s hs.1.1) fun _ => .ret _ fun s hs =>
          ⟨.of_different (.inr (hs.1.2 badFrame rfl)), _, hs.1.1.good⟩
    | none =>
      exact hasPdrBudgetExhaustion_spec.bind fun flag => .ite
        (fun _ => .ret _ fun s hs => hinconclusive s hs.1.1) fun _ => .ret _ fun s hs => hs.1.1

variable {sharedExactInit : Option PDRExactInitCache}
  (hreusable : M.system.Inductive (ReusableHolds sharedExactInit))

include hreusable

theorem exploreLevel_spec (hasStates : Bool) (fuel : Nat) {level : Nat} (h0 : 0 < level) :
    Program.Triple (Inv M Good (ReusableHolds sharedExactInit) level level)
      (exploreLevel Q initFacts sharedExactInit fuel level ())
      (Sum.elim (fun _ => Inv M Good (ReusableHolds sharedExactInit) (level + 1) (level + 1))
        (Ended M Good hasStates)) := by
  refine Program.Triple.bind (Program.Triple.iterate
    (I := fun _ s => Inv M Good (ReusableHolds sharedExactInit) level level s)
    (fun _ => blockBadCube_spec hQ hJ hsafe hfacts hasStates fuel h0) fuel ()) fun result => ?_
  cases result with
  | some r => exact .ret _ fun s hs => hs
  | none =>
    refine Program.Triple.bind
      (Q := fun _ s => Inv M Good (ReusableHolds sharedExactInit) (level + 1) (level + 1) s)
      (changeFrames_spec fun s hs => ⟨hs.frames.extend hreusable, ?_⟩) fun _ =>
      (propagateClauses_spec hQ (Nat.lt_succ_self level)).bind fun _ =>
        hasPdrBudgetExhaustion_spec.bind fun flag => .ite
          (fun _ => .ret _ fun s hs => ⟨.of_inconclusive ?_, _, hs.1.good⟩) fun _ =>
            Program.Triple.get.bind fun s1 => ?_
    · exact hQ.grows _ _ _ (hs.frames.kept.push _)
        (fun i v hv => ((frameHolds_push sharedExactInit i v).mp hv).1) hs.good
    · exact hs.1.frames.safeBelow hJ hsafe (Nat.le_succ _) (Nat.le_succ _)
    · cases hconv : convergenceLevel s1.frames level with
      | none => exact .ret _ fun s hs => hs.1.1
      | some i =>
        refine .ret _ fun s hs => ⟨.of_equivalent hsafe fun _ => ?_, _, hs.1.1.good⟩
        unfold convergenceLevel at hconv
        have hrange := List.mem_range'_1.mp (List.mem_of_find?_eq_some hconv)
        have hagree := List.find?_some hconv
        obtain ⟨⟨hinv, _⟩, rfl⟩ := hs
        exact hinv.frames.converged hJ hsafe (by omega) (by omega) hagree

omit hsafe in
/-- The result of a run is right. -/
theorem explore_spec (hasStates : Bool) (fuel maxFrames : Nat) :
    Program.Triple (At Good [{ clauses := [], addedClauseLog := [] }])
      (explore Q initFacts sharedExactInit hasStates fuel maxFrames) (Ended M Good hasStates) := by
  have hempty : ∀ i v, FrameHolds [{ clauses := [], addedClauseLog := [] }] i v := by
    intro i v clause hclause
    cases i <;> exact absurd hclause List.not_mem_nil
  refine (findBadCube_spec hQ 0).bind fun badCube => .ite (fun hsome => .ret _ fun s hs => ?_)
    fun hnone => hasPdrBudgetExhaustion_spec.bind fun flag => .ite
      (fun _ => .ret _ fun s hs => ⟨.of_inconclusive M.safeBelow_zero, _, hs.1.1.2⟩)
      fun hflag s hs => ?_
  · obtain ⟨cube, rfl⟩ := Option.isSome_iff_exists.mp hsome
    exact ⟨.of_different (.inl ⟨rfl, (hs.2.2 cube rfl).2 rfl⟩), _, hs.1.2⟩
  have hsafe : ∀ v, M.system.init v → M.Safe v := fun v hv =>
    hs.1.2.1 (by simpa using hnone) (hs.2 (Bool.not_eq_true _ ▸ hflag)) v
      ⟨hempty 0 v, fun _ => hv, fun hlt => absurd hlt (Nat.lt_irrefl 0)⟩
  refine (?_ : Program.Triple (At Good [{ clauses := [], addedClauseLog := [] }]) _ _) s hs.1.1
  refine .ite (fun hstates => .ret _ fun s hs => ?_) fun _ => .ite
    (fun _ => .ret _ fun s hs => ⟨.of_inconclusive M.safeBelow_zero, _, hs.2⟩) fun _ => ?_
  · have hfalse : hasStates = false := by simpa using hstates
    refine ⟨.of_equivalent hsafe fun htrue => ?_, _, hs.2⟩
    rw [hfalse] at htrue
    cases htrue
  · refine Program.Triple.bind (Q := fun _ s => Inv M Good (ReusableHolds sharedExactInit) 1 1 s)
      (changeFrames_spec ?_) fun _ => (Program.Triple.scanRange
        (I := fun level s => Inv M Good (ReusableHolds sharedExactInit) level level s)
        fun level h1 _ => exploreLevel_spec hQ hJ hsafe hfacts hreusable hasStates fuel
          h1).bind fun next => ?_
    · rintro s ⟨hs, hgood⟩
      have hzero : M.FramesOk (ReusableHolds sharedExactInit) 0 1
          [{ clauses := [], addedClauseLog := [] }] := by
        refine ⟨rfl, fun frame hframe => ?_, LTS.frameSeq_zero fun i v _ => hempty i v,
          fun i h0 h1 => by omega, fun i h0 h1 => by omega⟩
        rw [List.mem_singleton.mp hframe]
        exact ⟨[], [], frameInv_empty⟩
      rw [hs]
      exact ⟨hzero.extend hreusable,
        hQ.grows _ _ _ (hzero.kept.push _) (fun i v _ => hempty i v) hgood⟩
    · cases next with
      | inr result => exact .ret _ fun s hs => hs
      | inl a =>
        refine .ret _ fun s hs => ⟨.of_inconclusive ?_, _, hs.good⟩
        exact hs.frames.safeBelow hJ hsafe (by omega) (by omega)

end FrameLoop

end PDREngine

end KeplerFormal
