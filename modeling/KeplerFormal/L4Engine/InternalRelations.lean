import Mathlib.Data.Finset.Card
import Mathlib.Data.Finset.Union
import KeplerFormal.L2Problem.System

/-!
# Internal relations (`src/sec/proof/InternalRelations.cpp`)

`proveInternalRelations` keeps the candidates whose equalities hold at boot, then
repeats rounds of induction queries: every active equality is merged into the
current-frame literals, each partition of the active candidates is checked under
the whole merge, and candidates that are refuted or undecided are dropped. Only a
round that drops nothing is a certificate.

* `lit_mergeActive`: in a frame where the active equalities hold, merging changes no
  literal's value, whatever order and overlap the pairs have.
* `solvePartition_certifies`, `solvePartitions_certify`: what a partition and a round
  without refutation prove.
* `proveInternalRelations_sound`: every returned pair is equal in every reachable
  state.
-/
namespace KeplerFormal

open Core

structure InternalRelationOptions where
  learnInternalRelations : Bool := true
  allowXEqualityInInternalRelations : Bool := true

/-- A candidate about the state symbols of `p`.
mirrors src/sec/proof/InternalRelations.h:26-30 -/
structure InternalRelationCandidate (p : KInductionProblem) where
  equalities : List (Nat × Nat)
  values : List DualRailSymbolPair

/-- "A candidate relates complete values": its value pairs are rail pairs of the problem. -/
def InternalRelationCandidate.Complete {p : KInductionProblem} (c : InternalRelationCandidate p) :
    Prop := ∀ v ∈ c.values, v ∈ p.dualRailStatePairs

/-- Substitution of the leaf symbols, as `FrameFormulaEncoder::mappedSymbol` does it.
mirrors src/sec/kinduction/SatEncoding.cpp:358-376 -/
def BoolExpr.mapSymbols (f : Nat → Nat) : BoolExpr → BoolExpr
  | .var 0 => .var 0
  | .var 1 => .var 1
  | .var (n + 2) => .var (f (n + 2))
  | .and a b => .and (a.mapSymbols f) (b.mapSymbols f)
  | .or a b => .or (a.mapSymbols f) (b.mapSymbols f)
  | .not a => .not (a.mapSymbols f)
  | .xor a b => .xor (a.mapSymbols f) (b.mapSymbols f)

theorem BoolExpr.eval_mapSymbols (f : Nat → Nat) (σ : Valuation) (e : BoolExpr) :
    (e.mapSymbols f).eval σ = e.eval fun s => lit σ (f s) := by
  induction e with
  | var id =>
    match id with
    | 0 => rfl
    | 1 => rfl
    | n + 2 => rfl
  | and a b iha ihb => simp only [mapSymbols, eval, iha, ihb]
  | or a b iha ihb => simp only [mapSymbols, eval, iha, ihb]
  | not a ih => simp only [mapSymbols, eval, ih]
  | xor a b iha ihb => simp only [mapSymbols, eval, iha, ihb]

/-- The distinct nodes of the DAG. -/
def BoolExpr.nodes : BoolExpr → Finset BoolExpr
  | .var id => {.var id}
  | .and a b => insert (.and a b) (a.nodes ∪ b.nodes)
  | .or a b => insert (.or a b) (a.nodes ∪ b.nodes)
  | .not a => insert (.not a) a.nodes
  | .xor a b => insert (.xor a b) (a.nodes ∪ b.nodes)

namespace InternalRelations
variable {p : KInductionProblem}

abbrev Candidates (p : KInductionProblem) := List (InternalRelationCandidate p)

/-! ## Refutation by simulation -/

/-- The random words of one simulation: `std::mt19937_64` and the iteration order of
the hash maps decide which draw a symbol gets. -/
structure SimulationDraws where
  start : Nat → UInt64
  xRail : Nat → UInt64
  input : Nat → Nat → UInt64

/-- 64 patterns for each symbol that has a value. -/
abbrev Words := Nat → Option UInt64

def Words.set (state : Words) (s : Nat) (w : UInt64) : Words := Function.update state s (some w)

/-- mirrors src/sec/proof/InternalRelations.cpp:28-63 -/
def evaluateWords (leaf : Nat → UInt64) : BoolExpr → UInt64
  | .var 0 => 0
  | .var 1 => ~~~0
  | .var (n + 2) => leaf (n + 2)
  | .and a b => evaluateWords leaf a &&& evaluateWords leaf b
  | .or a b => evaluateWords leaf a ||| evaluateWords leaf b
  | .not a => ~~~(evaluateWords leaf a)
  | .xor a b => evaluateWords leaf a ^^^ evaluateWords leaf b

/-- mirrors src/sec/proof/InternalRelations.cpp:65-77 -/
def relationWord (c : InternalRelationCandidate p) (state : Words) (allowX : Bool) : UInt64 :=
  let at' s := (state s).getD 0
  let equal := c.equalities.foldl (fun w pr => w &&& ~~~(at' pr.1 ^^^ at' pr.2)) (~~~0)
  if allowX then equal
  else c.values.foldl (fun w v => w &&& (at' v.mayBeOne ^^^ at' v.mayBeZero)) equal

/-- A relation over a symbol without a word makes the code throw; here that word is zero.
mirrors src/sec/proof/InternalRelations.cpp:90-105 -/
def simulationStart (active : Candidates p) (allowX : Bool) (draws : SimulationDraws)
    (counterexample : List (Nat × Bool)) : Words :=
  let at' (state : Words) s := (state s).getD 0
  let state : Words := p.allSymbols.foldl (fun state s => state.set s (draws.start s)) fun _ => none
  let state := p.dualRailStatePairs.foldl (fun state v =>
    state.set v.mayBeZero (~~~(at' state v.mayBeOne) |||
      (if allowX then draws.xRail v.mayBeZero else 0))) state
  let state := counterexample.foldl (fun state a =>
    state.set a.1 ((at' state a.1 &&& ~~~1) ||| (if a.2 then 1 else 0))) state
  active.foldl (fun state c =>
    c.equalities.foldl (fun state pr => state.set pr.2 (at' state pr.1)) state) state

/-- mirrors src/sec/proof/InternalRelations.cpp:117-126 -/
def simulationNext (active : Candidates p) (draws : SimulationDraws) (step : Nat)
    (state : Words) : Words :=
  let leaf s := (state s).getD (draws.input step s)
  let next : Words := fun s => if s ∈ p.combinedStateSymbols then state s else none
  active.foldl (fun next c => c.equalities.foldl (fun next pr =>
    [pr.1, pr.2].foldl (fun next s => match p.transitionAt s with
      | some e => next.set s (evaluateWords leaf e)
      | none => next) next) next) next

/-- mirrors src/sec/proof/InternalRelations.cpp:115-142 -/
def simulate (active : Candidates p) (allowX : Bool) (draws : SimulationDraws) :
    Nat → Nat → UInt64 → Words → (Nat → Bool) → (Nat → Bool)
  | 0, _, _, _, refuted => refuted
  | fuel + 1, step, valid, state, refuted =>
    if valid = 0 then refuted
    else
      let next := simulationNext active draws step state
      let valid := p.dualRailStatePairs.foldl (fun w v =>
        w &&& ((next v.mayBeOne).getD 0 ||| (next v.mayBeZero).getD 0)) valid
      let failing i := match active[i]? with
        | some c => !refuted i && (~~~(relationWord c next allowX) &&& valid) != 0
        | none => false
      if (List.range active.length).any failing then
        simulate active allowX draws fuel (step + 1) valid next fun i => refuted i || failing i
      else refuted

/-- Only ever marks more candidates as refuted.
mirrors src/sec/proof/InternalRelations.cpp:83-144 -/
def refuteBySimulation (active : Candidates p) (allowX : Bool) (draws : SimulationDraws)
    (counterexample : List (Nat × Bool)) (refuted : Nat → Bool) : Nat → Bool :=
  let state := simulationStart active allowX draws counterexample
  let valid := active.foldl (fun w c => w &&& relationWord c state allowX) (~~~0)
  simulate active allowX draws 16 0 valid state refuted

/-! ## Queries -/

/-- `initial` keeps the first assignment of a symbol.
mirrors src/sec/proof/InternalRelations.cpp:159-178 -/
def baseHolds (c : InternalRelationCandidate p) (allowX : Bool) : Bool :=
  let initial s := p.initialStateAssignments.lookup s
  !c.equalities.isEmpty &&
  (c.equalities.all fun pr => (initial pr.1).isSome && initial pr.1 == initial pr.2 &&
    p.contains pr.1 && p.contains pr.2) &&
  (allowX || c.values.all fun v => match initial v.mayBeOne, initial v.mayBeZero with
    | some one, some zero => one != zero
    | _, _ => false)

/-- mirrors src/sec/proof/InternalRelations.cpp:184-207 -/
def exceedsLogicLimit (active : Candidates p) (limit : Nat) : Bool :=
  let counted := active.foldl (fun X c => X ∪ (c.equalities.foldl (fun X pr =>
    X ∪ ((p.transitionAt pr.1).elim ∅ BoolExpr.nodes ∪
      (p.transitionAt pr.2).elim ∅ BoolExpr.nodes)) ∅)) ∅
  decide (limit < counted.card)

/-- Both registers of a hypothesis share one current-frame literal. Symbols outside
`allSymbols` make the code throw; here they stay as they are.
mirrors src/sec/proof/InternalRelations.cpp:231-241 -/
def mergeActive (active : Candidates p) : Nat → Nat :=
  active.foldl (fun merged c =>
    c.equalities.foldl (fun merged pr => Function.update merged pr.2 (merged pr.1)) merged) id

/-- mirrors src/sec/proof/InternalRelations.cpp:256-276 -/
def relation (c : InternalRelationCandidate p) (allowX : Bool) : BoolExpr :=
  let equal := c.equalities.foldl (fun e pr =>
    BoolExpr.And e (BoolExpr.Not (BoolExpr.Xor (.var pr.1) (.var pr.2)))) BoolExpr.createTrue
  if allowX then equal
  else c.values.foldl (fun e v =>
    BoolExpr.And e (BoolExpr.Xor (.var v.mayBeOne) (.var v.mayBeZero))) equal

/-- A literal of the current frame, over the merged leaves. -/
def encodeCurrent (merged : Nat → Nat) (e : BoolExpr) : FrameLit := encode 0 (e.mapSymbols merged)

def encodeNext (e : BoolExpr) : FrameLit := encode 1 e

/-- A solver variable of its own. -/
def allTogether : FrameLit := getLiteral 2 2

/-- The merged leaves a formula creates in the current encoder. -/
def currentLeaves (merged : Nat → Nat) (e : BoolExpr) : List Nat :=
  (e.leaves.filter (2 ≤ ·)).map merged

def targets (part : Candidates p) : List Nat :=
  (part.flatMap fun c => c.equalities.flatMap fun pr => [pr.1, pr.2]).dedup

def formulaLeaves (part : Candidates p) (merged : Nat → Nat) (allowX : Bool) : List Nat :=
  ((targets part).flatMap fun s => (p.transitionAt s).elim [] (currentLeaves merged)) ++
    part.flatMap fun c => currentLeaves merged (relation c allowX)

/-- The rail pairs with a rail among the leaves; such a pair then adds both of its
rails. Returns the leaves at the end as well. -/
def coveredRails (merged : Nat → Nat) :
    List DualRailSymbolPair → List Nat → List DualRailSymbolPair × List Nat
  | [], leaves => ([], leaves)
  | v :: vs, leaves =>
    if merged v.mayBeOne ∈ leaves ∨ merged v.mayBeZero ∈ leaves then
      let (covered, leaves) :=
        coveredRails merged vs (merged v.mayBeOne :: merged v.mayBeZero :: leaves)
      (v :: covered, leaves)
    else coveredRails merged vs leaves

/-- The clauses of one partition.
mirrors src/sec/proof/InternalRelations.cpp:245-294 -/
def partitionQuery (part : Candidates p) (merged : Nat → Nat) (allowX : Bool) : FrameQuery :=
  let equations := (targets part).flatMap fun s => match p.transitionAt s with
    | some e => addLiteralEquivalence (encodeNext (.var s)) (encodeCurrent merged e)
    | none => []
  let hypotheses := part.map fun c => [encodeCurrent merged (relation c allowX)]
  let nextValid := part.flatMap fun c => c.values.map fun v =>
    [encodeNext (.var v.mayBeOne), encodeNext (.var v.mayBeZero)]
  let rails := (coveredRails merged p.dualRailStatePairs (formulaLeaves part merged allowX)).1
  let currentValid := rails.map fun v =>
    [encodeCurrent merged (.var v.mayBeOne), encodeCurrent merged (.var v.mayBeZero)]
  equations ++ hypotheses ++ nextValid ++ currentValid ++
    [part.map (fun c => (encodeNext (relation c allowX)).neg) ++ [allTogether.neg]]

/-- `leafLits()` of the current encoder, with the values of a model. -/
def leafValues (part : Candidates p) (merged : Nat → Nat) (allowX : Bool) (m : Trace) :
    List (Nat × Bool) :=
  (coveredRails merged p.dualRailStatePairs (formulaLeaves part merged allowX)).2.map
    fun s => (s, lit (m 0) s)

/-! ## Rounds -/

def batchLimits : SolveLimits := ⟨some 10000, some 100000, some 1000000⟩

def pairLimits : SolveLimits := ⟨some 1000, some 10000, some 100000⟩

section Rounds
variable {σ : Type} (S : FrameSolver σ)

/-- Every pair as its own obligation; anything but `Unsat` gives it up.
mirrors src/sec/proof/InternalRelations.cpp:300-307 -/
def solvePairs (q : FrameQuery) : σ → Nat → List FrameLit → (Nat → Bool) → (Nat → Bool) × σ
  | s, _, [], refuted => (refuted, s)
  | s, i, conclusion :: rest, refuted =>
    match S.solve s q [conclusion.neg] pairLimits with
    | (.unsat, s') => solvePairs q s' (i + 1) rest (Function.update refuted i false)
    | (_, s') => solvePairs q s' (i + 1) rest (Function.update refuted i true)

/-- One partition `active[first .. first + part.length)`.
mirrors src/sec/proof/InternalRelations.cpp:242-317 -/
def solvePartition (s : σ) (active part : Candidates p) (first : Nat) (allowX : Bool)
    (draws : SimulationDraws) (refuted : Nat → Bool) : (Nat → Bool) × σ :=
  let merged := mergeActive active
  let q := partitionQuery part merged allowX
  let conclusions := part.map fun c => encodeNext (relation c allowX)
  match S.solve s q [allTogether] batchLimits with
  | (.unsat, s') => (refuted, s')
  | (.unknown, s') => solvePairs S q s' first conclusions refuted
  | (.sat m, s') =>
    let refuted := refuteBySimulation active allowX draws
      (leafValues part merged allowX m) refuted
    (fun i => refuted i ||
      (decide (first ≤ i) && match conclusions[i - first]? with
        | some conclusion => !evalLit (evalAtom m) conclusion
        | none => false), s')

/-- The partitions of one round. The number of solver variables that the encoders
have used decides where a partition ends; `width` stands for it.
mirrors src/sec/proof/InternalRelations.cpp:242-317 -/
def solvePartitions (active : Candidates p) (allowX : Bool) (draws : SimulationDraws)
    (width : Nat → Nat) : Nat → σ → Nat → (Nat → Bool) → (Nat → Bool) × σ
  | 0, s, _, refuted => (refuted, s)
  | fuel + 1, s, first, refuted =>
    if active.length ≤ first then (refuted, s)
    else
      let part := (active.drop first).take (width first + 1)
      let (refuted, s) := solvePartition S s active part first allowX draws refuted
      solvePartitions active allowX draws width fuel s (first + part.length) refuted

def dropRefuted (active : Candidates p) (refuted : Nat → Bool) : Candidates p :=
  (active.zipIdx.filter fun c => !refuted c.2).map Prod.fst

/-- mirrors src/sec/proof/InternalRelations.cpp:228-325 -/
def refine (allowX : Bool) (draws : Nat → SimulationDraws) (width : Nat → Nat → Nat) :
    Nat → Nat → σ → Candidates p → Finset (Nat × Nat) × σ
  | 0, _, s, _ => (∅, s)
  | rounds + 1, round, s, active =>
    if active.isEmpty then (∅, s)
    else
      let (refuted, s) :=
        solvePartitions S active allowX (draws round) (width round) active.length s 0 fun _ => false
      if (List.range active.length).any refuted then
        refine allowX draws width rounds (round + 1) s (dropRefuted active refuted)
      else ((active.flatMap (·.equalities)).toFinset, s)

end Rounds

def kLogicNodeLimit : Nat := 2 ^ 23

/-- mirrors src/sec/proof/InternalRelations.cpp:147-326 -/
def proveInternalRelations {σ : Type} (S : FrameSolver σ) (s : σ) (p : KInductionProblem)
    (candidates : Candidates p) (options : InternalRelationOptions)
    (draws : Nat → SimulationDraws) (width : Nat → Nat → Nat) : Finset (Nat × Nat) × σ :=
  if !options.learnInternalRelations || candidates.isEmpty then (∅, s)
  else
    let allowX := options.allowXEqualityInInternalRelations
    let active := candidates.filter (baseHolds · allowX)
    if exceedsLogicLimit active kLogicNodeLimit then (∅, s)
    else refine S allowX draws width 64 0 s active

/-! ## Merged literals -/

/-- The relation a candidate stands for, in one frame. -/
structure RelationHolds (c : InternalRelationCandidate p) (allowX : Bool) (σ : Valuation) :
    Prop where
  equal : ∀ pr ∈ c.equalities, lit σ pr.1 = lit σ pr.2
  defined : allowX = false → ∀ v ∈ c.values, lit σ v.mayBeOne ≠ lit σ v.mayBeZero

theorem eval_foldl_And {α : Type} (σ : Valuation) (f : α → BoolExpr) (xs : List α) (e : BoolExpr) :
    (xs.foldl (fun e x => BoolExpr.And e (f x)) e).eval σ =
      (e.eval σ && xs.all fun x => (f x).eval σ) := by
  induction xs generalizing e with
  | nil => simp
  | cons x xs ih =>
    rw [List.foldl_cons, ih, BoolExpr.eval_And, List.all_cons, Bool.and_assoc]

theorem eval_relation {c : InternalRelationCandidate p} {allowX : Bool} {σ : Valuation} :
    (relation c allowX).eval σ = true ↔ RelationHolds c allowX σ := by
  have hequal : (c.equalities.foldl (fun e pr =>
      BoolExpr.And e (BoolExpr.Not (BoolExpr.Xor (.var pr.1) (.var pr.2))))
      BoolExpr.createTrue).eval σ = true ↔ ∀ pr ∈ c.equalities, lit σ pr.1 = lit σ pr.2 := by
    rw [eval_foldl_And]
    simp
  unfold relation
  cases allowX with
  | true =>
    rw [if_pos rfl, hequal]
    exact ⟨fun h => ⟨h, fun hx => by cases hx⟩, fun h => h.equal⟩
  | false =>
    rw [if_neg (by decide), eval_foldl_And, Bool.and_eq_true, hequal]
    simp only [List.all_eq_true, BoolExpr.eval_Xor, eval_var_eq_lit, bne_iff_ne]
    exact ⟨fun h => ⟨h.1, fun _ => h.2⟩, fun h => ⟨h.equal, h.defined rfl⟩⟩

/-- Merging changes no literal in a frame that satisfies the merged equalities. -/
theorem lit_mergeActive {active : Candidates p} {σ : Valuation}
    (h : ∀ c ∈ active, ∀ pr ∈ c.equalities, lit σ pr.1 = lit σ pr.2) (x : Nat) :
    lit σ (mergeActive active x) = lit σ x := by
  have hpairs : ∀ (prs : List (Nat × Nat)) (m : Nat → Nat),
      (∀ pr ∈ prs, lit σ pr.1 = lit σ pr.2) → (∀ y, lit σ (m y) = lit σ y) →
      ∀ y, lit σ (prs.foldl (fun m pr => Function.update m pr.2 (m pr.1)) m y) = lit σ y := by
    intro prs
    induction prs with
    | nil => exact fun m _ hm => hm
    | cons pr prs ih =>
      intro m hprs hm
      refine ih _ (fun q hq => hprs q (by simp [hq])) fun y => ?_
      beta_reduce
      by_cases hy : y = pr.2
      · subst hy
        rw [Function.update_self, hm, hprs pr (by simp)]
      · rw [Function.update_of_ne hy, hm]
  have hactive : ∀ (cs : Candidates p) (m : Nat → Nat),
      (∀ c ∈ cs, ∀ pr ∈ c.equalities, lit σ pr.1 = lit σ pr.2) → (∀ y, lit σ (m y) = lit σ y) →
      ∀ y, lit σ (cs.foldl (fun m c =>
        c.equalities.foldl (fun m pr => Function.update m pr.2 (m pr.1)) m) m y) = lit σ y := by
    intro cs
    induction cs with
    | nil => exact fun m _ hm => hm
    | cons c cs ih =>
      intro m hcs hm
      exact ih _ (fun d hd => hcs d (by simp [hd])) (hpairs c.equalities m (hcs c (by simp)) hm)
  exact hactive active id h (fun _ => rfl) x

theorem eval_merged {active : Candidates p} {σ : Valuation}
    (h : ∀ c ∈ active, ∀ pr ∈ c.equalities, lit σ pr.1 = lit σ pr.2) (e : BoolExpr) :
    (e.mapSymbols (mergeActive active)).eval σ = e.eval σ := by
  rw [BoolExpr.eval_mapSymbols]
  refine BoolExpr.eval_congr_lit fun s _ h2 => ?_
  rw [lit_of_two_le _ h2]
  exact lit_mergeActive h s

/-! ## What one partition certifies -/

/-- Every rail pair of the problem has a rail set. -/
def RailsValid (p : KInductionProblem) (σ : Valuation) : Prop :=
  ∀ v ∈ p.dualRailStatePairs, (lit σ v.mayBeOne || lit σ v.mayBeZero) = true

/-- The equations of the problem between two frames. -/
def FollowsTransitions (p : KInductionProblem) (σ σ' : Valuation) : Prop :=
  ∀ t e, p.transitionAt t = some e → lit σ' t = e.eval σ

/-- The candidate holds in the next frame whenever all active ones hold now. -/
def Certified (active : Candidates p) (allowX : Bool) (c : InternalRelationCandidate p) : Prop :=
  ∀ σ σ', (∀ a ∈ active, RelationHolds a allowX σ) → RailsValid p σ → RailsValid p σ' →
    FollowsTransitions p σ σ' → RelationHolds c allowX σ'

/-- Two frames and the value of `allTogether`. -/
def frames (σ σ' : Valuation) (together : Bool) : Trace
  | 0 => σ
  | 1 => σ'
  | _ => fun _ => together

theorem mem_coveredRails {merged : Nat → Nat} {vs : List DualRailSymbolPair} {leaves : List Nat}
    {v : DualRailSymbolPair} (h : v ∈ (coveredRails merged vs leaves).1) : v ∈ vs := by
  induction vs generalizing leaves with
  | nil => simp [coveredRails] at h
  | cons w vs ih =>
    unfold coveredRails at h
    split at h
    · rcases List.mem_cons.mp h with rfl | h
      · exact List.mem_cons_self
      · exact List.mem_cons_of_mem _ (ih h)
    · exact List.mem_cons_of_mem _ (ih h)

@[simp] theorem evalLit_allTogether (σ σ' : Valuation) (together : Bool) :
    evalLit (evalAtom (frames σ σ' together)) allTogether = together := by
  simp [allTogether, frames, lit_of_two_le]

@[simp] theorem evalLit_conclusion (σ σ' : Valuation) (together : Bool) (e : BoolExpr) :
    evalLit (evalAtom (frames σ σ' together)) (encodeNext e) = e.eval σ' := by
  simp [encodeNext, frames]

/-- A step from a frame with all active relations satisfies the clauses of every
partition, unless all its conclusions hold while `allTogether` is set. -/
theorem evalQuery_partitionQuery {active part : Candidates p} {allowX : Bool}
    {σ σ' : Valuation} (together : Bool) (hpart : ∀ c ∈ part, c ∈ active)
    (hcomplete : ∀ c ∈ part, c.Complete) (hactive : ∀ a ∈ active, RelationHolds a allowX σ) (hrails : RailsValid p σ)
    (hrails' : RailsValid p σ') (hstep : FollowsTransitions p σ σ')
    (hbad : together = false ∨ ∃ c ∈ part, ¬ RelationHolds c allowX σ') :
    evalQuery (evalAtom (frames σ σ' together))
      (partitionQuery part (mergeActive active) allowX) = true := by
  have hcurrent : ∀ e : BoolExpr, evalLit (evalAtom (frames σ σ' together))
      (encodeCurrent (mergeActive active) e) = e.eval σ := by
    intro e
    rw [encodeCurrent, evalLit_encode]
    exact eval_merged (fun c hc => (hactive c hc).equal) e
  simp only [partitionQuery, evalQuery_append, Bool.and_eq_true]
  refine ⟨⟨⟨⟨?_, ?_⟩, ?_⟩, ?_⟩, ?_⟩
  · rw [evalQuery_flatMap]
    intro s _
    cases he : p.transitionAt s with
    | none => simp
    | some e => simp [hcurrent, hstep s e he]
  · rw [evalQuery_map]
    intro c hc
    rw [evalClause_singleton, hcurrent]
    exact eval_relation.mpr (hactive c (hpart c hc))
  · rw [evalQuery_flatMap]
    intro c hc
    rw [evalQuery_map]
    intro v hv
    simpa using hrails' v (hcomplete c hc v hv)
  · rw [evalQuery_map]
    intro v hv
    simpa [hcurrent] using hrails v (mem_coveredRails hv)
  · rw [evalQuery_cons, evalQuery_nil, Bool.and_true, evalClause_iff]
    rcases hbad with rfl | ⟨c, hc, hnot⟩
    · exact ⟨allTogether.neg, by simp, by simp⟩
    · refine ⟨(encodeNext (relation c allowX)).neg,
        List.mem_append_left _ (List.mem_map.mpr ⟨c, hc, rfl⟩), ?_⟩
      rw [evalLit_neg, evalLit_conclusion, Bool.not_eq_true', ← Bool.not_eq_true]
      exact fun h => hnot (eval_relation.mp h)

section Certificates
variable {σ : Type} {S : FrameSolver σ}

theorem solvePairs_spec (q : FrameQuery) (conclusions : List FrameLit) (s : σ) (first : Nat)
    (refuted : Nat → Bool) :
    (∀ i, i < first ∨ first + conclusions.length ≤ i →
      (solvePairs S q s first conclusions refuted).1 i = refuted i) ∧
    ∀ j (hj : j < conclusions.length),
      (solvePairs S q s first conclusions refuted).1 (first + j) = false →
      ∀ m, evalQuery (evalAtom m) q = true → evalLit (evalAtom m) conclusions[j] = true := by
  induction conclusions generalizing s first refuted with
  | nil => exact ⟨fun i _ => rfl, fun j hj => absurd hj (Nat.not_lt_zero j)⟩
  | cons conclusion rest ih =>
    -- whichever answer comes back, only entry `first` is written before the rest
    have hrest : ∀ (s' : σ) (b : Bool), (b = false → ∀ m, evalQuery (evalAtom m) q = true →
        evalLit (evalAtom m) conclusion = true) →
        (∀ i, i < first ∨ first + (conclusion :: rest).length ≤ i →
          (solvePairs S q s' (first + 1) rest (Function.update refuted first b)).1 i = refuted i) ∧
        ∀ j (hj : j < (conclusion :: rest).length),
          (solvePairs S q s' (first + 1) rest (Function.update refuted first b)).1 (first + j) =
            false →
          ∀ m, evalQuery (evalAtom m) q = true →
            evalLit (evalAtom m) (conclusion :: rest)[j] = true := by
      intro s' b hb
      obtain ⟨hout, hin⟩ := ih s' (first + 1) (Function.update refuted first b)
      refine ⟨fun i hi => ?_, fun j hj hfalse m hm => ?_⟩
      · rw [List.length_cons] at hi
        rw [hout i (by omega), Function.update_of_ne (by omega)]
      · cases j with
        | zero =>
          rw [hout (first + 0) (by omega), Nat.add_zero, Function.update_self] at hfalse
          exact hb hfalse m hm
        | succ j =>
          rw [List.length_cons] at hj
          rw [show first + (j + 1) = first + 1 + j by omega] at hfalse
          exact hin j (by omega) hfalse m hm
    unfold solvePairs
    split
    · rename_i s' hsolve
      refine hrest s' false fun _ m hm => ?_
      obtain ⟨a, ha, hval⟩ := S.unsat_sound s q [conclusion.neg] pairLimits
        (congrArg Prod.fst hsolve) m hm
      rw [List.mem_singleton] at ha
      subst ha
      simpa using hval
    · exact hrest _ true fun h => by cases h

/-- The simulation only adds refutations. -/
theorem simulate_of_refuted {active : Candidates p} {allowX : Bool} {draws : SimulationDraws}
    {fuel step : Nat} {valid : UInt64} {state : Words} {refuted : Nat → Bool} {i : Nat}
    (h : refuted i = true) : simulate active allowX draws fuel step valid state refuted i = true := by
  induction fuel generalizing step valid state refuted with
  | zero => exact h
  | succ fuel ih =>
    unfold simulate
    split
    · exact h
    · simp only
      split
      · exact ih (by simp [h])
      · exact h

/-- A partition writes outside its own range only to refute. -/
theorem solvePartition_outside {s : σ} {active part : Candidates p} {first i : Nat} {allowX : Bool}
    {draws : SimulationDraws} {refuted : Nat → Bool} (hi : i < first ∨ first + part.length ≤ i)
    (h : refuted i = true) :
    (solvePartition S s active part first allowX draws refuted).1 i = true := by
  unfold solvePartition
  simp only
  split
  · exact h
  · rw [(solvePairs_spec _ _ _ _ _).1 i (by simpa using hi)]
    exact h
  · have hsim : ∀ counterexample, refuteBySimulation active allowX draws counterexample refuted i =
        true := fun _ => simulate_of_refuted h
    simp [hsim]

/-- A partition that refutes none of its candidates certifies all of them. -/
theorem solvePartition_certifies {s : σ} {active part : Candidates p} {first : Nat} {allowX : Bool}
    {draws : SimulationDraws} {refuted : Nat → Bool} (hpart : ∀ c ∈ part, c ∈ active)
    (hcomplete : ∀ c ∈ part, c.Complete) (h : ∀ i, first ≤ i → i < first + part.length →
      (solvePartition S s active part first allowX draws refuted).1 i = false) :
    ∀ c ∈ part, Certified active allowX c := by
  intro c hc υ υ' hactive hrails hrails' hstep
  by_contra hnot
  have hquery := evalQuery_partitionQuery true hpart hcomplete hactive hrails hrails' hstep
    (.inr ⟨c, hc, hnot⟩)
  obtain ⟨j, hj, rfl⟩ := List.mem_iff_getElem.mp hc
  have hnone := h (first + j) (by omega) (by omega)
  unfold solvePartition at h hnone
  simp only at h hnone
  split at hnone
  · -- `Unsat`: with `allTogether` set no conclusion can fail
    rename_i hsolve
    obtain ⟨a, ha, hval⟩ := S.unsat_sound s _ [allTogether] batchLimits
      (congrArg Prod.fst hsolve) _ hquery
    rw [List.mem_singleton] at ha
    subst ha
    simp at hval
  · -- `Unknown`: the candidate has been proved on its own
    have hconclusion := (solvePairs_spec _ _ _ first refuted).2 j (by simpa using hj) hnone _
      (evalQuery_partitionQuery false hpart hcomplete hactive hrails hrails' hstep (.inl rfl))
    rw [List.getElem_map, evalLit_conclusion] at hconclusion
    exact hnot (eval_relation.mp hconclusion)
  · -- `Sat`: the model violates some conclusion of this partition
    rename_i m s' hsolve
    rw [hsolve] at h
    obtain ⟨hmodel, hassumed⟩ := S.sat_sound s _ [allTogether] batchLimits m
      (congrArg Prod.fst hsolve)
    have htogether := hassumed allTogether (by simp)
    simp only [partitionQuery, evalQuery_append, Bool.and_eq_true, evalQuery_cons, evalQuery_nil,
      Bool.and_true] at hmodel
    obtain ⟨l, hl, hval⟩ := (evalClause_iff _).mp hmodel.2
    rcases List.mem_append.mp hl with hl | hl
    · obtain ⟨d, hd, rfl⟩ := List.mem_map.mp hl
      obtain ⟨i, hi, rfl⟩ := List.mem_iff_getElem.mp hd
      have hfalse := h (first + i) (by omega) (by omega)
      rw [evalLit_neg] at hval
      simp [hi, hval] at hfalse
    · rw [List.mem_singleton] at hl
      subst hl
      rw [evalLit_neg, htogether] at hval
      cases hval

theorem solvePartitions_outside {active : Candidates p} {allowX : Bool} {draws : SimulationDraws}
    {width : Nat → Nat} {fuel first i : Nat} {s : σ} {refuted : Nat → Bool} (hi : i < first)
    (h : refuted i = true) :
    (solvePartitions S active allowX draws width fuel s first refuted).1 i = true := by
  induction fuel generalizing s first refuted with
  | zero => exact h
  | succ fuel ih =>
    unfold solvePartitions
    split
    · exact h
    · exact ih (by omega) (solvePartition_outside (.inl hi) h)

/-- A round without refutation certifies every active candidate from `first` on. -/
theorem solvePartitions_certify {active : Candidates p} {allowX : Bool} {draws : SimulationDraws}
    {width : Nat → Nat} {fuel first : Nat} {s : σ} {refuted : Nat → Bool}
    (hcomplete : ∀ c ∈ active, c.Complete) (hfuel : active.length ≤ first + fuel)
    (h : ∀ i, first ≤ i → i < active.length →
      (solvePartitions S active allowX draws width fuel s first refuted).1 i = false) :
    ∀ c ∈ active.drop first, Certified active allowX c := by
  induction fuel generalizing s first refuted with
  | zero =>
    intro c hc
    rw [List.drop_eq_nil_of_le (by omega)] at hc
    simp at hc
  | succ fuel ih =>
    intro c hc
    unfold solvePartitions at h
    split at h
    · rename_i hend
      rw [List.drop_eq_nil_of_le hend] at hc
      simp at hc
    · rename_i hmore
      simp only at h
      generalize hpart : (active.drop first).take (width first + 1) = part at h
      have hlen : part.length = min (width first + 1) (active.length - first) := by
        rw [← hpart, List.length_take, List.length_drop]
      have hsub : ∀ c ∈ part, c ∈ active := fun c hc =>
        List.mem_of_mem_drop (List.mem_of_mem_take (hpart ▸ hc))
      have hsplit : active.drop first = part ++ active.drop (first + part.length) := by
        rw [hlen, ← List.drop_drop, ← hpart]
        rcases Nat.le_total (width first + 1) (active.length - first) with hle | hle
        · rw [Nat.min_eq_left hle, List.take_append_drop]
        · have hrest : (active.drop first).drop (active.length - first) = [] :=
            List.drop_eq_nil_of_le (by rw [List.length_drop])
          rw [Nat.min_eq_right hle, hrest, List.append_nil,
            List.take_of_length_le (by rw [List.length_drop]; exact hle)]
      rw [hsplit, List.mem_append] at hc
      rcases hc with hc | hc
      · -- the later partitions keep what this one refutes
        have hnone : ∀ i, first ≤ i → i < first + part.length →
            (solvePartition S s active part first allowX draws refuted).1 i = false := by
          intro i hi hlt
          by_contra hrefuted
          rw [Bool.not_eq_false] at hrefuted
          have hfalse := h i hi (by omega)
          rw [solvePartitions_outside hlt hrefuted] at hfalse
          cases hfalse
        exact solvePartition_certifies hsub (fun d hd => hcomplete d (hsub d hd)) hnone c hc
      · exact ih (by omega) (fun i hi hlt => h i (by omega) hlt) c hc

theorem mem_of_mem_dropRefuted {active : Candidates p} {refuted : Nat → Bool}
    {c : InternalRelationCandidate p} (h : c ∈ dropRefuted active refuted) : c ∈ active := by
  obtain ⟨x, hx, rfl⟩ := List.mem_map.mp h
  exact List.fst_mem_of_mem_zipIdx (List.mem_of_mem_filter hx)

/-- The returned equalities are those of a set of candidates that certifies itself. -/
theorem refine_certified {allowX : Bool} {draws : Nat → SimulationDraws}
    {width : Nat → Nat → Nat} {rounds round : Nat} {s : σ} {active : Candidates p}
    {pr : Nat × Nat} (hcomplete : ∀ c ∈ active, c.Complete)
    (h : pr ∈ (refine S allowX draws width rounds round s active).1) :
    ∃ proved : Candidates p, (∀ c ∈ proved, c ∈ active) ∧
      (∀ c ∈ proved, Certified proved allowX c) ∧ ∃ c ∈ proved, pr ∈ c.equalities := by
  induction rounds generalizing round s active with
  | zero => simp [refine] at h
  | succ rounds ih =>
    unfold refine at h
    split at h
    · simp at h
    · simp only at h
      split at h
      · obtain ⟨proved, hsub, hcertified, hmem⟩ :=
          ih (fun c hc => hcomplete c (mem_of_mem_dropRefuted hc)) h
        exact ⟨proved, fun c hc => mem_of_mem_dropRefuted (hsub c hc), hcertified, hmem⟩
      · rename_i hnone
        simp only [List.any_eq_true, List.mem_range, not_exists, not_and, Bool.not_eq_true]
          at hnone
        have hall : ∀ c ∈ active.drop 0, Certified active allowX c :=
          solvePartitions_certify hcomplete (Nat.le_of_eq (Nat.zero_add active.length).symm)
            fun i _ hi => hnone i hi
        rw [List.drop_zero] at hall
        simp only [List.mem_toFinset, List.mem_flatMap] at h
        exact ⟨active, fun c hc => hc, hall, h⟩

end Certificates

/-! ## Soundness -/

/-- A run of the problem from its initial state assignments: rail pairs are valid in
every frame, which is all the environment promises. -/
structure BootRun (p : KInductionProblem) (τ : Trace) (n : Nat) : Prop where
  initial : ∀ a ∈ p.initialStateAssignments, lit (τ 0) a.1 = a.2
  transitions : ∀ i < n, FollowsTransitions p (τ i) (τ (i + 1))
  rails : ∀ i ≤ n, RailsValid p (τ i)

theorem relationHolds_of_baseHolds {c : InternalRelationCandidate p} {allowX : Bool}
    {σ : Valuation} (hinit : ∀ a ∈ p.initialStateAssignments, lit σ a.1 = a.2)
    (h : baseHolds c allowX = true) : RelationHolds c allowX σ := by
  simp only [baseHolds, Bool.and_eq_true, Bool.or_eq_true, List.all_eq_true, beq_iff_eq] at h
  refine ⟨fun pr hpr => ?_, fun hx v hv => ?_⟩
  · obtain ⟨⟨⟨hsome, hsame⟩, _⟩, _⟩ := h.1.2 pr hpr
    obtain ⟨b, hb⟩ := Option.isSome_iff_exists.mp hsome
    have hlhs := hinit (pr.1, b) (mem_of_lookup hb)
    have hrhs := hinit (pr.2, b) (mem_of_lookup (hsame ▸ hb))
    exact hlhs.trans hrhs.symm
  · have hdefined := (h.2.resolve_left (by simp [hx])) v hv
    split at hdefined
    · rename_i one zero hone hzero
      have h1 := hinit (v.mayBeOne, one) (mem_of_lookup hone)
      have h0 := hinit (v.mayBeZero, zero) (mem_of_lookup hzero)
      simp only at h1 h0
      rw [h1, h0]
      simpa using hdefined
    · cases hdefined

/-- Candidates that hold at boot and certify one another hold along every run. -/
theorem relationHolds_of_certified {proved : Candidates p} {allowX : Bool}
    (hbase : ∀ c ∈ proved, baseHolds c allowX = true)
    (hcertified : ∀ c ∈ proved, Certified proved allowX c) {τ : Trace} {n : Nat}
    (hrun : BootRun p τ n) : ∀ c ∈ proved, RelationHolds c allowX (τ n) := by
  induction n with
  | zero => exact fun c hc => relationHolds_of_baseHolds hrun.initial (hbase c hc)
  | succ n ih =>
    intro c hc
    have hnow := ih ⟨hrun.initial, fun i hi => hrun.transitions i (by omega),
      fun i hi => hrun.rails i (by omega)⟩
    exact hcertified c hc (τ n) (τ (n + 1)) hnow (hrun.rails n (by omega))
      (hrun.rails (n + 1) (Nat.le_refl _)) (hrun.transitions n (by omega))

/-- None of the rounds up to the limit is a fixed point: each drops a candidate. -/
def EveryRoundRefutes {σ : Type} (S : FrameSolver σ) (allowX : Bool) (draws : Nat → SimulationDraws)
    (width : Nat → Nat → Nat) : Nat → Nat → σ → Candidates p → Prop
  | 0, _, _, _ => True
  | rounds + 1, round, s, active =>
    let (refuted, s') :=
      solvePartitions S active allowX (draws round) (width round) active.length s 0 fun _ => false
    (List.range active.length).any refuted = true ∧
      EveryRoundRefutes S allowX draws width rounds (round + 1) s' (dropRefuted active refuted)

theorem refine_unfinished {σ : Type} {S : FrameSolver σ} {allowX : Bool}
    {draws : Nat → SimulationDraws} {width : Nat → Nat → Nat} {rounds round : Nat} {s : σ}
    {active : Candidates p} (h : EveryRoundRefutes S allowX draws width rounds round s active) :
    (refine S allowX draws width rounds round s active).1 = ∅ := by
  induction rounds generalizing round s active with
  | zero => rfl
  | succ rounds ih =>
    obtain ⟨hrefutes, hrest⟩ := h
    unfold refine
    split
    · rfl
    · simp only [hrefutes, if_true]
      exact ih hrest

/-- Every returned pair is equal in every reachable state, for every list of complete
candidates, every partitioning, every simulation and every sequence of solver answers; and
nothing is returned when the 64 rounds end without a fixed point. -/
theorem proveInternalRelations_sound {σ : Type} (S : FrameSolver σ) (s : σ)
    (p : KInductionProblem) (candidates : Candidates p) (options : InternalRelationOptions)
    (draws : Nat → SimulationDraws) (width : Nat → Nat → Nat)
    (hcomplete : ∀ c ∈ candidates, c.Complete) :
    (∀ pr ∈ (proveInternalRelations S s p candidates options draws width).1,
      ∀ τ n, BootRun p τ n → lit (τ n) pr.1 = lit (τ n) pr.2) ∧
    (EveryRoundRefutes S options.allowXEqualityInInternalRelations draws width 64 0 s
        (candidates.filter (baseHolds · options.allowXEqualityInInternalRelations)) →
      (proveInternalRelations S s p candidates options draws width).1 = ∅) := by
  unfold proveInternalRelations
  split
  · simp
  · simp only
    split
    · simp
    · refine ⟨fun pr hpr τ n hrun => ?_, refine_unfinished⟩
      obtain ⟨proved, hsub, hcertified, c, hc, hmem⟩ := refine_certified
        (fun c hc => hcomplete c (List.mem_filter.mp hc).1) hpr
      have hbase : ∀ c ∈ proved, baseHolds c options.allowXEqualityInInternalRelations = true :=
        fun c hc => (List.mem_filter.mp (hsub c hc)).2
      exact (relationHolds_of_certified hbase hcertified hrun c hc).equal pr hmem

/-- Three registers that sample input 5 and start cleared. -/
def sampledProblem : KInductionProblem where
  initialStateAssignments := [(2, false), (3, false), (4, false)]
  state0Symbols := [2, 3]
  state1Symbols := [4]
  allSymbols := [2, 3, 4, 5]
  transitions0 := [(2, .var 5), (3, .var 5)]
  transitions1 := [(4, .var 5)]
  property := .var 1
  bad := .var 0

/-- The chained candidates 2 = 3 and 3 = 4 are returned and hold. -/
theorem proveInternalRelations_sound_sampled :
    (3, 4) ∈ (proveInternalRelations exhaustiveSolver () sampledProblem
      [{ equalities := [(2, 3)], values := [] }, { equalities := [(3, 4)], values := [] }] {}
      (fun _ => ⟨fun _ => 0, fun _ => 0, fun _ _ => 0⟩) (fun _ _ => 1)).1 ∧
    ∀ τ n, BootRun sampledProblem τ n → lit (τ n) 3 = lit (τ n) 4 := by
  have hreturned : (3, 4) ∈ (proveInternalRelations exhaustiveSolver () sampledProblem
      [{ equalities := [(2, 3)], values := [] }, { equalities := [(3, 4)], values := [] }] {}
      (fun _ => ⟨fun _ => 0, fun _ => 0, fun _ _ => 0⟩) (fun _ _ => 1)).1 := by
    decide +kernel
  exact ⟨hreturned, (proveInternalRelations_sound exhaustiveSolver () sampledProblem
    [{ equalities := [(2, 3)], values := [] }, { equalities := [(3, 4)], values := [] }] {}
    (fun _ => ⟨fun _ => 0, fun _ => 0, fun _ _ => 0⟩) (fun _ _ => 1)
    (by simp [InternalRelationCandidate.Complete])).1 (3, 4) hreturned⟩

end InternalRelations
end KeplerFormal
