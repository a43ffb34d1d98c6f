import KeplerFormal.L4Engine.RelationSimulation

/-!
# The greatest inductive set of relations (`src/sec/proof/InternalRelations.cpp`)

A round drops no member of a set that certifies itself if each partition works under all
hypotheses: a hypothesis of another partition is applied only through the merge map, where a later
pair overwrites the entry of an earlier one.

* `HypothesesApplied`: a partition works under every active relation.
* `relationHolds_next`: a solver model of such a partition refutes no member.
* `returnsGreatest_of_applied`: the pairs of the greatest inductive set, for all partitions and draws.
-/
namespace KeplerFormal

open Core

namespace InternalRelations

open KInductionProblem (two_le_of_contains contains_iff)

variable {p : KInductionProblem}

/-! ## Leaves of a partition -/

theorem coveredRails_spec (merged : Nat → Nat) (vs : List DualRailSymbolPair) (leaves : List Nat) :
    (∀ x ∈ leaves, x ∈ (coveredRails merged vs leaves).2) ∧
    (∀ u ∈ (coveredRails merged vs leaves).1, merged u.mayBeOne ∈ (coveredRails merged vs leaves).2 ∧
      merged u.mayBeZero ∈ (coveredRails merged vs leaves).2) ∧
    (∀ x ∈ (coveredRails merged vs leaves).2, x ∈ leaves ∨
      ∃ u ∈ (coveredRails merged vs leaves).1, x = merged u.mayBeOne ∨ x = merged u.mayBeZero) ∧
    ∀ u ∈ vs, merged u.mayBeOne ∈ leaves ∨ merged u.mayBeZero ∈ leaves →
      u ∈ (coveredRails merged vs leaves).1 := by
  induction vs generalizing leaves with
  | nil => exact ⟨fun _ h => h, nofun, fun _ h => .inl h, nofun⟩
  | cons v vs ih =>
    unfold coveredRails
    split
    · rename_i hread
      obtain ⟨hkeep, hboth, hfrom, hcovers⟩ :=
        ih (merged v.mayBeOne :: merged v.mayBeZero :: leaves)
      dsimp only
      refine ⟨fun x hx => hkeep x (by simp [hx]), fun u hu => ?_, fun x hx => ?_, fun u hu hu' => ?_⟩
      · rcases List.mem_cons.mp hu with rfl | hu
        · exact ⟨hkeep _ (by simp), hkeep _ (by simp)⟩
        · exact hboth u hu
      · rcases hfrom x hx with hleaf | ⟨u, hu, hx⟩
        · simp only [List.mem_cons] at hleaf
          rcases hleaf with rfl | rfl | hleaf
          · exact .inr ⟨v, by simp, .inl rfl⟩
          · exact .inr ⟨v, by simp, .inr rfl⟩
          · exact .inl hleaf
        · exact .inr ⟨u, by simp [hu], hx⟩
      · rcases List.mem_cons.mp hu with rfl | hu
        · exact List.mem_cons_self
        · refine List.mem_cons_of_mem _ (hcovers u hu ?_)
          exact hu'.imp (fun h => by simp [h]) fun h => by simp [h]
    · rename_i hunread
      obtain ⟨hkeep, hboth, hfrom, hcovers⟩ := ih leaves
      refine ⟨hkeep, hboth, hfrom, fun u hu hu' => ?_⟩
      rcases List.mem_cons.mp hu with rfl | hu
      · exact absurd hu' hunread
      · exact hcovers u hu hu'

theorem mem_targets {part : Candidates p} {s : Nat} :
    s ∈ targets part ↔ ∃ c ∈ part, s ∈ registers c := by
  unfold targets registers
  rw [List.mem_dedup, List.mem_flatMap]

theorem mem_currentLeaves {merged : Nat → Nat} {e : BoolExpr} {x : Nat} :
    x ∈ currentLeaves merged e ↔ ∃ s ∈ e.getSupportVars, 2 ≤ s ∧ merged s = x := by
  unfold currentLeaves
  simp [BoolExpr.mem_leaves, and_assoc]

theorem mem_formulaLeaves {part : Candidates p} {merged : Nat → Nat} {allowX : Bool} {x : Nat} :
    x ∈ formulaLeaves part merged allowX ↔
      (∃ s ∈ targets part, ∃ e, p.transitionAt s = some e ∧ x ∈ currentLeaves merged e) ∨
      ∃ c ∈ part, x ∈ currentLeaves merged (relation c allowX) := by
  unfold formulaLeaves
  rw [List.mem_append, List.mem_flatMap, List.mem_flatMap]
  refine or_congr_left (exists_congr fun s => and_congr_right fun _ => ?_)
  cases p.transitionAt s with
  | none => simp
  | some e => simp

theorem exists_merged_of_mem {part : Candidates p} {merged : Nat → Nat} {allowX : Bool} {x : Nat}
    (h : x ∈ formulaLeaves part merged allowX) : ∃ s, merged s = x := by
  rcases mem_formulaLeaves.mp h with ⟨_, -, e, -, hx⟩ | ⟨c, -, hx⟩
  · obtain ⟨s, -, -, hs⟩ := mem_currentLeaves.mp hx
    exact ⟨s, hs⟩
  · obtain ⟨s, -, -, hs⟩ := mem_currentLeaves.mp hx
    exact ⟨s, hs⟩

section Merged
variable {active : Candidates p} (hwf : WellFormed p active)
include hwf

/-- What is merged into a rail is a rail of a pair that is merged as a whole. -/
theorem merged_rail {v : DualRailSymbolPair} (hv : v ∈ p.dualRailStatePairs) {s : Nat}
    (h : mergeActive active s = v.mayBeOne ∨ mergeActive active s = v.mayBeZero) :
    ∃ u ∈ p.dualRailStatePairs, (s = u.mayBeOne ∨ s = u.mayBeZero) ∧
      mergeActive active u.mayBeOne = v.mayBeOne ∧
      mergeActive active u.mayBeZero = v.mayBeZero := by
  have hpairs : ∀ u ∈ p.dualRailStatePairs, ∃ w ∈ p.dualRailStatePairs,
      mergeActive active u.mayBeOne = w.mayBeOne ∧ mergeActive active u.mayBeZero = w.mayBeZero :=
    @copyActive_rails p Nat (fun high low => ∃ w ∈ p.dualRailStatePairs,
      high = w.mayBeOne ∧ low = w.mayBeZero) active hwf id fun u hu => ⟨u, hu, rfl, rfl⟩
  have hbits : ∀ s ∉ railSymbols p, mergeActive active s ∉ railSymbols p :=
    @copyActive_bits p Nat (fun s => s ∉ railSymbols p) active hwf id fun _ hs => hs
  have hs : s ∈ railSymbols p := by
    by_contra hs
    rcases h with h | h
    · exact hbits s hs (h ▸ one_mem_railSymbols hv)
    · exact hbits s hs (h ▸ zero_mem_railSymbols hv)
  obtain ⟨u, hu, hside⟩ := mem_railSymbols_iff.mp hs
  obtain ⟨w, hw, hone, hzero⟩ := hpairs u hu
  have hsame : w = v := by
    rcases hside with rfl | rfl
    · rw [hone] at h
      exact h.elim (rails_distinct hwf.nodup hw hv).1
        fun heq => absurd heq (rails_distinct hwf.nodup hw hv).2.2
    · rw [hzero] at h
      exact h.elim (fun heq => absurd heq.symm (rails_distinct hwf.nodup hv hw).2.2)
        (rails_distinct hwf.nodup hw hv).2.1
  rw [hsame] at hone hzero
  exact ⟨u, hu, hside, hone, hzero⟩

/-- The solver gives values to whole pairs, and valid ones. -/
theorem leafValues_pairs {part : Candidates p} {allowX : Bool} {m : Trace}
    (hrails : ∀ u ∈ (coveredRails (mergeActive active) p.dualRailStatePairs
        (formulaLeaves part (mergeActive active) allowX)).1,
      (lit (m 0) (mergeActive active u.mayBeOne) || lit (m 0) (mergeActive active u.mayBeZero)) =
        true) :
    ∀ v ∈ p.dualRailStatePairs,
      (v.mayBeOne ∉ (coveredRails (mergeActive active) p.dualRailStatePairs
          (formulaLeaves part (mergeActive active) allowX)).2 ∧
        v.mayBeZero ∉ (coveredRails (mergeActive active) p.dualRailStatePairs
          (formulaLeaves part (mergeActive active) allowX)).2) ∨
      (v.mayBeOne ∈ (coveredRails (mergeActive active) p.dualRailStatePairs
          (formulaLeaves part (mergeActive active) allowX)).2 ∧
        v.mayBeZero ∈ (coveredRails (mergeActive active) p.dualRailStatePairs
          (formulaLeaves part (mergeActive active) allowX)).2 ∧
        (lit (m 0) v.mayBeOne || lit (m 0) v.mayBeZero) = true) := by
  intro v hv
  obtain ⟨-, hboth, hfrom, hcovers⟩ := coveredRails_spec (mergeActive active)
    p.dualRailStatePairs (formulaLeaves part (mergeActive active) allowX)
  generalize hresult : coveredRails (mergeActive active) p.dualRailStatePairs
    (formulaLeaves part (mergeActive active) allowX) = result at *
  have hwhole : ∀ x ∈ result.2, x = v.mayBeOne ∨ x = v.mayBeZero →
      v.mayBeOne ∈ result.2 ∧ v.mayBeZero ∈ result.2 ∧
        (lit (m 0) v.mayBeOne || lit (m 0) v.mayBeZero) = true := by
    intro x hx hside
    have hcovered : ∃ u ∈ result.1, mergeActive active u.mayBeOne = v.mayBeOne ∧
        mergeActive active u.mayBeZero = v.mayBeZero := by
      rcases hfrom x hx with hleaf | ⟨u, hu, hsame⟩
      · obtain ⟨s, rfl⟩ := exists_merged_of_mem hleaf
        obtain ⟨u, hu, hs, hone, hzero⟩ := merged_rail hwf hv hside
        refine ⟨u, hcovers u hu ?_, hone, hzero⟩
        rcases hs with rfl | rfl
        · exact .inl hleaf
        · exact .inr hleaf
      · -- the leaf was added with a covered pair, which is merged into this one
        refine ⟨u, hu, ?_⟩
        have hmem : u ∈ p.dualRailStatePairs := mem_coveredRails (hresult ▸ hu)
        rcases hsame with rfl | rfl
        · obtain ⟨u', hu', hs, hone, hzero⟩ := merged_rail hwf hv hside
          rcases hs with heq | heq
          · rw [(rails_distinct hwf.nodup hmem hu').1 heq]
            exact ⟨hone, hzero⟩
          · exact absurd heq (rails_distinct hwf.nodup hmem hu').2.2
        · obtain ⟨u', hu', hs, hone, hzero⟩ := merged_rail hwf hv hside
          rcases hs with heq | heq
          · exact absurd heq.symm (rails_distinct hwf.nodup hu' hmem).2.2
          · rw [(rails_distinct hwf.nodup hmem hu').2.1 heq]
            exact ⟨hone, hzero⟩
    obtain ⟨u, hu, hone, hzero⟩ := hcovered
    have hvalid := hrails u hu
    have hmem := hboth u hu
    rw [hone, hzero] at hvalid hmem
    exact ⟨hmem.1, hmem.2, hvalid⟩
  by_cases hone : v.mayBeOne ∈ result.2
  · exact .inr (hwhole _ hone (.inl rfl))
  · by_cases hzero : v.mayBeZero ∈ result.2
    · exact .inr (hwhole _ hzero (.inr rfl))
    · exact .inl ⟨hone, hzero⟩

end Merged

/-! ## A solver model -/

/-- Every active relation is asserted in the partition, or merged there and no more than that. -/
def HypothesesApplied (active part : Candidates p) (allowX : Bool) : Prop :=
  ∀ c ∈ active, c ∈ part ∨
    ((∀ pr ∈ c.equalities, mergeActive active pr.1 = mergeActive active pr.2) ∧
      (allowX = true ∨ c.values = []))

/-- The frame that a model of the merged leaves stands for. Symbols that are not read are set. -/
def unmerged (merged : Nat → Nat) (leaves : List Nat) (m : Valuation) : Valuation := fun s =>
  if merged s ∈ leaves then lit m (merged s) else true

theorem eval_unmerged {merged : Nat → Nat} {leaves : List Nat} {m : Valuation} {e : BoolExpr}
    (h : ∀ x ∈ currentLeaves merged e, x ∈ leaves) :
    (e.mapSymbols merged).eval m = e.eval (unmerged merged leaves m) := by
  rw [BoolExpr.eval_mapSymbols]
  refine BoolExpr.eval_congr fun s hs h2 => ?_
  unfold unmerged
  rw [if_pos (h _ (mem_currentLeaves.mpr ⟨s, hs, h2, rfl⟩))]

theorem eval_mapSymbols_var {merged : Nat → Nat} {s : Nat} (h : 2 ≤ s) (m : Valuation) :
    ((BoolExpr.var s).mapSymbols merged).eval m = lit m (merged s) := by
  rw [BoolExpr.eval_mapSymbols]
  exact lit_of_two_le _ h

/-- What a model of a partition's clauses satisfies. -/
theorem model_of_partitionQuery {part : Candidates p} {merged : Nat → Nat} {allowX : Bool}
    {m : Trace} (hreserved : ∀ s ∈ railSymbols p, 2 ≤ s)
    (h : evalQuery (evalAtom m) (partitionQuery part merged allowX) = true) :
    (∀ s ∈ targets part, ∀ e, p.transitionAt s = some e →
      lit (m 1) s = (e.mapSymbols merged).eval (m 0)) ∧
    (∀ c ∈ part, ((relation c allowX).mapSymbols merged).eval (m 0) = true) ∧
    ∀ u ∈ (coveredRails merged p.dualRailStatePairs (formulaLeaves part merged allowX)).1,
      (lit (m 0) (merged u.mayBeOne) || lit (m 0) (merged u.mayBeZero)) = true := by
  simp only [partitionQuery, evalQuery_append, Bool.and_eq_true] at h
  obtain ⟨⟨⟨⟨hequations, hhypotheses⟩, -⟩, hrails⟩, -⟩ := h
  refine ⟨fun s hs e he => ?_, fun c hc => ?_, fun u hu => ?_⟩
  · rw [evalQuery_flatMap] at hequations
    have hequation := hequations s hs
    rw [he] at hequation
    simpa [encodeNext, encodeCurrent] using hequation
  · rw [evalQuery_map] at hhypotheses
    simpa [encodeCurrent] using hhypotheses c hc
  · rw [evalQuery_map] at hrails
    have hmem : u ∈ p.dualRailStatePairs := mem_coveredRails hu
    have hclause := hrails u hu
    rw [evalClause_pair, encodeCurrent, encodeCurrent, evalLit_encode, evalLit_encode,
      eval_mapSymbols_var (hreserved _ (one_mem_railSymbols hmem)),
      eval_mapSymbols_var (hreserved _ (zero_mem_railSymbols hmem))] at hclause
    exact hclause

section Model
variable {proved active part : Candidates p} {allowX : Bool} (hwf : WellFormed p active)
  (hsub : ∀ c ∈ proved, c ∈ active) (hproved : SelfCertified proved allowX)
  (hpreserves : PreservesRails p) (hpart : ∀ c ∈ part, c ∈ active)
  (hdriven : ∀ c ∈ active, ∀ s ∈ registers c, p.contains s = true)
  (happlied : HypothesesApplied active part allowX)
include hwf hdriven happlied

/-- The frame of a model satisfies every active relation. -/
theorem relationHolds_unmerged {m : Trace} (hm : evalQuery (evalAtom m)
      (partitionQuery part (mergeActive active) allowX) = true) :
    ∀ a ∈ active, RelationHolds a allowX (unmerged (mergeActive active)
      (formulaLeaves part (mergeActive active) allowX) (m 0)) := by
  intro a ha
  rcases happlied a ha with hmem | ⟨hmerged, hvalues⟩
  · have hholds := (model_of_partitionQuery hwf.reserved hm).2.1 a hmem
    rw [eval_unmerged fun x hx => mem_formulaLeaves.mpr (.inr ⟨a, hmem, hx⟩)] at hholds
    exact eval_relation.mp hholds
  · refine ⟨fun pr hpr => ?_, fun hx v hv => ?_⟩
    · have hlhs := two_le_of_contains (hdriven a ha _ (mem_registers.mpr ⟨pr, hpr, .inl rfl⟩))
      have hrhs := two_le_of_contains (hdriven a ha _ (mem_registers.mpr ⟨pr, hpr, .inr rfl⟩))
      rw [lit_of_two_le _ hlhs, lit_of_two_le _ hrhs, unmerged, unmerged, hmerged pr hpr]
    · rcases hvalues with hallow | hnone
      · rw [hallow] at hx
        cases hx
      · rw [hnone] at hv
        cases hv

omit hdriven happlied in
theorem railsValid_unmerged {m : Trace} (hm : evalQuery (evalAtom m)
      (partitionQuery part (mergeActive active) allowX) = true) :
    RailsValid p (unmerged (mergeActive active)
      (formulaLeaves part (mergeActive active) allowX) (m 0)) := by
  rw [railsValid_iff hwf.reserved]
  intro v hv
  by_cases hone : mergeActive active v.mayBeOne ∈ formulaLeaves part (mergeActive active) allowX
  · by_cases hzero : mergeActive active v.mayBeZero ∈
        formulaLeaves part (mergeActive active) allowX
    · have hcovered := (coveredRails_spec (mergeActive active) p.dualRailStatePairs
        (formulaLeaves part (mergeActive active) allowX)).2.2.2 v hv (.inl hone)
      have hvalid := (model_of_partitionQuery hwf.reserved hm).2.2 v hcovered
      rw [unmerged, unmerged, if_pos hone, if_pos hzero]
      exact hvalid
    · simp [unmerged, hzero]
  · simp [unmerged, hone]

include hsub hproved hpreserves hpart

/-- In the next frame of a model all members of a set that certifies itself hold. -/
theorem relationHolds_next {m : Trace} (hm : evalQuery (evalAtom m)
      (partitionQuery part (mergeActive active) allowX) = true)
    {c : InternalRelationCandidate p} (hc : c ∈ part) (hmem : c ∈ proved) :
    RelationHolds c allowX (m 1) := by
  have hnow := relationHolds_unmerged hwf hdriven happlied hm
  have hrails := railsValid_unmerged hwf hm
  generalize hσ : unmerged (mergeActive active)
    (formulaLeaves part (mergeActive active) allowX) (m 0) = σ at hnow hrails
  have hfollows := followsTransitions_stepped (p := p) σ
  have hnext := hproved.certified c hmem σ (stepped p σ) (fun a ha => hnow a (hsub a ha)) hrails
    (hpreserves σ _ hrails hfollows) hfollows
  refine hnext.congr (hwf.relates c (hpart c hc)) fun s hs => ?_
  obtain ⟨e, he⟩ := contains_iff.mp (hdriven c (hpart c hc) s hs)
  have htarget : s ∈ targets part := mem_targets.mpr ⟨c, hc, hs⟩
  rw [lit_stepped he, (model_of_partitionQuery hwf.reserved hm).1 s htarget e he,
    eval_unmerged fun x hx => mem_formulaLeaves.mpr (.inl ⟨s, htarget, e, he, hx⟩), hσ]

end Model

/-! ## Fresh right-hand registers -/

/-- No right-hand register occurs in an earlier pair. -/
def FreshRights (prs : List (Nat × Nat)) : Prop :=
  prs.Pairwise fun earlier later => later.2 ≠ earlier.1 ∧ later.2 ≠ earlier.2

theorem copyPairs_of_freshRights {α : Type} (f : Nat → α) {prs : List (Nat × Nat)}
    (h : FreshRights prs) : ∀ pr ∈ prs, copyPairs prs f pr.1 = copyPairs prs f pr.2 := by
  induction prs using List.reverseRecOn with
  | nil => exact nofun
  | append_singleton prs last ih =>
    obtain ⟨hprs, -, hlast⟩ := List.pairwise_append.mp h
    have hcopy : copyPairs (prs ++ [last]) f =
        Function.update (copyPairs prs f) last.2 (copyPairs prs f last.1) := by
      unfold copyPairs
      rw [List.foldl_append, List.foldl_cons, List.foldl_nil]
    intro pr hpr
    rw [hcopy]
    rcases List.mem_append.mp hpr with hpr | hpr
    · obtain ⟨hlhs, hrhs⟩ := hlast pr hpr last (List.mem_singleton_self _)
      rw [Function.update_of_ne hlhs.symm, Function.update_of_ne hrhs.symm]
      exact ih hprs pr hpr
    · rw [List.mem_singleton.mp hpr, Function.update_self]
      by_cases hsame : last.1 = last.2
      · rw [hsame, Function.update_self]
      · rw [Function.update_of_ne hsame]

/-- Where right-hand registers are fresh the merge map applies every equality. -/
theorem hypothesesApplied_of_freshRights {base active : Candidates p}
    (h : FreshRights (base.flatMap (·.equalities))) (hbase : active.Sublist base)
    (part : Candidates p) : HypothesesApplied active part true := by
  have hmerged : mergeActive active = copyPairs (active.flatMap (·.equalities)) id := by
    unfold mergeActive copyPairs
    rw [List.foldl_flatMap]
  intro c hc
  refine .inr ⟨fun pr hpr => ?_, .inl rfl⟩
  rw [hmerged]
  have hfresh : FreshRights (active.flatMap (·.equalities)) := h.sublist (hbase.flatMap _)
  exact copyPairs_of_freshRights id hfresh pr (List.mem_flatMap.mpr ⟨c, hc, hpr⟩)

/-! ## Partitions and rounds -/

section Rounds
variable {σ : Type} (S : FrameSolver σ)

/-- A property of the partitions of a round, each with the solver state it starts from. -/
def PartitionsMeet (meets : σ → Candidates p → Prop) (active : Candidates p) (allowX : Bool)
    (draws : SimulationDraws) (width : Nat → Nat) : Nat → σ → Nat → (Nat → Bool) → Prop
  | 0, _, _, _ => True
  | fuel + 1, s, first, refuted =>
    active.length ≤ first ∨
      let part := (active.drop first).take (width first + 1)
      let next := solvePartition S s active part first allowX draws refuted
      meets s part ∧
        PartitionsMeet meets active allowX draws width fuel next.2 (first + part.length) next.1

/-- A property of the active candidates and the partitions of every round up to the fixed
point. -/
def RoundsMeet (meets : Candidates p → σ → Candidates p → Prop) (allowX : Bool)
    (draws : Nat → SimulationDraws) (width : Nat → Nat → Nat) : Nat → Nat → σ → Candidates p → Prop
  | 0, _, _, _ => True
  | rounds + 1, round, s, active =>
    let next :=
      solvePartitions S active allowX (draws round) (width round) active.length s 0 fun _ => false
    PartitionsMeet S (meets active) active allowX (draws round) (width round) active.length s 0
        (fun _ => false) ∧
      ((List.range active.length).any next.1 = true →
        RoundsMeet meets allowX draws width rounds (round + 1) next.2
          (dropRefuted active next.1))

/-- The query of a partition is not answered by `Unknown`. -/
def Decided (allowX : Bool) (active : Candidates p) (s : σ) (part : Candidates p) : Prop :=
  (S.solve s (partitionQuery part (mergeActive active) allowX) [allTogether] batchLimits).1 ≠
    .unknown

theorem dropRefuted_sublist (active : Candidates p) (refuted : Nat → Bool) :
    (dropRefuted active refuted).Sublist active := by
  have hsub : (dropRefuted active refuted).Sublist (active.zipIdx.map Prod.fst) :=
    List.filter_sublist.map Prod.fst
  rwa [List.zipIdx_map_fst] at hsub

/-- What every sublist of the candidates meets is met in every round. -/
theorem roundsMeet_of_sublist {meets : Candidates p → σ → Candidates p → Prop}
    {base active : Candidates p} (h : ∀ active : Candidates p, active.Sublist base →
      ∀ s part, meets active s part) (hbase : active.Sublist base) (allowX : Bool)
    (draws : Nat → SimulationDraws) (width : Nat → Nat → Nat) (rounds round : Nat) (s : σ) :
    RoundsMeet S meets allowX draws width rounds round s active := by
  induction rounds generalizing round s active with
  | zero => exact trivial
  | succ rounds ih =>
    refine ⟨?_, fun _ => ih ((dropRefuted_sublist _ _).trans hbase) _ _⟩
    have hround : ∀ fuel s first refuted,
        PartitionsMeet S (meets active) active allowX (draws round) (width round) fuel s first
          refuted := by
      intro fuel
      induction fuel with
      | zero => exact fun _ _ _ => trivial
      | succ fuel ih => exact fun s first refuted => .inr ⟨h active hbase _ _, ih _ _ _⟩
    exact hround _ _ _ _

section Keeps
variable {S} {proved active : Candidates p} {allowX : Bool} (hwf : WellFormed p active)
  (hsub : ∀ c ∈ proved, c ∈ active) (hproved : SelfCertified proved allowX)
  (hpreserves : PreservesRails p)
  (hdriven : ∀ c ∈ active, ∀ s ∈ registers c, p.contains s = true)
include hwf hsub hproved hpreserves hdriven

theorem solvePartition_keeps {s : σ} {part : Candidates p} {first : Nat} {draws : SimulationDraws}
    {refuted : Nat → Bool} (hsegment : ∀ j c, part[j]? = some c → active[first + j]? = some c)
    (happlied : HypothesesApplied active part allowX)
    (hdecided : Decided S allowX active s part)
    (hrefuted : ∀ i c, active[i]? = some c → c ∈ proved → refuted i = false) :
    ∀ i c, active[i]? = some c → c ∈ proved →
      (solvePartition S s active part first allowX draws refuted).1 i = false := by
  intro i c hi hc
  have hpart : ∀ d ∈ part, d ∈ active := by
    intro d hd
    obtain ⟨j, hj⟩ := List.mem_iff_getElem?.mp hd
    exact List.mem_of_getElem? (hsegment j d hj)
  unfold solvePartition
  dsimp only
  split
  · exact hrefuted i c hi hc
  · rename_i hsolve
    exact absurd (congrArg Prod.fst hsolve) hdecided
  · rename_i m s' hsolve
    obtain ⟨hm, -⟩ := S.sat_sound s _ [allTogether] batchLimits m (congrArg Prod.fst hsolve)
    have hpairs := leafValues_pairs hwf (model_of_partitionQuery hwf.reserved hm).2.2
    have hsimulated := refuteBySimulation_keeps hwf hsub hproved hpreserves hdriven draws hpairs
      hrefuted i c hi hc
    unfold leafValues
    dsimp only
    rw [hsimulated, Bool.false_or, Bool.and_eq_false_iff]
    by_cases hfirst : first ≤ i
    · refine .inr ?_
      rw [List.getElem?_map]
      cases hj : part[i - first]? with
      | none => rfl
      | some d =>
        have hsame := hsegment _ d hj
        rw [show first + (i - first) = i by omega, hi] at hsame
        obtain rfl := Option.some.inj hsame
        have hholds := relationHolds_next hwf hsub hproved hpreserves hpart hdriven happlied hm
          (List.mem_of_getElem? hj) hc
        simpa [encodeNext] using eval_relation.mpr hholds
    · exact .inl (decide_eq_false hfirst)

theorem solvePartitions_keeps {width : Nat → Nat} {draws : SimulationDraws} {fuel first : Nat}
    {s : σ} {refuted : Nat → Bool}
    (happlied : PartitionsMeet S (fun _ part => HypothesesApplied active part allowX) active allowX
      draws width fuel s first refuted)
    (hdecided : PartitionsMeet S (Decided S allowX active) active allowX draws width fuel s first
      refuted)
    (hrefuted : ∀ i c, active[i]? = some c → c ∈ proved → refuted i = false) :
    ∀ i c, active[i]? = some c → c ∈ proved →
      (solvePartitions S active allowX draws width fuel s first refuted).1 i = false := by
  induction fuel generalizing s first refuted with
  | zero => exact hrefuted
  | succ fuel ih =>
    intro i c hi hc
    unfold solvePartitions
    split
    · exact hrefuted i c hi hc
    · rename_i hmore
      obtain ⟨hfirst, hrest⟩ := hdecided.resolve_left hmore
      obtain ⟨hfirst', hrest'⟩ := happlied.resolve_left hmore
      refine ih hrest' hrest (fun j d hj hd => ?_) i c hi hc
      refine solvePartition_keeps hwf hsub hproved hpreserves hdriven (fun j d hj => ?_)
        hfirst' hfirst hrefuted j d hj hd
      have hlt := (List.getElem?_eq_some_iff.mp hj).1
      rw [List.length_take] at hlt
      rw [List.getElem?_take_of_lt (by omega), List.getElem?_drop] at hj
      exact hj

end Keeps

theorem mem_dropRefuted {active : Candidates p} {refuted : Nat → Bool} {i : Nat}
    {c : InternalRelationCandidate p} (hi : active[i]? = some c) (h : refuted i = false) :
    c ∈ dropRefuted active refuted := by
  refine List.mem_map.mpr ⟨(c, i), List.mem_filter.mpr ⟨?_, by simp [h]⟩, rfl⟩
  exact List.mk_mem_zipIdx_iff_getElem?.mpr hi

/-- A set that certifies itself survives until the fixed point. -/
theorem refine_keeps {base proved active : Candidates p} {allowX : Bool}
    {draws : Nat → SimulationDraws} {width : Nat → Nat → Nat} {rounds round : Nat} {s : σ}
    (hwf : WellFormed p base) (hbase : active.Sublist base) (hsub : ∀ c ∈ proved, c ∈ active)
    (hproved : SelfCertified proved allowX) (hpreserves : PreservesRails p)
    (hdriven : ∀ c ∈ base, ∀ s ∈ registers c, p.contains s = true)
    (happlied : RoundsMeet S (fun active _ part => HypothesesApplied active part allowX) allowX
      draws width rounds round s active)
    (hdecided : RoundsMeet S (Decided S allowX) allowX draws width rounds round s active)
    (hreached : ¬ EveryRoundRefutes S allowX draws width rounds round s active) :
    ∀ c ∈ proved, ∀ pr ∈ c.equalities,
      pr ∈ (refine S allowX draws width rounds round s active).1 := by
  induction rounds generalizing round s active with
  | zero => exact absurd trivial hreached
  | succ rounds ih =>
    intro c hc pr hpr
    have hmem := hsub c hc
    unfold refine
    split
    · rename_i hempty
      rw [List.isEmpty_iff.mp hempty] at hmem
      cases hmem
    · dsimp only
      have hfirst : ∀ i c, active[i]? = some c → c ∈ proved → (fun _ : Nat => false) i = false :=
        fun _ _ _ _ => rfl
      have hsurvives := solvePartitions_keeps (hwf.subset fun d hd => hbase.subset hd) hsub hproved
        hpreserves (fun d hd => hdriven d (hbase.subset hd)) happlied.1 hdecided.1 hfirst
      split
      · rename_i hrefutes
        have hrest := fun h => hreached ⟨hrefutes, h⟩
        refine ih ((dropRefuted_sublist _ _).trans hbase) (fun d hd => ?_)
          (happlied.2 hrefutes) (hdecided.2 hrefutes) hrest c hc pr hpr
        obtain ⟨i, hi⟩ := List.mem_iff_getElem?.mp (hsub d hd)
        exact mem_dropRefuted hi (hsurvives i d hi hd)
      · exact List.mem_toFinset.mpr (List.mem_flatMap.mpr ⟨c, hmem, hpr⟩)

end Rounds

/-! ## The greatest set -/

/-- Candidates that hold at boot and keep one another along every step. -/
structure JointlyInductive (candidates : Candidates p) (allowX : Bool) (proved : Candidates p) :
    Prop where
  candidate : ∀ c ∈ proved, c ∈ candidates
  base : ∀ c ∈ proved, baseHolds c allowX = true
  certified : ∀ c ∈ proved, Certified proved allowX c

/-- The pairs of the greatest inductive set. -/
def greatestPairs (candidates : Candidates p) (allowX : Bool) : Set (Nat × Nat) :=
  {pr | ∃ proved, JointlyInductive candidates allowX proved ∧ ∃ c ∈ proved, pr ∈ c.equalities}

theorem registers_driven {c : InternalRelationCandidate p} {allowX : Bool}
    (h : baseHolds c allowX = true) : ∀ s ∈ registers c, p.contains s = true := by
  intro s hs
  simp only [baseHolds, Bool.and_eq_true, List.all_eq_true] at h
  obtain ⟨pr, hpr, hside⟩ := mem_registers.mp hs
  obtain ⟨⟨-, hlhs⟩, hrhs⟩ := h.1.2 pr hpr
  rcases hside with rfl | rfl
  · exact hlhs
  · exact hrhs

section Greatest
variable {σ : Type} (S : FrameSolver σ) (s : σ) (candidates : Candidates p)
  (options : InternalRelationOptions) (draws : Nat → SimulationDraws) (width : Nat → Nat → Nat)

/-- The candidates that hold at boot. -/
def baseCandidates : Candidates p :=
  candidates.filter (baseHolds · options.allowXEqualityInInternalRelations)

/-- The learner runs, no query is undecided, and a round within the limit refutes nothing. -/
structure FixpointReached : Prop where
  learns : options.learnInternalRelations = true
  measured : exceedsLogicLimit (baseCandidates candidates options) kLogicNodeLimit = false
  decided : RoundsMeet S (Decided S options.allowXEqualityInInternalRelations)
    options.allowXEqualityInInternalRelations draws width 64 0 s (baseCandidates candidates options)
  reached : ¬ EveryRoundRefutes S options.allowXEqualityInInternalRelations draws width 64 0 s
    (baseCandidates candidates options)

/-- Every partition of the run works under all hypotheses of its round. -/
def EveryHypothesisApplied : Prop :=
  RoundsMeet S (fun active _ part =>
    HypothesesApplied active part options.allowXEqualityInInternalRelations)
    options.allowXEqualityInInternalRelations draws width 64 0 s (baseCandidates candidates options)

/-- The result is the pairs of the greatest inductive set. -/
def ReturnsGreatest : Prop :=
  ∀ pr, pr ∈ (proveInternalRelations S s p candidates options draws width).1 ↔
    pr ∈ greatestPairs candidates options.allowXEqualityInInternalRelations

variable {S s candidates options draws width}

/-- No relation is lost when every partition works under all hypotheses of its round. -/
theorem returnsGreatest_of_applied (hwf : WellFormed p candidates)
    (hpreserves : PreservesRails p) (hreached : FixpointReached S s candidates options draws width)
    (happlied : EveryHypothesisApplied S s candidates options draws width) :
    ReturnsGreatest S s candidates options draws width := by
  intro pr
  have hbase : ∀ c ∈ baseCandidates candidates options,
      baseHolds c options.allowXEqualityInInternalRelations = true :=
    fun c hc => (List.mem_filter.mp hc).2
  have hrun : (proveInternalRelations S s p candidates options draws width).1 =
      if candidates.isEmpty then ∅ else
        (refine S options.allowXEqualityInInternalRelations draws width 64 0 s
          (baseCandidates candidates options)).1 := by
    unfold proveInternalRelations
    have hmeasured := hreached.measured
    unfold baseCandidates at hmeasured ⊢
    rw [hreached.learns]
    cases candidates.isEmpty with
    | true => rfl
    | false => simp [hmeasured]
  rw [hrun]
  constructor
  · intro h
    split at h
    · simp at h
    · have hcomplete : ∀ c ∈ baseCandidates candidates options, c.Complete :=
        fun c hc => (hwf.relates c (List.mem_filter.mp hc).1).complete
      obtain ⟨proved, hsub, hcertified, c, hc, hmem⟩ := refine_certified hcomplete h
      refine ⟨proved, ⟨fun d hd => ?_, fun d hd => hbase d (hsub d hd), hcertified⟩, c, hc, hmem⟩
      exact (List.mem_filter.mp (hsub d hd)).1
  · intro h
    obtain ⟨proved, hproved, c, hc, hmem⟩ := h
    have hsub : ∀ d ∈ proved, d ∈ baseCandidates candidates options := fun d hd =>
      List.mem_filter.mpr ⟨hproved.candidate d hd, hproved.base d hd⟩
    have hself : SelfCertified proved options.allowXEqualityInInternalRelations :=
      ⟨fun d hd => registers_driven (hproved.base d hd), hproved.certified⟩
    rw [if_neg fun hempty => by
      have hcandidate := hproved.candidate c hc
      rw [List.isEmpty_iff.mp hempty] at hcandidate
      cases hcandidate]
    exact refine_keeps S (hwf.subset fun d hd => (List.mem_filter.mp hd).1) (List.Sublist.refl _)
      hsub hself hpreserves (fun d hd => registers_driven (hbase d hd)) happlied hreached.decided
      hreached.reached c hc pr hmem

end Greatest

/-! ## Three registers -/

/-- A chained list of two candidates over Boolean registers. -/
def pairCandidates (p : KInductionProblem) (first second : Nat × Nat) : Candidates p :=
  [⟨[first], []⟩, ⟨[second], []⟩]

theorem pairCandidates_wellFormed {p : KInductionProblem} (hrails : p.dualRailStatePairs = [])
    {first second : Nat × Nat}
    (hknown : ∀ s ∈ [first.1, first.2, second.1, second.2], s ∈ p.allSymbols) :
    WellFormed p (pairCandidates p first second) := by
  have hnone : railSymbols p = [] := by rw [railSymbols, hrails, List.flatMap_nil]
  have hbits : ∀ s, s ∉ railSymbols p := fun s hs => by
    rw [hnone] at hs
    cases hs
  refine ⟨fun c hc => ?_, fun c hc pr hpr => ?_, fun s hs => absurd hs (hbits s), ?_⟩
  · rcases List.mem_pair.mp hc with rfl | rfl
    · exact .bits first.1 first.2 (hbits _) (hbits _) rfl rfl
    · exact .bits second.1 second.2 (hbits _) (hbits _) rfl rfl
  · rcases List.mem_pair.mp hc with rfl | rfl
    · obtain rfl := List.mem_singleton.mp hpr
      exact ⟨hknown _ (by simp), hknown _ (by simp)⟩
    · obtain rfl := List.mem_singleton.mp hpr
      exact ⟨hknown _ (by simp), hknown _ (by simp)⟩
  · rw [hnone]
    exact List.nodup_nil

theorem preservesRails_of_none {p : KInductionProblem} (hrails : p.dualRailStatePairs = []) :
    PreservesRails p := by
  intro σ σ' _ _ v hv
  rw [hrails] at hv
  cases hv

def zeroDraws : Nat → SimulationDraws := fun _ => ⟨fun _ => 0, fun _ => 0, fun _ _ => 0⟩

/-- The chain 2 = 3, 3 = 4 is returned, each pair from a partition of its own. -/
theorem returnsGreatest_sampled : ReturnsGreatest exhaustiveSolver ()
    (pairCandidates sampledProblem (2, 3) (3, 4)) {} zeroDraws fun _ _ => 0 := by
  have hreached : FixpointReached exhaustiveSolver ()
      (pairCandidates sampledProblem (2, 3) (3, 4)) {} zeroDraws fun _ _ => 0 := by
    refine ⟨rfl, by decide +kernel, ?_, fun h => ?_⟩
    · exact roundsMeet_of_sublist _ (fun _ _ _ _ => exhaustiveSolver_decides _ _ _ _)
        (List.Sublist.refl _) _ _ _ _ _ _
    · unfold EveryRoundRefutes at h
      exact absurd h.1 (by decide +kernel)
  refine returnsGreatest_of_applied (pairCandidates_wellFormed rfl (by decide))
    (preservesRails_of_none rfl) hreached ?_
  refine roundsMeet_of_sublist _ (fun active hsub _ part => ?_) (List.Sublist.refl _) _ _ _ _ _ _
  refine hypothesesApplied_of_freshRights ?_ (hsub.trans List.filter_sublist) part
  unfold FreshRights
  decide

/-- Registers that start cleared; registers 2 and 4 keep their values and 3 copies 2. -/
def overlapProblem : KInductionProblem where
  initialStateAssignments := [(2, false), (3, false), (4, false)]
  state0Symbols := [3, 2]
  state1Symbols := [4]
  allSymbols := [2, 3, 4]
  transitions0 := [(2, .var 2), (3, .var 2)]
  transitions1 := [(4, .var 4)]
  property := .var 1
  bad := .var 0

theorem overlap_jointlyInductive : JointlyInductive
    (pairCandidates overlapProblem (2, 4) (3, 4)) true
    (pairCandidates overlapProblem (2, 4) (3, 4)) := by
  refine ⟨fun _ h => h, by decide, fun c hc σ σ' hactive _ _ hstep => ?_⟩
  have h2 : lit σ' 2 = lit σ 2 := hstep 2 (.var 2) (by decide)
  have h3 : lit σ' 3 = lit σ 2 := hstep 3 (.var 2) (by decide)
  have h4 : lit σ' 4 = lit σ 4 := hstep 4 (.var 4) (by decide)
  have hequal : lit σ 2 = lit σ 4 :=
    (hactive ⟨[(2, 4)], []⟩ List.mem_cons_self).equal (2, 4) (List.mem_singleton_self _)
  rcases List.mem_pair.mp hc with rfl | rfl
  · refine ⟨fun pr hpr => ?_, nofun⟩
    obtain rfl := List.mem_singleton.mp hpr
    exact h2.trans (hequal.trans h4.symm)
  · refine ⟨fun pr hpr => ?_, nofun⟩
    obtain rfl := List.mem_singleton.mp hpr
    exact h3.trans (hequal.trans h4.symm)

/-- The pair 3 = 4 overwrites the merge of 4 with 2, so its own partition does not assume 2 = 4
and drops it; in one partition it is kept. -/
theorem overlap_not_returnsGreatest :
    WellFormed overlapProblem (pairCandidates overlapProblem (2, 4) (3, 4)) ∧
    PreservesRails overlapProblem ∧
    FixpointReached exhaustiveSolver () (pairCandidates overlapProblem (2, 4) (3, 4)) {} zeroDraws
      (fun _ _ => 0) ∧
    (proveInternalRelations exhaustiveSolver () overlapProblem
      (pairCandidates overlapProblem (2, 4) (3, 4)) {} zeroDraws fun _ _ => 1).1 =
        {(2, 4), (3, 4)} ∧
    ¬ ReturnsGreatest exhaustiveSolver () (pairCandidates overlapProblem (2, 4) (3, 4)) {} zeroDraws
      fun _ _ => 0 := by
  refine ⟨pairCandidates_wellFormed rfl (by decide), preservesRails_of_none rfl,
    ⟨rfl, by decide +kernel, ?_, fun h => ?_⟩, by decide +kernel, fun h => ?_⟩
  · exact roundsMeet_of_sublist _ (fun _ _ _ _ => exhaustiveSolver_decides _ _ _ _)
      (List.Sublist.refl _) _ _ _ _ _ _
  · unfold EveryRoundRefutes at h
    have hsecond := h.2
    unfold EveryRoundRefutes at hsecond
    exact absurd hsecond.1 (by decide +kernel)
  · have hkept := (h (3, 4)).mpr ⟨_, overlap_jointlyInductive, ⟨[(3, 4)], []⟩,
      by simp [pairCandidates], List.mem_singleton_self _⟩
    exact absurd hkept (by decide +kernel)

end InternalRelations
end KeplerFormal
