import Mathlib.Data.Finset.Lattice.Fold
import KeplerFormal.L2Problem.System

/-!
# Cones of influence (`BaseCaseSolver.cpp`, `InductionStepSolver.cpp`)

Both queries of k-induction unroll only the state symbols their formulas can
read. The two files hold the same helpers, so they stand here once: the
backwards walk over frames, the relation partners of the solver symbols and the
clauses of relations and transitions.

* `requiredBack`: the states required in the frame `j` steps before the last.
* `ReadWithin`: what can be read within `d` transitions; `requiredBack_readWithin`
  bounds the walk by it.
* `lit_successor_congr`: two frames that agree on what the transition of a state reads
  agree on the state in the next frame.
* `evalQuery_addRelations`, `evalQuery_addTransitionRelation`: what the clauses say.
* `encodeLeaves`: a formula is encoded over literals that may be missing.
-/
namespace KeplerFormal

open Core

/-- The elements in increasing order.
mirrors src/sec/kinduction/BaseCaseSolver.cpp:424-428 -/
def sortedSymbols (X : Finset Nat) : List Nat := (List.range (X.sup id + 1)).filter (· ∈ X)

@[simp] theorem mem_sortedSymbols {X : Finset Nat} {s : Nat} : s ∈ sortedSymbols X ↔ s ∈ X := by
  simp only [sortedSymbols, List.mem_filter, List.mem_range, decide_eq_true_eq, and_iff_right_iff_imp]
  intro h
  exact Nat.lt_succ_of_le (Finset.le_sup (f := id) h)

namespace KInductionProblem
variable (p : KInductionProblem)

/-- `auxiliaryStateSymbols` is not part of the set.
mirrors src/sec/kinduction/BaseCaseSolver.cpp:357-363, InductionStepSolver.cpp:297-303 -/
def buildStateSymbolSet : Finset Nat := (p.state0Symbols ++ p.state1Symbols).toFinset

/-- mirrors src/sec/kinduction/BaseCaseSolver.cpp:456-468 -/
def addFormulaStateSupport (e : BoolExpr) : Finset Nat :=
  e.getSupportVars.filter (· ∈ p.buildStateSymbolSet)

/-- mirrors src/sec/kinduction/BaseCaseSolver.cpp:470-479 -/
def addFormulaSupport (e : BoolExpr) : Finset Nat := e.getSupportVars.filter (2 ≤ ·)

/-- mirrors src/sec/kinduction/BaseCaseSolver.cpp:524-529 -/
def closeSameFrameStateEqualityDependencies (X : Finset Nat) : Finset Nat :=
  let X := closePairs p.sameFrameStateEqualityPairs0.length p.sameFrameStateEqualityPairs0 X
  closePairs p.sameFrameStateEqualityPairs1.length p.sameFrameStateEqualityPairs1 X

/-- The transition that drives a symbol: its own, or the one of its primary. -/
def transitionTarget (s : Nat) : Finset Nat :=
  if p.contains s then {s}
  else match p.primaryByComplement s with
    | some a => if p.contains a then {a} else ∅
    | none => ∅

/-- mirrors src/sec/kinduction/BaseCaseSolver.cpp:489-510 -/
def expandTransitionTargets (X : Finset Nat) : Finset Nat := X.biUnion p.transitionTarget

/-- mirrors src/sec/proof/TransitionExprResolver.cpp:502-616 -/
def collectSupportForTargets (targets : Finset Nat) : Finset Nat :=
  targets.biUnion p.transitionSupport

/-- The walk from the last frame backwards, by distance from the last frame: the
seed of the frame and the state support of the targets of the frame after it,
closed under the same-frame equalities. -/
def requiredBack (seed : Nat → Finset Nat) (last : Nat) : Nat → Finset Nat
  | 0 => p.closeSameFrameStateEqualityDependencies (seed last)
  | j + 1 =>
    p.closeSameFrameStateEqualityDependencies
      (seed (last - (j + 1)) ∪
        (p.collectSupportForTargets (p.expandTransitionTargets (requiredBack seed last j))).filter
          (· ∈ p.buildStateSymbolSet))

def requiredStates (seed : Nat → Finset Nat) (last frame : Nat) : Finset Nat :=
  p.requiredBack seed last (last - frame)

/-- `transitionTargetsByFrame[frame]`: the symbols of frame `frame + 1` with an
equation over frame `frame`. -/
def transitionTargets (seed : Nat → Finset Nat) (last frame : Nat) : Finset Nat :=
  p.expandTransitionTargets (p.requiredStates seed last (frame + 1))

/-- All symbols of the walk: required states, targets and what the targets read. -/
def coneSymbols (seed : Nat → Finset Nat) (last : Nat) : Finset Nat :=
  (Finset.range (last + 1)).biUnion (p.requiredStates seed last) ∪
    (Finset.range last).biUnion fun frame =>
      p.transitionTargets seed last frame ∪
        p.collectSupportForTargets (p.transitionTargets seed last frame)

/-- The passes over the relation pairs, in their order: complements, equalities
(closed), rails.
mirrors src/sec/kinduction/BaseCaseSolver.cpp:629-632 -/
def addRelationPartners (X : Finset Nat) : Finset Nat :=
  let X := addPartners p.complementedStatePairs0 X
  let X := addPartners p.complementedStatePairs1 X
  let X := p.closeSameFrameStateEqualityDependencies X
  addPartners p.railPairs X

/-! ## Clauses -/

/-- mirrors src/sec/kinduction/BaseCaseSolver.cpp:1066-1085 -/
def addComplementedStateRelations (pairs : List (Nat × Nat)) (solverSymbols : Finset Nat)
    (numFrames : Nat) : FrameQuery :=
  (List.range numFrames).flatMap fun frame =>
    (pairs.filter fun pr => pr.1 ∈ solverSymbols ∧ pr.2 ∈ solverSymbols).flatMap fun pr =>
      addLiteralEquivalence (getLiteral pr.2 frame) (getLiteral pr.1 frame).neg

/-- mirrors src/sec/kinduction/BaseCaseSolver.cpp:1087-1105 -/
def addSameFrameStateEqualities (pairs : List (Nat × Nat)) (solverSymbols : Finset Nat)
    (numFrames : Nat) : FrameQuery :=
  (List.range numFrames).flatMap fun frame =>
    (pairs.filter fun pr => pr.1 ∈ solverSymbols ∧ pr.2 ∈ solverSymbols).flatMap fun pr =>
      addLiteralEquivalence (getLiteral pr.1 frame) (getLiteral pr.2 frame)

/-- mirrors src/sec/kinduction/BaseCaseSolver.cpp:1124-1146 -/
def addDualRailStateValidity (railPairs : List (Nat × Nat)) (solverSymbols : Finset Nat)
    (numFrames : Nat) : FrameQuery :=
  (List.range numFrames).flatMap fun frame =>
    (railPairs.filter fun pr => pr.1 ∈ solverSymbols ∧ pr.2 ∈ solverSymbols).map fun pr =>
      [getLiteral pr.1 frame, getLiteral pr.2 frame]

/-- The relation clauses of both queries, in their order. -/
def addRelations (solverSymbols : Finset Nat) (numFrames : Nat) : FrameQuery :=
  addComplementedStateRelations p.complementedStatePairs0 solverSymbols numFrames ++
  addComplementedStateRelations p.complementedStatePairs1 solverSymbols numFrames ++
  addSameFrameStateEqualities p.sameFrameStateEqualityPairs0 solverSymbols numFrames ++
  addSameFrameStateEqualities p.sameFrameStateEqualityPairs1 solverSymbols numFrames ++
  addDualRailStateValidity p.railPairs solverSymbols numFrames

/-- mirrors src/sec/kinduction/BaseCaseSolver.cpp:1160-1209 -/
def addTransitionRelation (targets : List Nat) (frame : Nat) : FrameQuery :=
  targets.flatMap fun t => match p.transitionAt t with
    | some e => addLiteralEquivalence (getLiteral t (frame + 1)) (encode frame e)
    | none => []

/-- The relations of one frame between the symbols the solver holds. -/
structure DomainValidOn (solverSymbols : Finset Nat) (σ : Valuation) : Prop where
  complemented : ∀ pr ∈ p.complementedStatePairs, pr.1 ∈ solverSymbols → pr.2 ∈ solverSymbols →
    lit σ pr.2 = !lit σ pr.1
  equal : ∀ pr ∈ p.sameFrameStateEqualityPairs, pr.1 ∈ solverSymbols → pr.2 ∈ solverSymbols →
    lit σ pr.1 = lit σ pr.2
  rails : ∀ pr ∈ p.railPairs, pr.1 ∈ solverSymbols → pr.2 ∈ solverSymbols →
    (lit σ pr.1 || lit σ pr.2) = true

variable {p}

theorem DomainValid.on {σ : Valuation} (h : p.DomainValid σ) (X : Finset Nat) :
    p.DomainValidOn X σ where
  complemented pr hpr _ _ := h.complemented pr hpr
  equal pr hpr _ _ := h.equal pr hpr
  rails pr hpr _ _ := by
    obtain ⟨r, hr, rfl⟩ := List.mem_map.mp hpr
    exact h.rails r hr

theorem evalQuery_addComplementedStateRelations {τ : Trace} {pairs : List (Nat × Nat)}
    {X : Finset Nat} {n : Nat} :
    evalQuery (evalAtom τ) (addComplementedStateRelations pairs X n) = true ↔
      ∀ f < n, ∀ pr ∈ pairs, pr.1 ∈ X → pr.2 ∈ X → lit (τ f) pr.2 = !lit (τ f) pr.1 := by
  simp [addComplementedStateRelations, evalQuery_flatMap]

theorem evalQuery_addSameFrameStateEqualities {τ : Trace} {pairs : List (Nat × Nat)}
    {X : Finset Nat} {n : Nat} :
    evalQuery (evalAtom τ) (addSameFrameStateEqualities pairs X n) = true ↔
      ∀ f < n, ∀ pr ∈ pairs, pr.1 ∈ X → pr.2 ∈ X → lit (τ f) pr.1 = lit (τ f) pr.2 := by
  simp [addSameFrameStateEqualities, evalQuery_flatMap]

theorem evalQuery_addDualRailStateValidity {τ : Trace} {pairs : List (Nat × Nat)}
    {X : Finset Nat} {n : Nat} :
    evalQuery (evalAtom τ) (addDualRailStateValidity pairs X n) = true ↔
      ∀ f < n, ∀ pr ∈ pairs, pr.1 ∈ X → pr.2 ∈ X → (lit (τ f) pr.1 || lit (τ f) pr.2) = true := by
  simp [addDualRailStateValidity, evalQuery_flatMap, evalQuery_map]

theorem evalQuery_addRelations {τ : Trace} {X : Finset Nat} {n : Nat} :
    evalQuery (evalAtom τ) (p.addRelations X n) = true ↔ ∀ f < n, p.DomainValidOn X (τ f) := by
  simp only [addRelations, evalQuery_append, Bool.and_eq_true,
    evalQuery_addComplementedStateRelations, evalQuery_addSameFrameStateEqualities,
    evalQuery_addDualRailStateValidity]
  constructor
  · rintro ⟨⟨⟨⟨hc0, hc1⟩, he0⟩, he1⟩, hr⟩ f hf
    refine ⟨fun pr hpr => ?_, fun pr hpr => ?_, hr f hf⟩
    · exact (List.mem_append.mp hpr).elim (hc0 f hf pr) (hc1 f hf pr)
    · exact (List.mem_append.mp hpr).elim (he0 f hf pr) (he1 f hf pr)
  · intro h
    refine ⟨⟨⟨⟨fun f hf pr hpr => ?_, fun f hf pr hpr => ?_⟩, fun f hf pr hpr => ?_⟩,
      fun f hf pr hpr => ?_⟩, fun f hf => (h f hf).rails⟩
    · exact (h f hf).complemented pr (List.mem_append_left _ hpr)
    · exact (h f hf).complemented pr (List.mem_append_right _ hpr)
    · exact (h f hf).equal pr (List.mem_append_left _ hpr)
    · exact (h f hf).equal pr (List.mem_append_right _ hpr)

theorem evalQuery_addTransitionRelation {τ : Trace} {targets : List Nat} {f : Nat} :
    evalQuery (evalAtom τ) (p.addTransitionRelation targets f) = true ↔
      ∀ t ∈ targets, ∀ e, p.transitionAt t = some e → lit (τ (f + 1)) t = e.eval (τ f) := by
  simp only [addTransitionRelation, evalQuery_flatMap]
  refine forall₂_congr fun t _ => ?_
  cases h : p.transitionAt t with
  | none => simp
  | some e => simp

/-! ## What a cone can read -/

/-- Symbols that formulas over `roots` read within `d` transitions, following the
same-frame equalities. -/
inductive ReadWithin (p : KInductionProblem) (roots : Finset Nat) : Nat → Nat → Prop where
  | root {d s : Nat} (h : s ∈ roots) : ReadWithin p roots d s
  | equal {d s x : Nat} (hs : ReadWithin p roots d s)
      (h : (s, x) ∈ p.sameFrameStateEqualityPairs ∨ (x, s) ∈ p.sameFrameStateEqualityPairs) :
      ReadWithin p roots d x
  | transition {d s t x : Nat} (hs : ReadWithin p roots d s) (ht : t ∈ p.transitionTarget s)
      (hx : x ∈ p.transitionSupport t) : ReadWithin p roots (d + 1) x

theorem ReadWithin.mono {roots : Finset Nat} {d d' s : Nat} (h : p.ReadWithin roots d s)
    (hd : d ≤ d') : p.ReadWithin roots d' s := by
  induction h generalizing d' with
  | root h => exact .root h
  | equal _ h ih => exact .equal (ih hd) h
  | transition _ ht hx ih =>
    obtain ⟨d'', rfl⟩ : ∃ d'', d' = d'' + 1 := ⟨d' - 1, by omega⟩
    exact .transition (ih (by omega)) ht hx

theorem subset_closeSameFrameStateEqualityDependencies (X : Finset Nat) :
    X ⊆ p.closeSameFrameStateEqualityDependencies X :=
  (subset_closePairs _ _ _).trans (subset_closePairs _ _ _)

theorem closeSameFrame_induction {P : Nat → Prop} {X : Finset Nat} (hX : ∀ s ∈ X, P s)
    (hP : ∀ pr ∈ p.sameFrameStateEqualityPairs, P pr.1 ↔ P pr.2) :
    ∀ s ∈ p.closeSameFrameStateEqualityDependencies X, P s := by
  refine closePairs_induction (closePairs_induction hX fun pr hpr => ?_) fun pr hpr => ?_
  · exact hP pr (List.mem_append_left _ hpr)
  · exact hP pr (List.mem_append_right _ hpr)

theorem mem_expandTransitionTargets {X : Finset Nat} {t : Nat} :
    t ∈ p.expandTransitionTargets X ↔ ∃ s ∈ X, t ∈ p.transitionTarget s := by
  simp [expandTransitionTargets]

theorem mem_collectSupportForTargets {X : Finset Nat} {x : Nat} :
    x ∈ p.collectSupportForTargets X ↔ ∃ t ∈ X, x ∈ p.transitionSupport t := by
  simp [collectSupportForTargets]

/-- What the targets of a frame read is one transition further than the frame. -/
theorem readWithin_support {roots X : Finset Nat} {d x : Nat}
    (hX : ∀ s ∈ X, p.ReadWithin roots d s)
    (hx : x ∈ p.collectSupportForTargets (p.expandTransitionTargets X)) :
    p.ReadWithin roots (d + 1) x := by
  obtain ⟨t, ht, hxt⟩ := mem_collectSupportForTargets.mp hx
  obtain ⟨s, hs, hts⟩ := mem_expandTransitionTargets.mp ht
  exact .transition (hX s hs) hts hxt

theorem requiredBack_readWithin {seed : Nat → Finset Nat} {roots : Finset Nat} {last : Nat}
    (hseed : ∀ f ≤ last, seed f ⊆ roots) (j : Nat) :
    ∀ s ∈ p.requiredBack seed last j, p.ReadWithin roots j s := by
  have hclosed : ∀ d, ∀ pr ∈ p.sameFrameStateEqualityPairs,
      p.ReadWithin roots d pr.1 ↔ p.ReadWithin roots d pr.2 := fun d pr hpr =>
    ⟨fun h => .equal h (.inl hpr), fun h => .equal h (.inr hpr)⟩
  induction j with
  | zero =>
    refine closeSameFrame_induction (fun s hs => .root (hseed last (Nat.le_refl _) hs)) (hclosed 0)
  | succ j ih =>
    refine closeSameFrame_induction (fun s hs => ?_) (hclosed (j + 1))
    rcases Finset.mem_union.mp hs with hs | hs
    · exact .root (hseed _ (Nat.sub_le _ _) hs)
    · exact readWithin_support ih (Finset.mem_filter.mp hs).1

theorem seed_subset_requiredStates {seed : Nat → Finset Nat} {last frame : Nat}
    (h : frame ≤ last) : seed frame ⊆ p.requiredStates seed last frame := by
  unfold requiredStates
  obtain ⟨j, hj⟩ : ∃ j, j = last - frame := ⟨_, rfl⟩
  obtain rfl : frame = last - j := by omega
  rw [← hj]
  cases j with
  | zero => exact subset_closeSameFrameStateEqualityDependencies _
  | succ j =>
    exact Finset.subset_union_left.trans (subset_closeSameFrameStateEqualityDependencies _)

/-- What the targets of a frame read among the design states is required there. -/
theorem support_subset_requiredStates {seed : Nat → Finset Nat} {last frame : Nat}
    (h : frame < last) :
    (p.collectSupportForTargets (p.transitionTargets seed last frame)).filter
      (· ∈ p.buildStateSymbolSet) ⊆ p.requiredStates seed last frame := by
  unfold transitionTargets requiredStates
  obtain ⟨j, hj⟩ : ∃ j, last - frame = j + 1 := ⟨last - frame - 1, by omega⟩
  have hj' : last - (frame + 1) = j := by omega
  rw [hj, hj']
  exact Finset.subset_union_right.trans (subset_closeSameFrameStateEqualityDependencies _)

/-! ## Agreement is carried forward -/

theorem transitionTarget_of_transition {s : Nat} {e : BoolExpr} (h : p.transitionAt s = some e) :
    s ∈ p.transitionTarget s := by
  simp [transitionTarget, contains, h]

theorem transitionTarget_of_primary {s a : Nat} {e : BoolExpr} (h : p.transitionAt s = none)
    (hp : p.primaryByComplement s = some a) (ha : p.transitionAt a = some e) :
    a ∈ p.transitionTarget s := by
  simp [transitionTarget, contains, h, hp, ha]

/-- Frames that agree on every symbol a target reads give it one next value. -/
theorem nextStateOf_congr {σ υ : Valuation} {s : Nat}
    (h : ∀ t ∈ p.transitionTarget s, ∀ x ∈ p.transitionSupport t, lit υ x = lit σ x) :
    p.nextStateOf υ s = p.nextStateOf σ s := by
  have heval : ∀ t ∈ p.transitionTarget s, ∀ e, p.transitionAt t = some e →
      e.eval υ = e.eval σ := fun t ht e he =>
    BoolExpr.eval_congr_lit fun x hx h2 => h t ht x (transitionSupport_covers he hx h2)
  cases hs : p.transitionAt s with
  | some e =>
    rw [nextStateOf_of_transition hs, nextStateOf_of_transition hs,
      heval s (transitionTarget_of_transition hs) e hs]
  | none =>
    cases hp : p.primaryByComplement s with
    | none => simp only [nextStateOf, hs, hp]
    | some a =>
      cases ha : p.transitionAt a with
      | none => simp only [nextStateOf, hs, hp, ha, Option.map_none]
      | some e =>
        rw [nextStateOf_of_primary hs hp ha, nextStateOf_of_primary hs hp ha,
          heval a (transitionTarget_of_primary hs hp ha) e ha]

theorem lit_successor_congr {σ σ' υ : Valuation} {s : Nat}
    (hadv : ∀ v, p.nextStateOf σ s = some v → lit σ' s = v)
    (h : ∀ t ∈ p.transitionTarget s, ∀ x ∈ p.transitionSupport t, lit υ x = lit σ x) :
    lit (p.successor υ σ') s = lit σ' s := by
  have hnext := nextStateOf_congr h
  cases hv : p.nextStateOf σ s with
  | none => exact lit_successor_of_none (hnext.trans hv)
  | some v => rw [lit_successor_of_some (hnext.trans hv), hadv v hv]

theorem requiredStates_subset_coneSymbols {seed : Nat → Finset Nat} {last f : Nat}
    (h : f ≤ last) : p.requiredStates seed last f ⊆ p.coneSymbols seed last :=
  (Finset.subset_biUnion_of_mem (p.requiredStates seed last)
    (Finset.mem_range.mpr (Nat.lt_succ_of_le h))).trans Finset.subset_union_left

theorem targets_subset_coneSymbols {seed : Nat → Finset Nat} {last f : Nat} (h : f < last) :
    p.transitionTargets seed last f ∪
      p.collectSupportForTargets (p.transitionTargets seed last f) ⊆ p.coneSymbols seed last :=
  (Finset.subset_biUnion_of_mem (fun f => p.transitionTargets seed last f ∪
    p.collectSupportForTargets (p.transitionTargets seed last f))
    (Finset.mem_range.mpr h)).trans Finset.subset_union_right

theorem subset_addRelationPartners (X : Finset Nat) : X ⊆ p.addRelationPartners X :=
  (((subset_addPartners _ _).trans (subset_addPartners _ _)).trans
    (subset_closeSameFrameStateEqualityDependencies _)).trans (subset_addPartners _ _)

end KInductionProblem

/-! ## Leaves -/

/-- The leaves are met from left to right.
mirrors src/sec/kinduction/SatEncoding.cpp:452-472, 556-595 -/
def encodeLeaves (leafLits : Finset Nat) (frame : Nat) (e : BoolExpr) : Except String FrameLit :=
  match e.leaves.find? fun s => decide (2 ≤ s) && decide (s ∉ leafLits) with
  | some s => .error ("Missing leaf literal for symbol " ++ toString s)
  | none => .ok (encode frame e)

theorem encodeLeaves_ok {leaves : Finset Nat} {frame : Nat} {e : BoolExpr} {l : FrameLit} :
    encodeLeaves leaves frame e = .ok l ↔
      KInductionProblem.addFormulaSupport e ⊆ leaves ∧ l = encode frame e := by
  unfold encodeLeaves
  split
  · rename_i s hs
    have hmem := List.mem_of_find?_eq_some hs
    have hmissing := List.find?_some hs
    simp only [Bool.and_eq_true, decide_eq_true_eq] at hmissing
    simp only [reduceCtorEq, false_iff, not_and]
    intro hsub
    exact absurd (hsub (Finset.mem_filter.mpr ⟨BoolExpr.mem_leaves.mp hmem, hmissing.1⟩))
      hmissing.2
  · rename_i hnone
    have hsub : KInductionProblem.addFormulaSupport e ⊆ leaves := fun s hs => by
      obtain ⟨hsupport, h2⟩ := Finset.mem_filter.mp hs
      simpa [h2] using List.find?_eq_none.mp hnone s (BoolExpr.mem_leaves.mpr hsupport)
    simp [hsub, eq_comm]

end KeplerFormal
