import KeplerFormal.L3Query.FormulaEncoder

/-!
# Encoding a projected transition (`src/sec/imc/CraigInterpolatingModelChecker.cpp`)

`addProjectedTransition` ties the next-state literals to the encoded transition formulas and adds
the inactive resets, the same-frame relations and the auxiliary facts, the latter two over the
leaves that the encoder made. The constant-aware encoder makes fewer leaves, so a relation that
joins a left-out leaf to another one is dropped.

* `addProjectedTransition`: all clauses of one transition.
* `addProjectedTransition_extends`: what the clauses say of the leaves.
* `addProjectedTransition_agrees`: when both encoders allow the same values.
-/
namespace KeplerFormal

open Core

namespace CraigCnf

/-! ## The clauses -/

/-- mirrors src/sec/imc/CraigInterpolatingModelChecker.cpp:1237-1244 -/
def addLiteralEquivalenceForPartition (c : CraigClausePartition) (lhs rhs : Lit Nat)
    (a : CraigCnf) : CraigCnf :=
  (setCraigClausePartition c a).addClauses (litEquivalence lhs rhs)

section Encoder
variable {E : Type} (update : (CraigCnf → CraigCnf) → E → E) (encode : BoolExpr → E → Lit Nat × E)

/-- The loop over the targets, with either encoder; `update` acts on the encoder's solver.
mirrors src/sec/imc/CraigInterpolatingModelChecker.cpp:2486-2497, 2507-2518 -/
def addTransitionTargets (v : CraigVariablePartition) (c : CraigClausePartition)
    (resolver : Nat → BoolExpr) (nextStateLits : List (Nat × Lit Nat))
    (transitionTargets : List Nat) (e : E) : E :=
  transitionTargets.foldl (fun e target =>
    match nextStateLits.lookup target with
    | some next =>
      let transitionLit := encode (resolver target) (update (setCraigPartitions v c) e)
      update (addLiteralEquivalenceForPartition c next transitionLit.1) transitionLit.2
    | none => e) e

end Encoder

/-- mirrors src/sec/imc/CraigInterpolatingModelChecker.cpp:2291-2308 -/
def addResetInputValue (p : KInductionProblem) (asserted : Bool) (v : CraigVariablePartition)
    (c : CraigClausePartition) (a : CraigCnf) : CraigCnf :=
  p.resetBootstrapInputs.foldl (fun a r =>
    let value := if asserted then r.2 else !r.2
    let l := leaf id r.1 a
    l.2.addClauses [[if value then l.1 else l.1.neg]]) (setCraigPartitions v c a)

/-- mirrors src/sec/imc/CraigInterpolatingModelChecker.cpp:1246-1264 -/
def pairEqualities (leaves : List (Nat × Lit Nat)) (pairs : List (Nat × Nat))
    (complemented : Bool) : Query Nat :=
  pairs.flatMap fun pr =>
    match leaves.lookup pr.1, leaves.lookup pr.2 with
    | some l, some r => litEquivalence r (if complemented then l.neg else l)
    | _, _ => []

def dualRailClauses (leaves : List (Nat × Lit Nat)) (rails : List DualRailSymbolPair) :
    Query Nat :=
  rails.flatMap fun r =>
    match leaves.lookup r.mayBeOne, leaves.lookup r.mayBeZero with
    | some one, some zero => [[one, zero]]
    | _, _ => []

/-- The indexed form lists the same clauses by their left symbol.
mirrors src/sec/imc/CraigInterpolatingModelChecker.cpp:1294-1332 -/
def addIndexedStateSemantics (p : KInductionProblem) (c : CraigClausePartition) (a : CraigCnf) :
    CraigCnf :=
  (setCraigClausePartition c a).addClauses
    (pairEqualities a.leafLits p.complementedStatePairs true ++
      pairEqualities a.leafLits p.sameFrameStateEqualityPairs false ++
      dualRailClauses a.leafLits p.dualRailStatePairs)

def constantClauses (leaves : List (Nat × Lit Nat)) (constants : List (Nat × Bool)) : Query Nat :=
  constants.flatMap fun k =>
    match leaves.lookup k.1 with
    | some l => [[if k.2 then l else l.neg]]
    | none => []

/-- mirrors src/sec/imc/CraigInterpolatingModelChecker.cpp:1355-1378 -/
def addAuxiliaryStateInvariants (X : AuxiliaryStateInvariants) (c : CraigClausePartition)
    (a : CraigCnf) : CraigCnf :=
  if X.empty then a
  else (setCraigClausePartition c a).addClauses
    (constantClauses a.leafLits X.constants ++ pairEqualities a.leafLits X.equalities false)

/-- mirrors src/sec/imc/CraigInterpolatingModelChecker.cpp:277-282 -/
def shouldEncodeProjectedLocalStateSemantics (leafCount trackedStateCount : Nat) : Bool :=
  leafCount ≤ 100000 && trackedStateCount ≤ 4096

section Transition
variable (p : KInductionProblem) (X : AuxiliaryStateInvariants) (trackedStateCount : Nat)
  (resolver : Nat → BoolExpr) (transitionTargets : List Nat)
  (currentLits nextStateLits : List (Nat × Lit Nat)) (v : CraigVariablePartition)
  (c : CraigClausePartition)

/-- The encoder starts from a copy of the current literals.
mirrors src/sec/imc/CraigInterpolatingModelChecker.cpp:2474-2519 -/
def encodeTransitions (constantAssignments : List (Nat × Bool)) (solver : CraigCnf) : CraigCnf :=
  let start : CraigCnf := { setCraigPartitions v c solver with leafLits := currentLits }
  if constantAssignments = [] then
    (addTransitionTargets (fun f (e : FrameFormulaEncoder) => { e with cnf := f e.cnf })
      FrameFormulaEncoder.encode v c resolver nextStateLits transitionTargets { cnf := start }).cnf
  else
    (addTransitionTargets
      (fun f (e : ConstantAwareFrameFormulaEncoder) =>
        { e with base := { e.base with cnf := f e.base.cnf } })
      (ConstantAwareFrameFormulaEncoder.encodeImpl v c constantAssignments) v c resolver
      nextStateLits transitionTargets { base := { cnf := start } }).base.cnf

/-- mirrors src/sec/imc/CraigInterpolatingModelChecker.cpp:2460-2546 -/
def addProjectedTransition (constantAssignments : List (Nat × Bool)) (solver : CraigCnf) :
    CraigCnf :=
  let encoded := encodeTransitions resolver transitionTargets currentLits nextStateLits v c
    constantAssignments solver
  let leaves := addResetInputValue p false v c encoded
  let related :=
    if shouldEncodeProjectedLocalStateSemantics leaves.leafLits.length trackedStateCount then
      addIndexedStateSemantics p c leaves
    else leaves
  addAuxiliaryStateInvariants X c related

end Transition

/-! ## What the clauses say -/

section Facts
variable {v : CraigVariablePartition} {c : CraigClausePartition} {a : CraigCnf}

theorem evalLit_signed {ν : Nat → Bool} (value : Bool) (l : Lit Nat) :
    evalLit ν (if value then l else l.neg) = (evalLit ν l == value) := by
  cases value <;> simp

theorem signed_atom (value : Bool) (l : Lit Nat) : (if value then l else l.neg).atom = l.atom := by
  cases value <;> rfl

/-- The pairs of leaves are related. -/
def PairsHold (pairs : List (Nat × Nat)) (complemented : Bool) (present : Nat → Prop)
    (σ : Valuation) : Prop :=
  ∀ pr ∈ pairs, present pr.1 → present pr.2 → σ pr.2 = (complemented ^^ σ pr.1)

def RailsHold (rails : List DualRailSymbolPair) (present : Nat → Prop) (σ : Valuation) : Prop :=
  ∀ r ∈ rails, present r.mayBeOne → present r.mayBeZero → (σ r.mayBeOne || σ r.mayBeZero) = true

theorem present_of_lookup {s : Nat} {l : Lit Nat} (h : a.leafLits.lookup s = some l) :
    Present a s := Option.isSome_iff_exists.mpr ⟨l, h⟩

theorem pairEqualities_spec (hwf : CnfState.Wf v c a) (pairs : List (Nat × Nat))
    (complemented : Bool) : CnfState.Bounded a.vars (pairEqualities a.leafLits pairs complemented) ∧
      ∀ σ ν, a.Models σ ν → (evalQuery ν (pairEqualities a.leafLits pairs complemented) = true ↔
        PairsHold pairs complemented (Present a) σ) := by
  unfold pairEqualities
  constructor
  · intro d hd l hl
    obtain ⟨pr, -, hd⟩ := List.mem_flatMap.mp hd
    split at hd
    · rename_i x y hx hy
      have hx' := hwf.leaves _ _ hx
      have hy' := hwf.leaves _ _ hy
      have hsign : (if complemented then x.neg else x).atom = x.atom := by
        cases complemented <;> rfl
      simp only [litEquivalence, List.mem_cons, List.not_mem_nil, or_false] at hd
      obtain rfl | rfl := hd
      · obtain rfl | hl := List.mem_cons.mp hl
        · exact hy'
        · rw [List.mem_singleton.mp hl, hsign]
          exact hx'
      · obtain rfl | hl := List.mem_cons.mp hl
        · exact hy'
        · rw [List.mem_singleton.mp hl]
          exact lt_of_eq_of_lt hsign hx'
    · cases hd
  · intro σ ν ha
    rw [evalQuery_flatMap]
    refine forall_congr' fun pr => forall_congr' fun _ => ?_
    split
    · rename_i x y hx hy
      have hsign : evalLit ν (if complemented then x.neg else x) =
          (complemented ^^ evalLit ν x) := by cases complemented <;> simp
      rw [eval_litEquivalence, hsign, ha.leaves _ _ hx, ha.leaves _ _ hy, beq_iff_eq]
      exact ⟨fun h _ _ => h, fun h => h (present_of_lookup hx) (present_of_lookup hy)⟩
    · rename_i hnone
      refine iff_of_true rfl fun h1 h2 => ?_
      obtain ⟨x, hx⟩ := Option.isSome_iff_exists.mp h1
      obtain ⟨y, hy⟩ := Option.isSome_iff_exists.mp h2
      exact (hnone x y hx hy).elim

theorem dualRailClauses_spec (hwf : CnfState.Wf v c a) (rails : List DualRailSymbolPair) :
    CnfState.Bounded a.vars (dualRailClauses a.leafLits rails) ∧
      ∀ σ ν, a.Models σ ν → (evalQuery ν (dualRailClauses a.leafLits rails) = true ↔
        RailsHold rails (Present a) σ) := by
  unfold dualRailClauses
  constructor
  · intro d hd l hl
    obtain ⟨r, -, hd⟩ := List.mem_flatMap.mp hd
    split at hd
    · rename_i x y hx hy
      rw [List.mem_singleton.mp hd] at hl
      obtain rfl | hl := List.mem_cons.mp hl
      · exact hwf.leaves _ _ hx
      · rw [List.mem_singleton.mp hl]
        exact hwf.leaves _ _ hy
    · cases hd
  · intro σ ν ha
    rw [evalQuery_flatMap]
    refine forall_congr' fun r => forall_congr' fun _ => ?_
    split
    · rename_i x y hx hy
      rw [evalQuery_cons, evalQuery_nil, Bool.and_true, evalClause_pair, ha.leaves _ _ hx,
        ha.leaves _ _ hy]
      exact ⟨fun h _ _ => h, fun h => h (present_of_lookup hx) (present_of_lookup hy)⟩
    · rename_i hnone
      refine iff_of_true rfl fun h1 h2 => ?_
      obtain ⟨x, hx⟩ := Option.isSome_iff_exists.mp h1
      obtain ⟨y, hy⟩ := Option.isSome_iff_exists.mp h2
      exact (hnone x y hx hy).elim

theorem constantClauses_spec (hwf : CnfState.Wf v c a) (constants : List (Nat × Bool)) :
    CnfState.Bounded a.vars (constantClauses a.leafLits constants) ∧
      ∀ σ ν, a.Models σ ν → (evalQuery ν (constantClauses a.leafLits constants) = true ↔
        ∀ k ∈ constants, Present a k.1 → σ k.1 = k.2) := by
  unfold constantClauses
  constructor
  · intro d hd l hl
    obtain ⟨k, -, hd⟩ := List.mem_flatMap.mp hd
    split at hd
    · rename_i x hx
      rw [List.mem_singleton.mp hd, List.mem_singleton] at hl
      rw [hl, signed_atom]
      exact hwf.leaves _ _ hx
    · cases hd
  · intro σ ν ha
    rw [evalQuery_flatMap]
    refine forall_congr' fun k => forall_congr' fun _ => ?_
    split
    · rename_i x hx
      rw [evalQuery_cons, evalQuery_nil, Bool.and_true, evalClause_singleton, evalLit_signed,
        ha.leaves _ _ hx, beq_iff_eq]
      exact ⟨fun h _ => h, fun h => h (present_of_lookup hx)⟩
    · rename_i hnone
      refine iff_of_true rfl fun h1 => ?_
      unfold Present at h1
      rw [hnone] at h1
      cases h1

end Facts
/-! ## One step of the encoding at a time -/

section Steps
variable {v : CraigVariablePartition} {c : CraigClausePartition} {a : CraigCnf}

structure StateSemanticsHold (p : KInductionProblem) (present : Nat → Prop) (σ : Valuation) :
    Prop where
  complemented : PairsHold p.complementedStatePairs true present σ
  equal : PairsHold p.sameFrameStateEqualityPairs false present σ
  rails : RailsHold p.dualRailStatePairs present σ

structure AuxiliaryFactsHold (X : AuxiliaryStateInvariants) (present : Nat → Prop)
    (σ : Valuation) : Prop where
  constants : ∀ k ∈ X.constants, present k.1 → σ k.1 = k.2
  equalities : PairsHold X.equalities false present σ

def ResetsHold (p : KInductionProblem) (asserted : Bool) (σ : Valuation) : Prop :=
  ∀ r ∈ p.resetBootstrapInputs, σ r.1 = if asserted then r.2 else !r.2

theorem setCraigClausePartition_eq (h : CnfState.Wf v c a) : setCraigClausePartition c a = a := by
  obtain ⟨-, hc, -, -⟩ := h
  subst hc
  rfl

theorem addIndexedStateSemantics_extends (hwf : CnfState.Wf v c a) (p : KInductionProblem) :
    CnfState.Extends v c a (addIndexedStateSemantics p c a)
      fun σ _ => StateSemanticsHold p (Present a) σ := by
  unfold addIndexedStateSemantics
  rw [setCraigClausePartition_eq hwf]
  obtain ⟨hb1, h1⟩ := pairEqualities_spec hwf p.complementedStatePairs true
  obtain ⟨hb2, h2⟩ := pairEqualities_spec hwf p.sameFrameStateEqualityPairs false
  obtain ⟨hb3, h3⟩ := dualRailClauses_spec hwf p.dualRailStatePairs
  refine CnfState.constrain hwf ((hb1.append hb2).append hb3) fun σ ν ha => ?_
  rw [evalQuery_append, evalQuery_append, Bool.and_eq_true, Bool.and_eq_true, h1 σ ν ha,
    h2 σ ν ha, h3 σ ν ha]
  exact ⟨fun h => ⟨h.1.1, h.1.2, h.2⟩, fun h => ⟨⟨h.complemented, h.equal⟩, h.rails⟩⟩

theorem addAuxiliaryStateInvariants_extends (hwf : CnfState.Wf v c a)
    (X : AuxiliaryStateInvariants) :
    CnfState.Extends v c a (addAuxiliaryStateInvariants X c a)
      fun σ _ => AuxiliaryFactsHold X (Present a) σ := by
  unfold addAuxiliaryStateInvariants
  split
  · rename_i hempty
    unfold AuxiliaryStateInvariants.empty at hempty
    rw [Bool.and_eq_true, List.isEmpty_iff, List.isEmpty_iff] at hempty
    refine (CnfState.Extends.refl hwf).weaken fun σ _ => iff_of_true trivial ⟨?_, ?_⟩
    · simp [hempty.1]
    · simp [PairsHold, hempty.2]
  · rw [setCraigClausePartition_eq hwf]
    obtain ⟨hb1, h1⟩ := constantClauses_spec hwf X.constants
    obtain ⟨hb2, h2⟩ := pairEqualities_spec hwf X.equalities false
    refine CnfState.constrain hwf (hb1.append hb2) fun σ ν ha => ?_
    rw [evalQuery_append, Bool.and_eq_true, h1 σ ν ha, h2 σ ν ha]
    exact ⟨fun h => ⟨h.1, h.2⟩, fun h => ⟨h.constants, h.equalities⟩⟩

/-- The leaf of one reset input, and its value. -/
theorem resetLeaf_extends (hwf : CnfState.Wf v c a) (symbol : Nat) (value : Bool) :
    CnfState.Extends v c a ((leaf id symbol a).2.addClauses
        [[if value then (leaf id symbol a).1 else (leaf id symbol a).1.neg]])
      (fun σ _ => σ symbol = value) ∧
    ∀ s, Present ((leaf id symbol a).2.addClauses
        [[if value then (leaf id symbol a).1 else (leaf id symbol a).1.neg]]) s ↔
      s = symbol ∨ Present a s := by
  obtain ⟨hleaf, hdenotes, hpresent⟩ := leaf_spec id_select hwf symbol
  refine ⟨?_, hpresent⟩
  have hclause : CnfState.Extends v c (leaf id symbol a).2 ((leaf id symbol a).2.addClauses
      [[if value then (leaf id symbol a).1 else (leaf id symbol a).1.neg]])
      fun σ _ => σ symbol = value := by
    refine CnfState.constrain hleaf.wf ?_ fun σ ν ha => ?_
    · intro d hd l hl
      rw [List.mem_singleton.mp hd, List.mem_singleton] at hl
      rw [hl, signed_atom]
      exact hdenotes.lt
    · rw [evalQuery_cons, evalQuery_nil, Bool.and_true, evalClause_singleton, evalLit_signed,
        hdenotes.value σ ν ha, beq_iff_eq]
  exact (hleaf.trans hclause fun _ _ _ _ h => h).weaken fun _ _ => and_iff_right trivial

theorem addResetInputValue_extends (hwf : CnfState.Wf v c a) (p : KInductionProblem)
    (asserted : Bool) :
    CnfState.Extends v c a (addResetInputValue p asserted v c a)
      (fun σ _ => ResetsHold p asserted σ) ∧
    ∀ s, Present (addResetInputValue p asserted v c a) s ↔
      Present a s ∨ ∃ r ∈ p.resetBootstrapInputs, r.1 = s := by
  unfold addResetInputValue ResetsHold
  rw [setCraigPartitions_eq hwf]
  induction p.resetBootstrapInputs generalizing a with
  | nil => exact ⟨(CnfState.Extends.refl hwf).weaken (by simp), by simp⟩
  | cons r rs ih =>
    obtain ⟨hfirst, hpresent⟩ := resetLeaf_extends hwf r.1 (if asserted then r.2 else !r.2)
    obtain ⟨hrest, hpresentRest⟩ := ih hfirst.wf
    rw [List.foldl_cons]
    refine ⟨(hfirst.trans hrest fun _ _ _ _ h => h).weaken (by simp), fun s => ?_⟩
    rw [hpresentRest, hpresent]
    simp only [List.mem_cons, exists_eq_or_imp]
    tauto

end Steps

/-! ## The targets -/

section Targets
variable {E : Type} {v : CraigVariablePartition} {c : CraigClausePartition}

/-- What the loop over the targets needs of an encoder. -/
structure EncoderSpec (v : CraigVariablePartition) (c : CraigClausePartition)
    (cnf : E → CraigCnf) (update : (CraigCnf → CraigCnf) → E → E)
    (encode : BoolExpr → E → Lit Nat × E) (Inv : E → Prop)
    (val : BoolExpr → Valuation → Bool) (needs : BoolExpr → Nat → Prop) : Prop where
  wf : ∀ e, Inv e → CnfState.Wf v c (cnf e)
  cnf_update : ∀ f e, cnf (update f e) = f (cnf e)
  update : ∀ f e P, Inv e → CnfState.Extends v c (cnf e) (f (cnf e)) P → Inv (update f e)
  inv : ∀ node e, Inv e → Inv (encode node e).2
  extends_ : ∀ node e, Inv e →
    CnfState.Extends v c (cnf e) (cnf (encode node e).2) fun _ _ => True
  denotes : ∀ node e, Inv e → (cnf (encode node e).2).Denotes (encode node e).1 (val node)
  needed : ∀ node e, Inv e → ∀ s, needs node s → Present (cnf (encode node e).2) s
  added : ∀ node e, Inv e → ∀ s, Present (cnf (encode node e).2) s →
    Present (cnf e) s ∨ node.Reads s

variable {cnf : E → CraigCnf} {update : (CraigCnf → CraigCnf) → E → E}
  {encode : BoolExpr → E → Lit Nat × E} {Inv : E → Prop} {val : BoolExpr → Valuation → Bool}
  {needs : BoolExpr → Nat → Prop} {resolver : Nat → BoolExpr}
  {nextStateLits : List (Nat × Lit Nat)}

/-- Every target with a next-state literal has the value of its transition. -/
def TargetsHold (resolver : Nat → BoolExpr) (nextStateLits : List (Nat × Lit Nat))
    (val : BoolExpr → Valuation → Bool) (targets : List Nat) (σ : Valuation) (ν : Nat → Bool) :
    Prop :=
  ∀ t ∈ targets, ∀ next, nextStateLits.lookup t = some next → evalLit ν next = val (resolver t) σ

/-- A symbol that some encoded transition reads. -/
def TargetsRead (resolver : Nat → BoolExpr) (nextStateLits : List (Nat × Lit Nat))
    (targets : List Nat) (needs : BoolExpr → Nat → Prop) (s : Nat) : Prop :=
  ∃ t ∈ targets, (∃ next, nextStateLits.lookup t = some next) ∧ needs (resolver t) s

theorem TargetsHold.congr {targets : List Nat} {n : Nat}
    (hnext : ∀ t next, nextStateLits.lookup t = some next → next.atom < n) {σ : Valuation}
    {ν ν' : Nat → Bool} (hagree : CnfState.Agree n ν ν') :
    TargetsHold resolver nextStateLits val targets σ ν' ↔
      TargetsHold resolver nextStateLits val targets σ ν := by
  refine forall_congr' fun t => forall_congr' fun _ => forall_congr' fun next =>
    forall_congr' fun h => ?_
  rw [hagree.evalLit (hnext t next h)]

variable (resolver) in
/-- One target, and then the rest of them. -/
theorem addTransitionTargets_extends (hspec : EncoderSpec v c cnf update encode Inv val needs)
    (targets : List Nat) {e : E} (he : Inv e)
    (hnext : ∀ t next, nextStateLits.lookup t = some next → next.atom < (cnf e).vars) :
    Inv (addTransitionTargets update encode v c resolver nextStateLits targets e) ∧
    CnfState.Extends v c (cnf e)
      (cnf (addTransitionTargets update encode v c resolver nextStateLits targets e))
      (TargetsHold resolver nextStateLits val targets) ∧
    (∀ s, TargetsRead resolver nextStateLits targets needs s →
      Present (cnf (addTransitionTargets update encode v c resolver nextStateLits targets e)) s) ∧
    ∀ s, Present (cnf (addTransitionTargets update encode v c resolver nextStateLits targets e)) s →
      Present (cnf e) s ∨ TargetsRead resolver nextStateLits targets BoolExpr.Reads s := by
  unfold addTransitionTargets
  induction targets generalizing e with
  | nil =>
    refine ⟨he, (CnfState.Extends.refl (hspec.wf e he)).weaken ?_, ?_, fun s hs => .inl hs⟩
    · simp [TargetsHold]
    · simp [TargetsRead]
  | cons t targets ih =>
    rw [List.foldl_cons]
    cases hlookup : nextStateLits.lookup t with
    | none =>
      obtain ⟨hdone, hrest, hneeded, hadded⟩ := ih he hnext
      refine ⟨hdone, hrest.weaken ?_, ?_, ?_⟩
      · simp [TargetsHold, hlookup]
      · simpa [TargetsRead, hlookup] using hneeded
      · simpa [TargetsRead, hlookup] using hadded
    | some next =>
      dsimp only
      -- the sides are selected already
      have hselect : cnf (update (setCraigPartitions v c) e) = cnf e := by
        rw [hspec.cnf_update, setCraigPartitions_eq (hspec.wf e he)]
      have he' : Inv (update (setCraigPartitions v c) e) := by
        refine hspec.update _ e (fun _ _ => True) he ?_
        rw [setCraigPartitions_eq (hspec.wf e he)]
        exact CnfState.Extends.refl (hspec.wf e he)
      generalize update (setCraigPartitions v c) e = e' at he' hselect
      have hencode := hspec.extends_ (resolver t) e' he'
      have hdenotes := hspec.denotes (resolver t) e' he'
      have hnextLt := hnext t next hlookup
      rw [hselect] at hencode
      -- the equivalence of the next-state literal
      have hequal : CnfState.Extends v c (cnf (encode (resolver t) e').2)
          (addLiteralEquivalenceForPartition c next (encode (resolver t) e').1
            (cnf (encode (resolver t) e').2))
          fun σ ν => evalLit ν next = val (resolver t) σ := by
        unfold addLiteralEquivalenceForPartition
        rw [setCraigClausePartition_eq hencode.wf]
        refine CnfState.constrain hencode.wf ?_ fun σ ν ha => ?_
        · have hlt := lt_of_lt_of_le hnextLt hencode.vars_le
          have hlt' := hdenotes.lt
          simp [CnfState.Bounded, litEquivalence, Lit.neg, hlt, hlt']
        · rw [eval_litEquivalence, hdenotes.value σ ν ha, beq_iff_eq]
      have hone := (hencode.trans hequal fun σ ν ν' hagree h => by
        rwa [hagree.evalLit hnextLt]).weaken fun σ ν => and_iff_right trivial
      have hinv := hspec.update (addLiteralEquivalenceForPartition c next (encode (resolver t) e').1)
        _ _ (hspec.inv (resolver t) e' he') hequal
      have hcnf := hspec.cnf_update
        (addLiteralEquivalenceForPartition c next (encode (resolver t) e').1)
        (encode (resolver t) e').2
      generalize update (addLiteralEquivalenceForPartition c next (encode (resolver t) e').1)
        (encode (resolver t) e').2 = e'' at hinv hcnf
      rw [← hcnf] at hone hequal
      obtain ⟨hdone, hrest, hneeded, hadded⟩ := ih hinv fun t' next' h' =>
        lt_of_lt_of_le (hnext t' next' h') hone.vars_le
      have hsame : ∀ s, Present (cnf e'') s ↔ Present (cnf (encode (resolver t) e').2) s := by
        intro s
        rw [hcnf]
        rfl
      refine ⟨hdone, (hone.trans hrest fun σ ν ν' hagree h => ?_).weaken fun σ ν => ?_, ?_, ?_⟩
      · exact (TargetsHold.congr hnext hagree).mpr h
      · simp [TargetsHold, hlookup]
      · intro s hs
        obtain ⟨t', ht', hsome, hneeds⟩ := hs
        obtain rfl | ht' := List.mem_cons.mp ht'
        · exact present_of_extends hrest
            ((hsame s).mpr (hspec.needed (resolver t') e' he' s hneeds))
        · exact hneeded s ⟨t', ht', hsome, hneeds⟩
      · intro s hs
        obtain hold | ⟨t', ht', hsome, hreads⟩ := hadded s hs
        · obtain hold | hreads := hspec.added (resolver t) e' he' s ((hsame s).mp hold)
          · rw [hselect] at hold
            exact .inl hold
          · exact .inr ⟨t, List.mem_cons_self, ⟨next, hlookup⟩, hreads⟩
        · exact .inr ⟨t', List.mem_cons_of_mem _ ht', hsome, hreads⟩

end Targets

/-! ## All clauses of a transition -/

open ConstantAwareFrameFormulaEncoder

section Transition
variable {v : CraigVariablePartition} {c : CraigClausePartition}

theorem plain_spec : EncoderSpec v c (fun e : FrameFormulaEncoder => e.cnf)
    (fun f (e : FrameFormulaEncoder) => { e with cnf := f e.cnf }) FrameFormulaEncoder.encode
    (EncoderInv v c plainValue BoolExpr.Reads) plainValue BoolExpr.Reads where
  wf := fun _ he => he.wf
  cnf_update := fun _ _ => rfl
  update := fun _ _ _ he hextends => he.extend (he.toGateInv.mono hextends) hextends
  inv := fun node _ he => (encode_encodes node he).inv
  extends_ := fun node _ he => (encode_encodes node he).extends_
  denotes := fun node _ he => (encode_encodes node he).denotes
  needed := fun node _ he => (encode_encodes node he).needed
  added := fun node _ he => (encode_encodes node he).added

theorem aware_spec (constants : List (Nat × Bool)) :
    EncoderSpec v c (fun e : ConstantAwareFrameFormulaEncoder => e.base.cnf)
      (fun f (e : ConstantAwareFrameFormulaEncoder) =>
        { e with base := { e.base with cnf := f e.base.cnf } })
      (encodeImpl v c constants) (AwareInv v c constants) (assignedValue constants)
      needsNothing where
  wf := fun _ he => he.base.wf
  cnf_update := fun _ _ => rfl
  update := fun _ _ _ he hextends =>
    ⟨he.base.extend (he.base.toGateInv.mono hextends) hextends, he.constantValues⟩
  inv := fun node _ he => (encodeImpl_encodes node he).inv
  extends_ := fun node _ he => (encodeImpl_encodes node he).base.extends_
  denotes := fun node _ he => (encodeImpl_encodes node he).base.denotes
  needed := fun _ _ _ _ hs => hs.elim
  added := fun node _ he => (encodeImpl_encodes node he).base.added

theorem start_inv {a : CraigCnf} (hwf : CnfState.Wf v c a)
    (val : BoolExpr → Valuation → Bool) (needs : BoolExpr → Nat → Prop) :
    EncoderInv v c val needs { cnf := a } where
  wf := hwf
  trueLit := fun _ ht => by cases ht
  nodes := fun _ _ hl => by cases hl
  leaves := fun _ _ hl => by cases hl

/-- The literals that the transition is given are literals of its solver. -/
structure StartsWell (solver : CraigCnf) (currentLits nextStateLits : List (Nat × Lit Nat)) :
    Prop where
  clauses : CnfState.Bounded solver.vars solver.query
  current : ∀ s l, currentLits.lookup s = some l → l.atom < solver.vars
  next : ∀ t l, nextStateLits.lookup t = some l → l.atom < solver.vars

/-- The solver when the encoder starts. -/
def transitionStart (currentLits : List (Nat × Lit Nat)) (v : CraigVariablePartition)
    (c : CraigClausePartition) (solver : CraigCnf) : CraigCnf :=
  { setCraigPartitions v c solver with leafLits := currentLits }

section Given
variable (p : KInductionProblem) (X : AuxiliaryStateInvariants) (trackedStateCount : Nat)
  {resolver : Nat → BoolExpr} {transitionTargets : List Nat}
  {currentLits nextStateLits : List (Nat × Lit Nat)} {solver : CraigCnf}

theorem transitionStart_wf (hstart : StartsWell solver currentLits nextStateLits) :
    CnfState.Wf v c (transitionStart currentLits v c solver) :=
  ⟨rfl, rfl, hstart.clauses, hstart.current⟩

theorem eval_assign_nil (node : BoolExpr) (σ : Valuation) :
    assignedValue [] node σ = plainValue node σ :=
  BoolExpr.eval_assign (fun _ hc => absurd hc List.not_mem_nil) node

variable (resolver transitionTargets) in
theorem encodeTransitions_extends (hstart : StartsWell solver currentLits nextStateLits)
    (constants : List (Nat × Bool)) :
    CnfState.Extends v c (transitionStart currentLits v c solver)
      (encodeTransitions resolver transitionTargets currentLits nextStateLits v c constants solver)
      (TargetsHold resolver nextStateLits (assignedValue constants) transitionTargets) ∧
    (constants = [] → ∀ s, TargetsRead resolver nextStateLits transitionTargets BoolExpr.Reads s →
      Present (encodeTransitions resolver transitionTargets currentLits nextStateLits v c constants
        solver) s) ∧
    ∀ s, Present (encodeTransitions resolver transitionTargets currentLits nextStateLits v c
        constants solver) s →
      Present (transitionStart currentLits v c solver) s ∨
        TargetsRead resolver nextStateLits transitionTargets BoolExpr.Reads s := by
  have hwf := transitionStart_wf (v := v) (c := c) hstart
  have hnext : ∀ t next, nextStateLits.lookup t = some next →
      next.atom < (transitionStart currentLits v c solver).vars := hstart.next
  unfold encodeTransitions
  dsimp only
  split
  · rename_i hnil
    subst hnil
    obtain ⟨-, hextends, hneeded, hadded⟩ := addTransitionTargets_extends resolver
      plain_spec transitionTargets (start_inv hwf plainValue BoolExpr.Reads) hnext
    refine ⟨hextends.weaken fun σ ν => ?_, fun _ => hneeded, hadded⟩
    unfold TargetsHold
    simp only [eval_assign_nil]
  · rename_i hne
    obtain ⟨-, hextends, -, hadded⟩ := addTransitionTargets_extends resolver
      (aware_spec constants) transitionTargets
      (e := { base := { cnf := transitionStart currentLits v c solver } })
      ⟨start_inv hwf _ _, Memo.valid_nil _⟩ hnext
    exact ⟨hextends, fun hnil => absurd hnil hne, hadded⟩

/-- The leaves that the relations and facts range over. -/
def transitionLeaves (resolver : Nat → BoolExpr) (transitionTargets : List Nat)
    (currentLits nextStateLits : List (Nat × Lit Nat)) (v : CraigVariablePartition)
    (c : CraigClausePartition) (constants : List (Nat × Bool)) (solver : CraigCnf) : CraigCnf :=
  addResetInputValue p false v c
    (encodeTransitions resolver transitionTargets currentLits nextStateLits v c constants solver)

/-- What one transition says: next-state equations, inactive resets, relations and facts. -/
structure TransitionHolds (resolver : Nat → BoolExpr) (transitionTargets : List Nat)
    (nextStateLits : List (Nat × Lit Nat)) (constants : List (Nat × Bool)) (leaves : CraigCnf)
    (σ : Valuation) (ν : Nat → Bool) : Prop where
  targets : TargetsHold resolver nextStateLits (assignedValue constants) transitionTargets σ ν
  resets : ResetsHold p false σ
  semantics : shouldEncodeProjectedLocalStateSemantics leaves.leafLits.length trackedStateCount =
    true → StateSemanticsHold p (Present leaves) σ
  auxiliary : AuxiliaryFactsHold X (Present leaves) σ

variable (resolver transitionTargets) in
theorem addProjectedTransition_extends (hstart : StartsWell solver currentLits nextStateLits)
    (constants : List (Nat × Bool)) :
    CnfState.Extends v c (transitionStart currentLits v c solver)
      (addProjectedTransition p X trackedStateCount resolver transitionTargets currentLits
        nextStateLits v c constants solver)
      (TransitionHolds p X trackedStateCount resolver transitionTargets nextStateLits constants
        (transitionLeaves p resolver transitionTargets currentLits nextStateLits v c constants
          solver)) := by
  obtain ⟨hencoded, -, -⟩ := encodeTransitions_extends (v := v) (c := c) resolver
    transitionTargets hstart constants
  obtain ⟨hresets, -⟩ := addResetInputValue_extends hencoded.wf p false
  unfold addProjectedTransition transitionLeaves
  dsimp only
  have hleaves := hencoded.trans hresets fun _ _ _ _ h => h
  split
  · rename_i hencodes
    have hrelated := addIndexedStateSemantics_extends hresets.wf p
    have hfacts := addAuxiliaryStateInvariants_extends hrelated.wf X
    refine ((hleaves.trans hrelated fun _ _ _ _ h => h).trans hfacts
      fun _ _ _ _ h => h).weaken fun σ ν => ⟨fun h => ?_, fun h => ?_⟩
    · exact ⟨h.1.1.1, h.1.1.2, fun _ => h.1.2, h.2⟩
    · exact ⟨⟨⟨h.targets, h.resets⟩, h.semantics hencodes⟩, h.auxiliary⟩
  · rename_i hencodes
    have hfacts := addAuxiliaryStateInvariants_extends hresets.wf X
    refine (hleaves.trans hfacts fun _ _ _ _ h => h).weaken fun σ ν => ⟨fun h => ?_, fun h => ?_⟩
    · exact ⟨h.1.1, h.1.2, fun htrue => absurd htrue hencodes, h.2⟩
    · exact ⟨⟨h.targets, h.resets⟩, h.auxiliary⟩

/-! ## The two encoders side by side -/

theorem allows_transition_iff (hstart : StartsWell solver currentLits nextStateLits)
    (constants : List (Nat × Bool)) (ν : Nat → Bool) :
    (addProjectedTransition p X trackedStateCount resolver transitionTargets currentLits
        nextStateLits v c constants solver).Allows solver.vars ν ↔
      ∃ σ, (transitionStart currentLits v c solver).Models σ ν ∧
        TransitionHolds p X trackedStateCount resolver transitionTargets nextStateLits constants
          (transitionLeaves p resolver transitionTargets currentLits nextStateLits v c constants
            solver) σ ν := by
  have hvars : solver.vars = (transitionStart currentLits v c solver).vars := rfl
  rw [hvars]
  refine CnfState.allows_iff (transitionStart_wf hstart)
    (addProjectedTransition_extends p X trackedStateCount resolver transitionTargets hstart
      constants) ?_ ν
  intro σ ν ν' hagree h
  exact ⟨(TargetsHold.congr hstart.next hagree).mp h.targets, h.resets, h.semantics, h.auxiliary⟩

/-- A leaf that has a constant has its value. -/
theorem constants_of_holds {present : Nat → Prop} {σ : Valuation} (hresets : ResetsHold p false σ)
    (hfacts : AuxiliaryFactsHold X present σ) {s : Nat} (hs : present s) {value : Bool}
    (h : (transitionConstantAssignmentsForEncoding p X).lookup s = some value) : σ s = value := by
  have hmem := mem_of_lookup h
  unfold transitionConstantAssignmentsForEncoding at hmem
  obtain hreset | hconstant := List.mem_append.mp hmem
  · obtain ⟨r, hr, heq⟩ := List.mem_map.mp (List.mem_reverse.mp hreset)
    cases heq
    exact hresets r hr
  · exact hfacts.constants (s, value) hconstant hs

/-- With the constants of its symbols, a formula has its own value. -/
theorem assignedValue_eq {constants : List (Nat × Bool)} {node : BoolExpr} {σ : Valuation}
    (h : ∀ s, node.Reads s → ∀ value, constants.lookup s = some value → σ s = value) :
    assignedValue constants node σ = plainValue node σ := by
  unfold assignedValue plainValue
  induction node with
  | var id =>
    rw [eval_assign_symbol]
    obtain rfl | rfl | ⟨n, rfl⟩ : id = 0 ∨ id = 1 ∨ ∃ n, id = n + 2 := by
      by_cases h : id < 2
      · omega
      · exact .inr (.inr ⟨id - 2, by omega⟩)
    · rfl
    · rfl
    · have hsymbol : symbolConstant constants (n + 2) = constants.lookup (n + 2) := rfl
      rw [hsymbol]
      cases hlookup : constants.lookup (n + 2) with
      | none => rfl
      | some value =>
        exact (h (n + 2) ⟨by omega, by simp [BoolExpr.getSupportVars]⟩ value hlookup).symm
  | not a iha => exact congrArg (! ·) (iha h)
  | and a b iha ihb =>
    exact congrArg₂ (· && ·) (iha fun s hs => h s ((BoolExpr.reads_binary rfl s).mpr (.inl hs)))
      (ihb fun s hs => h s ((BoolExpr.reads_binary rfl s).mpr (.inr hs)))
  | or a b iha ihb =>
    exact congrArg₂ (· || ·) (iha fun s hs => h s ((BoolExpr.reads_binary rfl s).mpr (.inl hs)))
      (ihb fun s hs => h s ((BoolExpr.reads_binary rfl s).mpr (.inr hs)))
  | xor a b iha ihb =>
    exact congrArg₂ (· ^^ ·) (iha fun s hs => h s ((BoolExpr.reads_binary rfl s).mpr (.inl hs)))
      (ihb fun s hs => h s ((BoolExpr.reads_binary rfl s).mpr (.inr hs)))

/-- Substituted symbols do not count. -/
theorem assignedValue_congr {constants : List (Nat × Bool)} {node : BoolExpr} {σ σ' : Valuation}
    (h : ∀ s, constants.lookup s = none → σ s = σ' s) :
    assignedValue constants node σ = assignedValue constants node σ' := by
  unfold assignedValue
  induction node with
  | var id =>
    rw [eval_assign_symbol, eval_assign_symbol]
    cases hlookup : symbolConstant constants id with
    | some b => rfl
    | none =>
      obtain rfl | rfl | ⟨n, rfl⟩ : id = 0 ∨ id = 1 ∨ ∃ n, id = n + 2 := by
        by_cases h : id < 2
        · omega
        · exact .inr (.inr ⟨id - 2, by omega⟩)
      · cases hlookup
      · cases hlookup
      · exact h (n + 2) hlookup
  | not a iha => exact congrArg (! ·) iha
  | and a b iha ihb => exact congrArg₂ (· && ·) iha ihb
  | or a b iha ihb => exact congrArg₂ (· || ·) iha ihb
  | xor a b iha ihb => exact congrArg₂ (· ^^ ·) iha ihb

theorem PairsHold.mono {pairs : List (Nat × Nat)} {complemented : Bool} {present : Nat → Prop}
    {present' : Nat → Prop} {σ σ' : Valuation} (h : PairsHold pairs complemented present σ)
    (hsub : ∀ s, present' s → present s ∧ σ' s = σ s) :
    PairsHold pairs complemented present' σ' := by
  intro pr hpr h1 h2
  rw [(hsub _ h1).2, (hsub _ h2).2]
  exact h pr hpr (hsub _ h1).1 (hsub _ h2).1

theorem RailsHold.mono {rails : List DualRailSymbolPair} {present present' : Nat → Prop}
    {σ σ' : Valuation} (h : RailsHold rails present σ)
    (hsub : ∀ s, present' s → present s ∧ σ' s = σ s) : RailsHold rails present' σ' := by
  intro r hr h1 h2
  rw [(hsub _ h1).2, (hsub _ h2).2]
  exact h r hr (hsub _ h1).1 (hsub _ h2).1

/-- Fewer leaves, fewer relations. -/
theorem StateSemanticsHold.mono {present present' : Nat → Prop} {σ σ' : Valuation}
    (h : StateSemanticsHold p present σ) (hsub : ∀ s, present' s → present s ∧ σ' s = σ s) :
    StateSemanticsHold p present' σ' :=
  ⟨h.complemented.mono hsub, h.equal.mono hsub, h.rails.mono hsub⟩

theorem AuxiliaryFactsHold.mono {present present' : Nat → Prop} {σ σ' : Valuation}
    (h : AuxiliaryFactsHold X present σ) (hsub : ∀ s, present' s → present s ∧ σ' s = σ s) :
    AuxiliaryFactsHold X present' σ' := by
  refine ⟨fun k hk hs => ?_, h.equalities.mono hsub⟩
  rw [(hsub _ hs).2]
  exact h.constants k hk (hsub _ hs).1

end Given

section Agreement
variable {p : KInductionProblem} {X : AuxiliaryStateInvariants} {trackedStateCount : Nat}
  {resolver : Nat → BoolExpr} {transitionTargets : List Nat}
  {currentLits nextStateLits : List (Nat × Lit Nat)} {solver : CraigCnf}

theorem present_transitionLeaves (hstart : StartsWell solver currentLits nextStateLits)
    (constants : List (Nat × Bool)) (s : Nat) :
    Present (transitionLeaves p resolver transitionTargets currentLits nextStateLits v c constants
        solver) s ↔
      Present (encodeTransitions resolver transitionTargets currentLits nextStateLits v c constants
        solver) s ∨ ∃ r ∈ p.resetBootstrapInputs, r.1 = s := by
  obtain ⟨hencoded, -, -⟩ := encodeTransitions_extends (v := v) (c := c) resolver
    transitionTargets hstart constants
  exact (addResetInputValue_extends hencoded.wf p false).2 s

theorem present_of_start (hstart : StartsWell solver currentLits nextStateLits)
    (constants : List (Nat × Bool)) {s : Nat}
    (hs : Present (transitionStart currentLits v c solver) s) :
    Present (transitionLeaves p resolver transitionTargets currentLits nextStateLits v c constants
      solver) s := by
  obtain ⟨hencoded, -, -⟩ := encodeTransitions_extends (v := v) (c := c) resolver
    transitionTargets hstart constants
  exact (present_transitionLeaves hstart constants s).mpr (.inl (present_of_extends hencoded hs))

/-- A symbol of an encoded transition is a leaf of the encoder without constants. -/
theorem present_of_read (hstart : StartsWell solver currentLits nextStateLits) {s : Nat}
    (hs : TargetsRead resolver nextStateLits transitionTargets BoolExpr.Reads s) :
    Present (transitionLeaves p resolver transitionTargets currentLits nextStateLits v c []
      solver) s := by
  obtain ⟨-, hneeded, -⟩ := encodeTransitions_extends (v := v) (c := c) resolver
    transitionTargets hstart []
  exact (present_transitionLeaves hstart [] s).mpr (.inl (hneeded rfl s hs))

/-- The encoder without constants has every leaf that the constant-aware one has. -/
theorem present_plain_of_aware (hstart : StartsWell solver currentLits nextStateLits)
    (constants : List (Nat × Bool)) {s : Nat}
    (hs : Present (transitionLeaves p resolver transitionTargets currentLits nextStateLits v c
      constants solver) s) :
    Present (transitionLeaves p resolver transitionTargets currentLits nextStateLits v c []
      solver) s := by
  obtain ⟨-, -, hadded⟩ := encodeTransitions_extends (v := v) (c := c) resolver
    transitionTargets hstart constants
  obtain hencoded | hreset := (present_transitionLeaves hstart constants s).mp hs
  · exact (hadded s hencoded).elim (present_of_start hstart []) (present_of_read hstart)
  · exact (present_transitionLeaves hstart [] s).mpr (.inr hreset)

theorem models_start_congr {σ σ' : Valuation} {ν : Nat → Bool}
    (h : (transitionStart currentLits v c solver).Models σ ν)
    (hsame : ∀ s, Present (transitionStart currentLits v c solver) s → σ' s = σ s) :
    (transitionStart currentLits v c solver).Models σ' ν := by
  refine ⟨h.clauses, fun s l hl => ?_⟩
  rw [hsame s (present_of_lookup hl)]
  exact h.leaves s l hl

end Agreement
end Transition

/-! ## Agreement -/

section Agreement

/-- Related leaves stay leaves, or are constants with related values. -/
def PairsKept (pairs : List (Nat × Nat)) (complemented : Bool) (constants : List (Nat × Bool))
    (plain aware : Nat → Prop) : Prop :=
  ∀ pr ∈ pairs, plain pr.1 → plain pr.2 → (aware pr.1 ∧ aware pr.2) ∨
    ∃ x, constants.lookup pr.1 = some x ∧ constants.lookup pr.2 = some (complemented ^^ x)

def RailsKept (rails : List DualRailSymbolPair) (constants : List (Nat × Bool))
    (plain aware : Nat → Prop) : Prop :=
  ∀ r ∈ rails, plain r.mayBeOne → plain r.mayBeZero → (aware r.mayBeOne ∧ aware r.mayBeZero) ∨
    ∃ x y, constants.lookup r.mayBeOne = some x ∧ constants.lookup r.mayBeZero = some y ∧
      (x || y) = true

/-- No relation joins a left-out leaf to another leaf, but for constants that meet it. -/
structure RelationsKept (p : KInductionProblem) (X : AuxiliaryStateInvariants)
    (plain aware : CraigCnf) : Prop where
  complemented : PairsKept p.complementedStatePairs true
    (transitionConstantAssignmentsForEncoding p X) (Present plain) (Present aware)
  equal : PairsKept p.sameFrameStateEqualityPairs false
    (transitionConstantAssignmentsForEncoding p X) (Present plain) (Present aware)
  rails : RailsKept p.dualRailStatePairs (transitionConstantAssignmentsForEncoding p X)
    (Present plain) (Present aware)
  equalities : PairsKept X.equalities false
    (transitionConstantAssignmentsForEncoding p X) (Present plain) (Present aware)

/-- The relations are encoded for both sets of leaves or for neither. -/
def SameRelations (trackedStateCount : Nat) (plain aware : CraigCnf) : Prop :=
  shouldEncodeProjectedLocalStateSemantics aware.leafLits.length trackedStateCount =
    shouldEncodeProjectedLocalStateSemantics plain.leafLits.length trackedStateCount

/-- The valuation with every constant at its value. -/
def withConstants (constants : List (Nat × Bool)) (σ : Valuation) : Valuation :=
  fun s => (constants.lookup s).getD (σ s)

theorem PairsHold.of_kept {pairs : List (Nat × Nat)} {complemented : Bool}
    {constants : List (Nat × Bool)} {plain aware : Nat → Prop} {σ : Valuation}
    (hkept : PairsKept pairs complemented constants plain aware)
    (h : PairsHold pairs complemented aware σ)
    (hsame : ∀ s, aware s → withConstants constants σ s = σ s) :
    PairsHold pairs complemented plain (withConstants constants σ) := by
  intro pr hpr h1 h2
  obtain ⟨ha1, ha2⟩ | ⟨x, hx, hy⟩ := hkept pr hpr h1 h2
  · rw [hsame _ ha1, hsame _ ha2]
    exact h pr hpr ha1 ha2
  · unfold withConstants
    rw [hx, hy]
    rfl

theorem RailsHold.of_kept {rails : List DualRailSymbolPair} {constants : List (Nat × Bool)}
    {plain aware : Nat → Prop} {σ : Valuation} (hkept : RailsKept rails constants plain aware)
    (h : RailsHold rails aware σ) (hsame : ∀ s, aware s → withConstants constants σ s = σ s) :
    RailsHold rails plain (withConstants constants σ) := by
  intro r hr h1 h2
  obtain ⟨ha1, ha2⟩ | ⟨x, y, hx, hy, hxy⟩ := hkept r hr h1 h2
  · rw [hsame _ ha1, hsame _ ha2]
    exact h r hr ha1 ha2
  · unfold withConstants
    rw [hx, hy]
    exact hxy

variable (p : KInductionProblem) (X : AuxiliaryStateInvariants) (trackedStateCount : Nat)
  (resolver : Nat → BoolExpr) (transitionTargets : List Nat)
  (currentLits nextStateLits : List (Nat × Lit Nat)) (v : CraigVariablePartition)
  (c : CraigClausePartition) (solver : CraigCnf)

/-- The leaves of the encoder without constants, and of the constant-aware one. -/
def plainLeaves : CraigCnf :=
  transitionLeaves p resolver transitionTargets currentLits nextStateLits v c [] solver

def awareLeaves : CraigCnf :=
  transitionLeaves p resolver transitionTargets currentLits nextStateLits v c
    (transitionConstantAssignmentsForEncoding p X) solver

/-- All clauses, through `FrameFormulaEncoder`. -/
def plainTransition : CraigCnf :=
  addProjectedTransition p X trackedStateCount resolver transitionTargets currentLits
    nextStateLits v c [] solver

/-- All clauses, as the cache of constants has them encoded. -/
def awareTransition : CraigCnf :=
  addProjectedTransition p X trackedStateCount resolver transitionTargets currentLits
    nextStateLits v c (transitionConstantAssignmentsForEncoding p X) solver

variable {p X trackedStateCount resolver transitionTargets currentLits nextStateLits v c solver}

/-- What the clauses without constants allow, the others allow. -/
theorem aware_allows (hstart : StartsWell solver currentLits nextStateLits)
    (hrelations : SameRelations trackedStateCount
      (plainLeaves p resolver transitionTargets currentLits nextStateLits v c solver)
      (awareLeaves p X resolver transitionTargets currentLits nextStateLits v c solver))
    {ν : Nat → Bool}
    (h : (plainTransition p X trackedStateCount resolver transitionTargets currentLits
      nextStateLits v c solver).Allows solver.vars ν) :
    (awareTransition p X trackedStateCount resolver transitionTargets currentLits
      nextStateLits v c solver).Allows solver.vars ν := by
  unfold plainTransition at h
  unfold awareTransition
  rw [allows_transition_iff p X trackedStateCount hstart] at h ⊢
  obtain ⟨σ, hmodels, hholds⟩ := h
  set plain := transitionLeaves p resolver transitionTargets currentLits nextStateLits v c []
    solver with hplain
  -- constants that are no leaves take their values
  let σ' : Valuation := fun s =>
    if (plain.leafLits.lookup s).isSome = true then σ s
    else withConstants (transitionConstantAssignmentsForEncoding p X) σ s
  have hsame : ∀ s, Present plain s → σ' s = σ s := fun s hs => if_pos hs
  have hsub : ∀ s, Present (transitionLeaves p resolver transitionTargets currentLits
      nextStateLits v c (transitionConstantAssignmentsForEncoding p X) solver) s →
      Present plain s ∧ σ' s = σ s := fun s hs =>
    ⟨present_plain_of_aware hstart _ hs, hsame s (present_plain_of_aware hstart _ hs)⟩
  refine ⟨σ', models_start_congr hmodels fun s hs => hsame s (present_of_start hstart [] hs),
    ?_, ?_, ?_, hholds.auxiliary.mono X hsub⟩
  · intro t ht next hnext
    have hread : ∀ s, (resolver t).Reads s → Present plain s := fun s hs =>
      present_of_read hstart ⟨t, ht, ⟨next, hnext⟩, hs⟩
    rw [hholds.targets t ht next hnext, eval_assign_nil, assignedValue_eq]
    · unfold plainValue
      exact BoolExpr.eval_congr fun s hs h2 => (hsame s (hread s ⟨h2, hs⟩)).symm
    · intro s hs value hvalue
      rw [hsame s (hread s hs)]
      exact constants_of_holds p X hholds.resets hholds.auxiliary (hread s hs) hvalue
  · intro r hr
    rw [hsame r.1 ((present_transitionLeaves hstart [] r.1).mpr (.inr ⟨r, hr, rfl⟩))]
    exact hholds.resets r hr
  · intro hencodes
    exact (hholds.semantics (hrelations ▸ hencodes)).mono p hsub

/-- What the constant-aware clauses allow, the others allow, if no relation is lost. -/
theorem plain_allows (hstart : StartsWell solver currentLits nextStateLits)
    (hconsistent : ∀ k ∈ X.constants, X.constants.lookup k.1 = some k.2)
    (hrelations : SameRelations trackedStateCount
      (plainLeaves p resolver transitionTargets currentLits nextStateLits v c solver)
      (awareLeaves p X resolver transitionTargets currentLits nextStateLits v c solver))
    (hkept : RelationsKept p X
      (plainLeaves p resolver transitionTargets currentLits nextStateLits v c solver)
      (awareLeaves p X resolver transitionTargets currentLits nextStateLits v c solver))
    {ν : Nat → Bool}
    (h : (awareTransition p X trackedStateCount resolver transitionTargets currentLits
      nextStateLits v c solver).Allows solver.vars ν) :
    (plainTransition p X trackedStateCount resolver transitionTargets currentLits
      nextStateLits v c solver).Allows solver.vars ν := by
  unfold awareTransition at h
  unfold plainTransition
  rw [allows_transition_iff p X trackedStateCount hstart] at h ⊢
  obtain ⟨σ, hmodels, hholds⟩ := h
  set K := transitionConstantAssignmentsForEncoding p X with hK
  set aware := transitionLeaves p resolver transitionTargets currentLits nextStateLits v c K
    solver with haware
  have hsame : ∀ s, Present aware s → withConstants K σ s = σ s := by
    intro s hs
    unfold withConstants
    cases hlookup : K.lookup s with
    | none => rfl
    | some value =>
      exact (constants_of_holds p X hholds.resets hholds.auxiliary hs hlookup).symm
  have hreset : ∀ r ∈ p.resetBootstrapInputs, Present aware r.1 := fun r hr =>
    (present_transitionLeaves hstart K r.1).mpr (.inr ⟨r, hr, rfl⟩)
  refine ⟨withConstants K σ, models_start_congr hmodels fun s hs =>
    hsame s (present_of_start hstart K hs), ?_, ?_, ?_, ?_, ?_⟩
  · intro t ht next hnext
    have hvalue : assignedValue K (resolver t) (withConstants K σ) =
        plainValue (resolver t) (withConstants K σ) := by
      apply assignedValue_eq
      intro s _ value hlookup
      unfold withConstants
      rw [hlookup]
      rfl
    rw [hholds.targets t ht next hnext, eval_assign_nil, ← hvalue]
    apply assignedValue_congr
    intro s hnone
    unfold withConstants
    rw [hnone]
    rfl
  · intro r hr
    rw [hsame r.1 (hreset r hr)]
    exact hholds.resets r hr
  · intro hencodes
    have hsemantics := hholds.semantics (hrelations.trans hencodes)
    exact ⟨hsemantics.complemented.of_kept hkept.complemented hsame,
      hsemantics.equal.of_kept hkept.equal hsame, hsemantics.rails.of_kept hkept.rails hsame⟩
  · intro k hk _
    by_cases hs : Present aware k.1
    · rw [hsame k.1 hs]
      exact hholds.auxiliary.constants k hk hs
    · -- the symbol is no reset input, so its constant is its own
      have hlookup : K.lookup k.1 = some k.2 := by
        rw [hK]
        unfold transitionConstantAssignmentsForEncoding
        rw [List.lookup_append, hconsistent k hk]
        have hnone : (p.resetBootstrapInputs.map fun r => (r.1, !r.2)).reverse.lookup k.1 =
            none := by
          rw [List.lookup_eq_none_iff]
          intro entry hentry
          obtain ⟨r, hr, rfl⟩ := List.mem_map.mp (List.mem_reverse.mp hentry)
          rw [bne_iff_ne]
          exact fun heq => hs (heq ▸ hreset r hr)
        rw [hnone]
        rfl
      unfold withConstants
      rw [hlookup]
      rfl
  · exact hholds.auxiliary.equalities.of_kept hkept.equalities hsame

variable (p X resolver currentLits nextStateLits v c solver) in
/-- The constant-aware encoder after the targets `done`, with the sides selected. -/
def awareEncoder (done : List Nat) : ConstantAwareFrameFormulaEncoder :=
  let update (f : CraigCnf → CraigCnf) (e : ConstantAwareFrameFormulaEncoder) :=
    { e with base := { e.base with cnf := f e.base.cnf } }
  update (setCraigPartitions v c) (addTransitionTargets update
    (encodeImpl v c (transitionConstantAssignmentsForEncoding p X)) v c resolver nextStateLits done
    { base := { cnf := transitionStart currentLits v c solver } })

theorem awareEncoder_inv (hstart : StartsWell solver currentLits nextStateLits)
    (done : List Nat) :
    AwareInv v c (transitionConstantAssignmentsForEncoding p X)
      (awareEncoder p X resolver currentLits nextStateLits v c solver done) := by
  have hwf := transitionStart_wf (v := v) (c := c) hstart
  obtain ⟨hinv, -⟩ := addTransitionTargets_extends resolver
    (aware_spec (transitionConstantAssignmentsForEncoding p X)) done
    (e := { base := { cnf := transitionStart currentLits v c solver } })
    ⟨start_inv hwf _ _, Memo.valid_nil _⟩ hstart.next
  refine (aware_spec _).update _ _ (fun _ _ => True) hinv ?_
  rw [setCraigPartitions_eq hinv.base.wf]
  exact CnfState.Extends.refl hinv.base.wf

variable (p X trackedStateCount resolver transitionTargets v c) in
/-- The constant-aware clauses allow what the plain ones allow, if both or neither encode the
same-frame relations, and the same if also no relation is lost with a left-out leaf. Every literal
has the value of its expression with the constants substituted, and all additions are labelled. -/
theorem addProjectedTransition_agrees (hstart : StartsWell solver currentLits nextStateLits)
    (hconsistent : ∀ k ∈ X.constants, X.constants.lookup k.1 = some k.2) :
    (SameRelations trackedStateCount
        (plainLeaves p resolver transitionTargets currentLits nextStateLits v c solver)
        (awareLeaves p X resolver transitionTargets currentLits nextStateLits v c solver) →
      (∀ ν, (plainTransition p X trackedStateCount resolver transitionTargets currentLits
          nextStateLits v c solver).Allows solver.vars ν →
        (awareTransition p X trackedStateCount resolver transitionTargets currentLits
          nextStateLits v c solver).Allows solver.vars ν) ∧
      (RelationsKept p X
          (plainLeaves p resolver transitionTargets currentLits nextStateLits v c solver)
          (awareLeaves p X resolver transitionTargets currentLits nextStateLits v c solver) →
        ∀ ν, (awareTransition p X trackedStateCount resolver transitionTargets currentLits
            nextStateLits v c solver).Allows solver.vars ν ↔
          (plainTransition p X trackedStateCount resolver transitionTargets currentLits
            nextStateLits v c solver).Allows solver.vars ν)) ∧
    (∀ done node σ ν, (encodeImpl v c (transitionConstantAssignmentsForEncoding p X) node
        (awareEncoder p X resolver currentLits nextStateLits v c solver done)).2.base.cnf.Models
          σ ν →
      evalLit ν (encodeImpl v c (transitionConstantAssignmentsForEncoding p X) node
        (awareEncoder p X resolver currentLits nextStateLits v c solver done)).1 =
        assignedValue (transitionConstantAssignmentsForEncoding p X) node σ) ∧
    (∃ k, (awareTransition p X trackedStateCount resolver transitionTargets currentLits
      nextStateLits v c solver).labels = solver.labels ++ List.replicate k v) ∧
    ∃ q : Query Nat, (awareTransition p X trackedStateCount resolver transitionTargets currentLits
      nextStateLits v c solver).clauses = solver.clauses ++ q.map fun d => (c, d) := by
  have hextends := addProjectedTransition_extends (v := v) (c := c) p X trackedStateCount resolver
    transitionTargets hstart (transitionConstantAssignmentsForEncoding p X)
  refine ⟨fun hrelations => ⟨fun ν => aware_allows hstart hrelations, fun hkept ν =>
    ⟨plain_allows hstart hconsistent hrelations hkept, aware_allows hstart hrelations⟩⟩,
    fun done node σ ν hmodels => ?_, hextends.labels, hextends.clauses⟩
  have hinv : AwareInv v c (transitionConstantAssignmentsForEncoding p X)
      (awareEncoder p X resolver currentLits nextStateLits v c solver done) :=
    awareEncoder_inv hstart done
  exact (encodeImpl_encodes node hinv).base.denotes.value σ ν hmodels

def twoStateProblem : KInductionProblem where
  state0Symbols := [30, 31]
  property := .createTrue
  bad := .createFalse

/-- A solver with a current and a next literal of symbol 31. -/
def twoLiterals : CraigCnf :=
  { labels := [.Global, .Global], variablePartition := .Global, clausePartition := .A }

theorem twoLiterals_startsWell :
    StartsWell twoLiterals [(31, ⟨0, true⟩)] [(31, ⟨1, true⟩)] := by
  have hlookup : ∀ (n : Nat) s l, n < 2 → [(31, (⟨n, true⟩ : Lit Nat))].lookup s = some l →
      l.atom < twoLiterals.vars := by
    intro n s l hn hl
    have hmem := mem_of_lookup hl
    cases List.mem_singleton.mp hmem
    exact hn
  refine ⟨?_, fun s l hl => hlookup 0 s l (by omega) hl, fun s l hl => hlookup 1 s l (by omega) hl⟩
  simp [CnfState.Bounded, CnfState.query, twoLiterals]

theorem constantWithoutRelations_agrees :
    (awareTransition twoStateProblem ⟨[(30, true)], []⟩ 1 (fun _ => .and (.var 30) (.var 31)) [31]
        [(31, ⟨0, true⟩)] [(31, ⟨1, true⟩)] .ALocal .A twoLiterals).Allows 2 (fun _ => false) ↔
      (plainTransition twoStateProblem ⟨[(30, true)], []⟩ 1 (fun _ => .and (.var 30) (.var 31)) [31]
        [(31, ⟨0, true⟩)] [(31, ⟨1, true⟩)] .ALocal .A twoLiterals).Allows 2 (fun _ => false) := by
  have hagrees := addProjectedTransition_agrees twoStateProblem ⟨[(30, true)], []⟩ 1
    (fun _ => .and (.var 30) (.var 31)) [31] .ALocal .A twoLiterals_startsWell (by simp)
  refine (hagrees.1 ?_).2 ⟨?_, ?_, ?_, ?_⟩ _
  · unfold SameRelations
    decide
  · intro pr hpr
    exact absurd hpr List.not_mem_nil
  · intro pr hpr
    exact absurd hpr List.not_mem_nil
  · intro r hr
    exact absurd hr List.not_mem_nil
  · intro pr hpr
    exact absurd hpr List.not_mem_nil

/-- Symbol 30 is true and equal to symbol 31; it is no current literal, so only the clauses without
constants tie symbol 31 to it. -/
theorem constantPair_not_agrees :
    ¬ ∀ ν, (awareTransition twoStateProblem ⟨[(30, true)], [(30, 31)]⟩ 1
          (fun _ => .and (.var 30) (.var 31)) [31] [(31, ⟨0, true⟩)] [(31, ⟨1, true⟩)] .ALocal .A
          twoLiterals).Allows 2 ν ↔
        (plainTransition twoStateProblem ⟨[(30, true)], [(30, 31)]⟩ 1
          (fun _ => .and (.var 30) (.var 31)) [31] [(31, ⟨0, true⟩)] [(31, ⟨1, true⟩)] .ALocal .A
          twoLiterals).Allows 2 ν := by
  intro h
  have hallowed : (awareTransition twoStateProblem ⟨[(30, true)], [(30, 31)]⟩ 1
      (fun _ => .and (.var 30) (.var 31)) [31] [(31, ⟨0, true⟩)] [(31, ⟨1, true⟩)] .ALocal .A
      twoLiterals).Allows 2 (fun _ => false) := by
    refine ⟨fun i => i == 2, fun i hi => ?_, by decide⟩
    rw [beq_eq_false_iff_ne]
    omega
  obtain ⟨ν, hagree, hclauses⟩ := (h _).mp hallowed
  have hzero : ν 0 = false := hagree 0 (by omega)
  -- the leaf of symbol 30 has the variable 2
  have hleaf := (evalQuery_iff ν).mp hclauses [⟨2, true⟩] (by decide)
  have hequal := (evalQuery_iff ν).mp hclauses [⟨0, true⟩, ⟨2, false⟩] (by decide)
  rw [evalClause_singleton, evalLit_mk_true] at hleaf
  rw [evalClause_pair, evalLit_mk_true, evalLit_mk_false, hleaf, hzero] at hequal
  cases hequal

end Agreement

end CraigCnf
end KeplerFormal
