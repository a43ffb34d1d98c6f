import KeplerFormal.L4Engine.CraigMiningSound

/-!
# Helpers of a Craig run (`src/sec/imc/IMCEngine.cpp`)

A proven invariant helps later runs: its regions and facts constrain the frames of their queries.
Two helpers are combined by appending their lists; a query reads the regions as a union and the
facts one by one.

* `combineCraigHelperInvariants`, `helperConstraint`: the helper and its clauses in a query.
* `admits_iff`: the states that the clauses allow.
* `carried_combine`, `regionsHold_combine`, `factsHold_combine`: what the combined helper
  carries and allows, in terms of the two helpers.
* `conjoins_iff`: the combined helper excludes what either excludes exactly when the facts of
  both fit into a query and the two unions of regions agree where these facts hold.
-/
namespace KeplerFormal

open Core KInductionProblem

/-- mirrors src/sec/imc/IMCEngine.cpp:675-685 -/
structure ReusableCraigInvariant where
  regions : List InterpolantRegion := []
  trackedStates : Finset Nat := ∅
  auxiliaryConstants : List (Nat × Bool) := []
  auxiliaryEqualities : List (Nat × Nat) := []
  sourceSupport : Finset Nat × Finset Nat := (∅, ∅)
  sourceFirstOutput : Nat := 0
  sourceEndOutput : Nat := 0
  proofBound : Nat := 0
  hasSource : Bool := false

/-- mirrors src/sec/imc/IMCEngine.cpp:746-754 -/
def appendUniqueCraigHelperFacts {α : Type} [DecidableEq α] (target source : List α) : List α :=
  source.foldl (fun target fact => if fact ∈ target then target else target ++ [fact]) target

/-- mirrors src/sec/imc/IMCEngine.cpp:756-770 -/
def combineCraigHelperInvariants (primary secondary : ReusableCraigInvariant) :
    ReusableCraigInvariant :=
  { primary with
    regions := primary.regions ++ secondary.regions
    trackedStates := primary.trackedStates ∪ secondary.trackedStates
    auxiliaryConstants :=
      appendUniqueCraigHelperFacts primary.auxiliaryConstants secondary.auxiliaryConstants
    auxiliaryEqualities :=
      appendUniqueCraigHelperFacts primary.auxiliaryEqualities secondary.auxiliaryEqualities
    proofBound := max primary.proofBound secondary.proofBound
    hasSource := primary.hasSource || secondary.hasSource }

namespace ReusableCraigInvariant

/-- The facts that a helper hands over. -/
def facts (h : ReusableCraigInvariant) : AuxiliaryStateInvariants where
  constants := h.auxiliaryConstants
  equalities := h.auxiliaryEqualities

section
variable (p : KInductionProblem) (frame : Nat) (leaves : List Nat)

/-- The clauses of a helper on one frame of a query that has literals for `leaves`.
mirrors src/sec/imc/CraigInterpolatingModelChecker.cpp:3669-3688 -/
def helperConstraint (h : ReusableCraigInvariant) : CraigQuery :=
  regionUnionConstraint (.helper frame) frame h.regions ++
    addAuxiliaryStateInvariants (.frame frame) leaves
      (p.helperAuxiliaryStateInvariantsFromOptions h.facts)

/-- The clauses allow the state. -/
def Admits (h : ReusableCraigInvariant) (σ : Valuation) : Prop :=
  ∃ m : CraigModel, Sees m (.frame frame) σ ∧
    evalQuery (evalCraigAtom m) (h.helperConstraint p frame leaves) = true

/-- The regions allow the state. -/
def RegionsHold (h : ReusableCraigInvariant) (σ : Valuation) : Prop :=
  h.regions = [] ∨ UnionHolds h.regions (lit σ)

/-- The facts over the symbols of a query hold. -/
structure FactsHold (X : AuxiliaryStateInvariants) (σ : Valuation) : Prop where
  constants : ∀ c ∈ X.constants, c.1 ∈ leaves → lit σ c.1 = c.2
  equalities : ∀ e ∈ X.equalities, e.1 ∈ leaves → e.2 ∈ leaves → lit σ e.1 = lit σ e.2

/-- A helper that a run has proved: it contains every reachable state. -/
structure Proved (h : ReusableCraigInvariant) : Prop where
  total : ∀ r ∈ h.regions, r.Total
  regions : ∀ σ, p.postBootstrap.Reachable σ → h.RegionsHold σ
  facts : ∀ σ, p.postBootstrap.Reachable σ → h.facts.Hold σ

/-- The combined helper contains the reachable states and excludes what either excludes. -/
structure Conjoins (h₁ h₂ : ReusableCraigInvariant) : Prop where
  contains : ∀ σ, p.postBootstrap.Reachable σ →
    (combineCraigHelperInvariants h₁ h₂).Admits p frame leaves σ
  excludes : ∀ σ, (combineCraigHelperInvariants h₁ h₂).Admits p frame leaves σ →
    h₁.Admits p frame leaves σ ∧ h₂.Admits p frame leaves σ

end

/-! ## What the clauses allow -/

section
variable {p : KInductionProblem} {frame : Nat} {leaves : List Nat} {σ : Valuation}

theorem eval_auxiliary_iff {m : CraigModel} (hm : Sees m (.frame frame) σ)
    (X : AuxiliaryStateInvariants) :
    evalQuery (evalCraigAtom m) (addAuxiliaryStateInvariants (.frame frame) leaves X) = true ↔
      FactsHold leaves X σ := by
  rw [addAuxiliaryStateInvariants, evalQuery_append, Bool.and_eq_true, addStateAssignments,
    evalQuery_map, addPairEqualities, evalQuery_flatMap]
  constructor
  · intro h
    obtain ⟨hconstants, hequalities⟩ := h
    refine ⟨fun c hc hleaf => ?_, fun e he h₁ h₂ => ?_⟩
    · have hclause := hconstants c (List.mem_filter.mpr ⟨hc, List.contains_iff_mem.mpr hleaf⟩)
      rw [evalClause_singleton, hm.eval_assignmentLit] at hclause
      exact eq_of_beq hclause
    · have hclause := hequalities e he
      rw [if_pos ⟨h₁, h₂⟩, eval_litEquivalence, hm.eval_leafLit, if_neg (by decide),
        hm.eval_leafLit] at hclause
      exact (eq_of_beq hclause).symm
  · intro h
    refine ⟨fun c hc => ?_, fun e he => ?_⟩
    · obtain ⟨hmem, hleaf⟩ := List.mem_filter.mp hc
      rw [evalClause_singleton, hm.eval_assignmentLit,
        h.constants c hmem (List.contains_iff_mem.mp hleaf), beq_self_eq_true]
    · split
      · rename_i hleaf
        rw [eval_litEquivalence, hm.eval_leafLit, if_neg (by decide), hm.eval_leafLit,
          h.equalities e he hleaf.1 hleaf.2, beq_self_eq_true]
      · rfl

/-- The clauses of a helper allow the states in its union on which its facts hold. -/
theorem admits_iff {h : ReusableCraigInvariant} :
    h.Admits p frame leaves σ ↔ h.RegionsHold σ ∧
      FactsHold leaves (p.helperAuxiliaryStateInvariantsFromOptions h.facts) σ := by
  unfold Admits helperConstraint RegionsHold
  constructor
  · intro hadmits
    obtain ⟨m, hm, hquery⟩ := hadmits
    rw [evalQuery_append, Bool.and_eq_true] at hquery
    obtain ⟨hregions, hfacts⟩ := hquery
    refine ⟨?_, (eval_auxiliary_iff hm _).mp hfacts⟩
    by_cases hne : h.regions = []
    · exact .inl hne
    · rw [evalQuery_regionUnionConstraint m _ frame hne, show m.state frame = lit σ from funext hm]
        at hregions
      exact .inr ⟨_, hregions⟩
  · intro hholds
    obtain ⟨hregions, hfacts⟩ := hholds
    rcases hregions with hnil | hunion
    · let m := traceModel (fun _ => σ) (fun _ _ => σ) fun _ _ => false
      refine ⟨m, sees_frame frame, ?_⟩
      rw [evalQuery_append, regionUnionConstraint, if_pos hnil, Bool.and_eq_true]
      exact ⟨rfl, (eval_auxiliary_iff (sees_frame frame) _).mpr hfacts⟩
    · obtain ⟨a, hdefs, hroot⟩ := hunion
      let m := traceModel (fun _ => σ) (fun _ _ => σ)
        (queryCopies (fun _ => a) (fun _ _ => false) fun _ => false)
      have hne : h.regions ≠ [] := by
        intro hnil
        obtain ⟨i, r, hi, -⟩ := hroot
        rw [hnil] at hi
        cases hi
      refine ⟨m, sees_frame frame, ?_⟩
      rw [evalQuery_append, Bool.and_eq_true, evalQuery_regionUnionConstraint m _ frame hne]
      exact ⟨⟨hdefs, hroot⟩, (eval_auxiliary_iff (sees_frame frame) _).mpr hfacts⟩

end

/-! ## Facts of the combined helper -/

theorem mem_appendUnique {α : Type} [DecidableEq α] {target source : List α} {fact : α} :
    fact ∈ appendUniqueCraigHelperFacts target source ↔ fact ∈ target ∨ fact ∈ source := by
  unfold appendUniqueCraigHelperFacts
  induction source generalizing target with
  | nil => simp
  | cons first source ih =>
    rw [List.foldl_cons, ih, List.mem_cons]
    split
    · rename_i hmem
      constructor
      · intro h
        rcases h with h | h
        · exact .inl h
        · exact .inr (.inr h)
      · intro h
        rcases h with h | rfl | h
        · exact .inl h
        · exact .inl hmem
        · exact .inr h
    · rw [List.mem_append, List.mem_singleton, or_assoc]

theorem symbols_foldl_emplaceConstant {cs ds : Constants} {s : Nat} :
    s ∈ symbols (ds.foldl emplaceConstant cs) ↔ s ∈ symbols cs ∨ s ∈ symbols ds := by
  induction ds generalizing cs with
  | nil => simp [symbols]
  | cons d ds ih =>
    rw [List.foldl_cons, ih]
    unfold emplaceConstant
    split
    · rename_i hmem
      rw [List.contains_iff_mem] at hmem
      simp only [symbols, List.map_cons, List.mem_cons]
      constructor
      · intro h
        rcases h with h | h
        · exact .inl h
        · exact .inr (.inr h)
      · intro h
        rcases h with h | rfl | h
        · exact .inl h
        · exact .inl hmem
        · exact .inr h
    · simp only [symbols, List.map_append, List.map_cons, List.map_nil, List.mem_append,
        List.mem_cons, List.not_mem_nil, or_false, or_assoc]

/-- What a pair adds to the symbols. -/
theorem mem_symbols_closeComplementPair {cs : Constants} {pr : Nat × Nat} {s : Nat} :
    s ∈ symbols (closeComplementPair cs pr) ↔ s ∈ symbols cs ∨
      (s = pr.2 ∧ pr.1 ∈ symbols cs) ∨ (s = pr.1 ∧ pr.2 ∈ symbols cs) := by
  unfold closeComplementPair
  cases h₁ : cs.lookup pr.1 with
  | some v =>
    have hmem₁ : pr.1 ∈ symbols cs := List.mem_map.mpr ⟨_, mem_of_lookup h₁, rfl⟩
    cases h₂ : cs.lookup pr.2 with
    | some w =>
      have hmem₂ : pr.2 ∈ symbols cs := List.mem_map.mpr ⟨_, mem_of_lookup h₂, rfl⟩
      refine ⟨.inl, fun h => ?_⟩
      rcases h with h | ⟨rfl, -⟩ | ⟨rfl, -⟩
      · exact h
      · exact hmem₂
      · exact hmem₁
    | none =>
      have hnot := not_mem_symbols_of_lookup h₂
      simp only [symbols, List.map_append, List.map_cons, List.map_nil, List.mem_append,
        List.mem_singleton]
      simp only [symbols] at hmem₁ hnot
      simp [hmem₁, hnot]
  | none =>
    have hnot₁ := not_mem_symbols_of_lookup h₁
    cases h₂ : cs.lookup pr.2 with
    | some w =>
      have hmem₂ : pr.2 ∈ symbols cs := List.mem_map.mpr ⟨_, mem_of_lookup h₂, rfl⟩
      simp only [symbols, List.map_append, List.map_cons, List.map_nil, List.mem_append,
        List.mem_singleton]
      simp only [symbols] at hmem₂ hnot₁
      simp [hmem₂, hnot₁]
    | none => simp [hnot₁, not_mem_symbols_of_lookup h₂]

/-- Every symbol of a closure comes from one of the lists that were put together. -/
theorem symbols_foldl_closeComplementPair_or {pairs : List (Nat × Nat)} {cs as bs : Constants}
    (h : ∀ s ∈ symbols cs, s ∈ symbols as ∨ s ∈ symbols bs) :
    ∀ s ∈ symbols (pairs.foldl closeComplementPair cs),
      s ∈ symbols (pairs.foldl closeComplementPair as) ∨
        s ∈ symbols (pairs.foldl closeComplementPair bs) := by
  induction pairs generalizing cs as bs with
  | nil => exact h
  | cons pr pairs ih =>
    refine ih fun s hs => ?_
    simp only [mem_symbols_closeComplementPair] at hs ⊢
    rcases hs with hs | ⟨hs, hpr⟩ | ⟨hs, hpr⟩
    · exact (h s hs).imp .inl .inl
    · exact (h _ hpr).imp (fun hmem => .inr (.inl ⟨hs, hmem⟩)) fun hmem => .inr (.inl ⟨hs, hmem⟩)
    · exact (h _ hpr).imp (fun hmem => .inr (.inr ⟨hs, hmem⟩)) fun hmem => .inr (.inr ⟨hs, hmem⟩)

/-- The facts that `source` adds to `target`. -/
def newFacts {α : Type} [DecidableEq α] (target source : List α) : Finset α :=
  source.toFinset \ target.toFinset

theorem length_appendUnique {α : Type} [DecidableEq α] (target source : List α) :
    (appendUniqueCraigHelperFacts target source).length =
      target.length + (newFacts target source).card := by
  unfold appendUniqueCraigHelperFacts
  induction source generalizing target with
  | nil => simp [newFacts]
  | cons fact source ih =>
    rw [List.foldl_cons, ih]
    split
    · rename_i hmem
      have hsame : newFacts target (fact :: source) = newFacts target source := by
        rw [newFacts, List.toFinset_cons, Finset.insert_sdiff_of_mem _ (List.mem_toFinset.mpr hmem)]
        rfl
      rw [hsame]
    · rename_i hnew
      have hinsert : newFacts target (fact :: source) =
          insert fact (newFacts (target ++ [fact]) source) := by
        ext x
        by_cases hx : x = fact <;> simp [newFacts, hx, hnew]
      have hfresh : fact ∉ newFacts (target ++ [fact]) source := by simp [newFacts]
      rw [hinsert, Finset.card_insert_of_notMem hfresh, List.length_append, List.length_singleton]
      omega

/-- A fact that is there already changes no map. -/
theorem foldl_emplaceConstant_appendUnique (target source : Constants) :
    (appendUniqueCraigHelperFacts target source).foldl emplaceConstant [] =
      (target ++ source).foldl emplaceConstant [] := by
  unfold appendUniqueCraigHelperFacts
  induction source generalizing target with
  | nil => rw [List.append_nil, List.foldl_nil]
  | cons fact source ih =>
    rw [List.foldl_cons, ih]
    split
    · rename_i hmem
      have hknown : fact.1 ∈ symbols (target.foldl emplaceConstant []) :=
        symbols_foldl_emplaceConstant.mpr (.inr (List.mem_map_of_mem hmem))
      have hsame : emplaceConstant (target.foldl emplaceConstant []) fact =
          target.foldl emplaceConstant [] := by
        exact if_pos (List.contains_iff_mem.mpr hknown)
      rw [List.foldl_append, List.foldl_append, List.foldl_cons, hsame]
    · rw [List.append_assoc, List.singleton_append]

section
variable {p : KInductionProblem} {leaves : List Nat} {σ : Valuation}

/-- The facts are few enough once they are closed over the complements. -/
def ClosureFits (p : KInductionProblem) (X : AuxiliaryStateInvariants) : Prop :=
  (p.closeAuxiliaryInvariantConstantComplements X).constants.dedup.length +
    (p.closeAuxiliaryInvariantConstantComplements X).equalities.dedup.length ≤
      kCraigHelperAuxiliaryCarryLimit

instance (p : KInductionProblem) (X : AuxiliaryStateInvariants) : Decidable (ClosureFits p X) :=
  inferInstanceAs (Decidable (_ ≤ _))

/-- The facts are few enough for a query to take them. -/
def Carried (p : KInductionProblem) (X : AuxiliaryStateInvariants) : Prop :=
  X.constants.length + X.equalities.length ≤ kCraigHelperAuxiliaryCarryLimit ∧ ClosureFits p X

/-- The facts of both helpers, one list after the other. -/
def bothFacts (h₁ h₂ : ReusableCraigInvariant) : AuxiliaryStateInvariants where
  constants := h₁.auxiliaryConstants ++ h₂.auxiliaryConstants
  equalities := h₁.auxiliaryEqualities ++ h₂.auxiliaryEqualities

/-- The facts of the first helper and those that the second adds are few enough, also once all
of them are closed. -/
def CarriedTogether (p : KInductionProblem) (h₁ h₂ : ReusableCraigInvariant) : Prop :=
  h₁.auxiliaryConstants.length + (newFacts h₁.auxiliaryConstants h₂.auxiliaryConstants).card +
      (h₁.auxiliaryEqualities.length +
        (newFacts h₁.auxiliaryEqualities h₂.auxiliaryEqualities).card) ≤
    kCraigHelperAuxiliaryCarryLimit ∧ ClosureFits p (bothFacts h₁ h₂)

instance (p : KInductionProblem) (h₁ h₂ : ReusableCraigInvariant) :
    Decidable (CarriedTogether p h₁ h₂) :=
  inferInstanceAs (Decidable (_ ∧ _))

theorem carried_combine {h₁ h₂ : ReusableCraigInvariant} :
    Carried p (combineCraigHelperInvariants h₁ h₂).facts ↔ CarriedTogether p h₁ h₂ := by
  have hclosed : ClosureFits p (combineCraigHelperInvariants h₁ h₂).facts ↔
      ClosureFits p (bothFacts h₁ h₂) := by
    have hconstants : (p.closeAuxiliaryInvariantConstantComplements
        (combineCraigHelperInvariants h₁ h₂).facts).constants =
          (p.closeAuxiliaryInvariantConstantComplements (bothFacts h₁ h₂)).constants :=
      congrArg p.closeComplementStateConstants (foldl_emplaceConstant_appendUnique _ _)
    have hequalities : (p.closeAuxiliaryInvariantConstantComplements
        (combineCraigHelperInvariants h₁ h₂).facts).equalities.dedup.length =
          (p.closeAuxiliaryInvariantConstantComplements (bothFacts h₁ h₂)).equalities.dedup.length :=
      by
        rw [← List.card_toFinset, ← List.card_toFinset]
        congr 1
        ext e
        rw [List.mem_toFinset, List.mem_toFinset]
        exact mem_appendUnique.trans List.mem_append.symm
    rw [ClosureFits, hconstants, hequalities, ClosureFits]
  have hlength : (combineCraigHelperInvariants h₁ h₂).facts.constants.length =
      h₁.auxiliaryConstants.length +
        (newFacts h₁.auxiliaryConstants h₂.auxiliaryConstants).card := length_appendUnique _ _
  have hlength' : (combineCraigHelperInvariants h₁ h₂).facts.equalities.length =
      h₁.auxiliaryEqualities.length +
        (newFacts h₁.auxiliaryEqualities h₂.auxiliaryEqualities).card := length_appendUnique _ _
  rw [Carried, CarriedTogether, hlength, hlength', hclosed]

/-- A query reads the closed facts of a helper, or none when they are too many. -/
theorem factsHold_helper {X : AuxiliaryStateInvariants} :
    FactsHold leaves (p.helperAuxiliaryStateInvariantsFromOptions X) σ ↔
      (Carried p X → FactsHold leaves (p.closeAuxiliaryInvariantConstantComplements X) σ) := by
  unfold helperAuxiliaryStateInvariantsFromOptions
  split
  · rename_i hraw
    exact ⟨fun _ hX => absurd hX.1 (by omega), fun _ => ⟨nofun, nofun⟩⟩
  · rename_i hraw
    dsimp only
    split
    · rename_i hclosed
      exact ⟨fun _ hX => absurd hX.2 (by unfold ClosureFits; omega), fun _ => ⟨nofun, nofun⟩⟩
    · rename_i hclosed
      have hX : Carried p X := ⟨by omega, by unfold ClosureFits; omega⟩
      constructor
      · intro h _
        exact ⟨fun c hc => h.constants c (List.mem_dedup.mpr hc),
          fun e he => h.equalities e (List.mem_dedup.mpr he)⟩
      · intro h
        exact ⟨fun c hc => (h hX).constants c (List.mem_dedup.mp hc),
          fun e he => (h hX).equalities e (List.mem_dedup.mp he)⟩

/-- A closed constant has the value of every state on which the facts hold, so another closure
with its symbol says the same. -/
theorem FactsHold.closed_constant {X Y : AuxiliaryStateInvariants} {σ₀ : Valuation}
    (hσ₀ : p.DomainValid σ₀) (hX : X.Hold σ₀) (hY : Y.Hold σ₀)
    (h : FactsHold leaves (p.closeAuxiliaryInvariantConstantComplements Y) σ) {c : Nat × Bool}
    (hc : c ∈ (p.closeAuxiliaryInvariantConstantComplements X).constants) (hleaf : c.1 ∈ leaves)
    (hsymbol : c.1 ∈ symbols (p.closeAuxiliaryInvariantConstantComplements Y).constants) :
    lit σ c.1 = c.2 := by
  obtain ⟨d, hd, hsame⟩ := List.mem_map.mp hsymbol
  have hvalue := (hold_closeAuxiliary hσ₀ hY).constants d hd
  have hvalue' := (hold_closeAuxiliary hσ₀ hX).constants c hc
  rw [hsame, hvalue'] at hvalue
  rw [← hsame, hvalue]
  exact h.constants d hd (hsame ▸ hleaf)

/-- Where all facts hold of some state, the closure of the combined facts says what the two
closures say. -/
theorem factsHold_combine {h₁ h₂ : ReusableCraigInvariant} {σ₀ : Valuation}
    (hσ₀ : p.DomainValid σ₀) (hall : (combineCraigHelperInvariants h₁ h₂).facts.Hold σ₀) :
    FactsHold leaves (p.closeAuxiliaryInvariantConstantComplements
        (combineCraigHelperInvariants h₁ h₂).facts) σ ↔
      FactsHold leaves (p.closeAuxiliaryInvariantConstantComplements h₁.facts) σ ∧
        FactsHold leaves (p.closeAuxiliaryInvariantConstantComplements h₂.facts) σ := by
  have hfirst : h₁.facts.Hold σ₀ :=
    ⟨fun c hc => hall.constants c (mem_appendUnique.mpr (.inl hc)),
      fun e he => hall.equalities e (mem_appendUnique.mpr (.inl he))⟩
  have hsecond : h₂.facts.Hold σ₀ :=
    ⟨fun c hc => hall.constants c (mem_appendUnique.mpr (.inr hc)),
      fun e he => hall.equalities e (mem_appendUnique.mpr (.inr he))⟩
  have hsymbols : ∀ s, s ∈ symbols ((combineCraigHelperInvariants h₁ h₂).facts.constants.foldl
      emplaceConstant []) ↔ s ∈ symbols (h₁.facts.constants.foldl emplaceConstant []) ∨
        s ∈ symbols (h₂.facts.constants.foldl emplaceConstant []) := by
    intro s
    have hread : ∀ cs : Constants, s ∈ symbols (cs.foldl emplaceConstant []) ↔ s ∈ symbols cs :=
      fun cs => symbols_foldl_emplaceConstant.trans (or_iff_right List.not_mem_nil)
    rw [hread, hread, hread]
    constructor
    · intro h
      obtain ⟨c, hc, rfl⟩ := List.mem_map.mp h
      exact (mem_appendUnique.mp hc).imp List.mem_map_of_mem List.mem_map_of_mem
    · rintro (h | h)
      all_goals obtain ⟨c, hc, rfl⟩ := List.mem_map.mp h
      · exact List.mem_map_of_mem (mem_appendUnique.mpr (.inl hc))
      · exact List.mem_map_of_mem (mem_appendUnique.mpr (.inr hc))
  constructor
  · intro h
    refine ⟨⟨fun c hc hleaf => ?_, fun e he => h.equalities e (mem_appendUnique.mpr (.inl he))⟩,
      ⟨fun c hc hleaf => ?_, fun e he => h.equalities e (mem_appendUnique.mpr (.inr he))⟩⟩
    · refine h.closed_constant hσ₀ hfirst hall hc hleaf ?_
      refine (symbols_foldl_closeComplementPair_or (fun s hs => ?_) c.1
        (List.mem_map_of_mem hc)).elim id id
      exact .inl ((hsymbols s).mpr (.inl hs))
    · refine h.closed_constant hσ₀ hsecond hall hc hleaf ?_
      refine (symbols_foldl_closeComplementPair_or (fun s hs => ?_) c.1
        (List.mem_map_of_mem hc)).elim id id
      exact .inl ((hsymbols s).mpr (.inr hs))
  · rintro ⟨h, h'⟩
    refine ⟨fun c hc hleaf => ?_, fun e he =>
      (mem_appendUnique.mp he).elim (h.equalities e) (h'.equalities e)⟩
    rcases symbols_foldl_closeComplementPair_or (fun s hs => (hsymbols s).mp hs) c.1
      (List.mem_map_of_mem hc) with hsymbol | hsymbol
    · exact h.closed_constant hσ₀ hall hfirst hc hleaf hsymbol
    · exact h'.closed_constant hσ₀ hall hsecond hc hleaf hsymbol

end

/-! ## The conjunction -/

section
variable {p : KInductionProblem} {frame : Nat} {leaves : List Nat} {σ : Valuation}
  {h₁ h₂ : ReusableCraigInvariant}

theorem UnionHolds.ne_nil {regions : List InterpolantRegion} {values : Nat → Bool}
    (h : UnionHolds regions values) : regions ≠ [] := by
  rintro rfl
  obtain ⟨_, -, i, r, hi, -⟩ := h
  cases hi

/-- The state is in a region of one of the helpers, or neither has regions. -/
def InRegions (h₁ h₂ : ReusableCraigInvariant) (σ : Valuation) : Prop :=
  h₁.regions = [] ∧ h₂.regions = [] ∨
    UnionHolds h₁.regions (lit σ) ∨ UnionHolds h₂.regions (lit σ)

theorem regionsHold_combine (htotal₁ : ∀ r ∈ h₁.regions, r.Total)
    (htotal₂ : ∀ r ∈ h₂.regions, r.Total) :
    (combineCraigHelperInvariants h₁ h₂).RegionsHold σ ↔ InRegions h₁ h₂ σ := by
  have htotal : ∀ r ∈ h₁.regions ++ h₂.regions, r.Total := fun r hr =>
    (List.mem_append.mp hr).elim (htotal₁ r) (htotal₂ r)
  unfold RegionsHold InRegions combineCraigHelperInvariants
  rw [List.append_eq_nil_iff, unionHolds_iff htotal, unionHolds_iff htotal₁,
    unionHolds_iff htotal₂]
  simp only [List.mem_append, or_and_right, exists_or]

variable (p leaves h₁ h₂) in
/-- The closed facts of both helpers hold. -/
def BothFactsHold (σ : Valuation) : Prop :=
  FactsHold leaves (p.closeAuxiliaryInvariantConstantComplements h₁.facts) σ ∧
    FactsHold leaves (p.closeAuxiliaryInvariantConstantComplements h₂.facts) σ

variable (p leaves) in
/-- The facts that a query takes from the helper alone hold. -/
def OwnFactsHold (h : ReusableCraigInvariant) (σ : Valuation) : Prop :=
  Carried p h.facts → FactsHold leaves (p.closeAuxiliaryInvariantConstantComplements h.facts) σ

variable (p leaves h₁ h₂) in
/-- The facts of both helpers are carried together, or the regions imply what a query takes from
each helper alone. -/
def FactsKept : Prop :=
  CarriedTogether p h₁ h₂ ∨
    ∀ σ, InRegions h₁ h₂ σ → OwnFactsHold p leaves h₁ σ ∧ OwnFactsHold p leaves h₂ σ

variable (p leaves h₁ h₂) in
/-- One helper has no regions, or the two unions have the same states, among those that the facts
allow where they are carried together. -/
def UnionsAgree : Prop :=
  h₁.regions = [] ∨ h₂.regions = [] ∨
    ∀ σ, (CarriedTogether p h₁ h₂ → BothFactsHold p leaves h₁ h₂ σ) →
      (UnionHolds h₁.regions (lit σ) ↔ UnionHolds h₂.regions (lit σ))

theorem Proved.combined_facts (hproved₁ : h₁.Proved p) (hproved₂ : h₂.Proved p)
    (hσ : p.postBootstrap.Reachable σ) : (combineCraigHelperInvariants h₁ h₂).facts.Hold σ where
  constants c hc := (mem_appendUnique.mp hc).elim ((hproved₁.facts σ hσ).constants c)
    ((hproved₂.facts σ hσ).constants c)
  equalities e he := (mem_appendUnique.mp he).elim ((hproved₁.facts σ hσ).equalities e)
    ((hproved₂.facts σ hσ).equalities e)

theorem Proved.combined_regions (hproved₁ : h₁.Proved p) (hproved₂ : h₂.Proved p)
    (hσ : p.postBootstrap.Reachable σ) : (combineCraigHelperInvariants h₁ h₂).RegionsHold σ := by
  rw [regionsHold_combine hproved₁.total hproved₂.total]
  rcases hproved₁.regions σ hσ with hnil₁ | hunion₁
  · rcases hproved₂.regions σ hσ with hnil₂ | hunion₂
    · exact .inl ⟨hnil₁, hnil₂⟩
    · exact .inr (.inr hunion₂)
  · exact .inr (.inl hunion₁)

theorem admits_of_reachable (hdomain : p.PreservesDomain) {h : ReusableCraigInvariant}
    (hregions : h.RegionsHold σ) (hfacts : h.facts.Hold σ) (hσ : p.postBootstrap.Reachable σ) :
    h.Admits p frame leaves σ := by
  have hall := hold_helperAuxiliary (reachable_domainValid hdomain hσ) hfacts
  exact admits_iff.mpr ⟨hregions, fun c hc _ => hall.constants c hc,
    fun e he _ _ => hall.equalities e he⟩

/-- The states that the combined helper of two proven ones allows. -/
theorem admits_combine_iff (hdomain : p.PreservesDomain)
    (hstart : ∃ σ, p.postBootstrap.Reachable σ) (hproved₁ : h₁.Proved p)
    (hproved₂ : h₂.Proved p) :
    (combineCraigHelperInvariants h₁ h₂).Admits p frame leaves σ ↔
      InRegions h₁ h₂ σ ∧ (CarriedTogether p h₁ h₂ → BothFactsHold p leaves h₁ h₂ σ) := by
  obtain ⟨σ₀, hσ₀⟩ := hstart
  rw [admits_iff, regionsHold_combine hproved₁.total hproved₂.total, factsHold_helper,
    carried_combine, factsHold_combine (reachable_domainValid hdomain hσ₀)
      (hproved₁.combined_facts hproved₂ hσ₀)]
  rfl

theorem admits_own_iff {h : ReusableCraigInvariant} :
    h.Admits p frame leaves σ ↔ h.RegionsHold σ ∧ OwnFactsHold p leaves h σ := by
  rw [admits_iff, factsHold_helper]
  rfl

/-- Facts that are carried together hold with what a query takes from each helper alone. -/
theorem FactsKept.own (hkept : FactsKept p leaves h₁ h₂) (hregions : InRegions h₁ h₂ σ)
    (hfacts : CarriedTogether p h₁ h₂ → BothFactsHold p leaves h₁ h₂ σ) :
    OwnFactsHold p leaves h₁ σ ∧ OwnFactsHold p leaves h₂ σ := by
  rcases hkept with hcarried | hkept
  · exact ⟨fun _ => (hfacts hcarried).1, fun _ => (hfacts hcarried).2⟩
  · exact hkept σ hregions

theorem UnionsAgree.own (hagree : UnionsAgree p leaves h₁ h₂) (hregions : InRegions h₁ h₂ σ)
    (hfacts : CarriedTogether p h₁ h₂ → BothFactsHold p leaves h₁ h₂ σ) :
    h₁.RegionsHold σ ∧ h₂.RegionsHold σ := by
  rcases hregions with ⟨hnil₁, hnil₂⟩ | hunion
  · exact ⟨.inl hnil₁, .inl hnil₂⟩
  · rcases hagree with hnil₁ | hnil₂ | hsame
    · exact ⟨.inl hnil₁, .inr (hunion.resolve_left fun h => UnionHolds.ne_nil h hnil₁)⟩
    · exact ⟨.inr (hunion.resolve_right fun h => UnionHolds.ne_nil h hnil₂), .inl hnil₂⟩
    · have hiff := hsame σ hfacts
      exact ⟨.inr (hunion.elim id hiff.mpr), .inr (hunion.elim hiff.mp id)⟩

/-- The combined helper is the conjunction of two proven helpers exactly when their facts fit
together and their unions of regions agree. -/
theorem conjoins_iff (hdomain : p.PreservesDomain) (hstart : ∃ σ, p.postBootstrap.Reachable σ)
    (hproved₁ : h₁.Proved p) (hproved₂ : h₂.Proved p) :
    Conjoins p frame leaves h₁ h₂ ↔ FactsKept p leaves h₁ h₂ ∧ UnionsAgree p leaves h₁ h₂ := by
  constructor
  · intro h
    have hown : ∀ σ, InRegions h₁ h₂ σ →
        (CarriedTogether p h₁ h₂ → BothFactsHold p leaves h₁ h₂ σ) →
        (h₁.RegionsHold σ ∧ OwnFactsHold p leaves h₁ σ) ∧
          h₂.RegionsHold σ ∧ OwnFactsHold p leaves h₂ σ := by
      intro σ hregions hfacts
      obtain ⟨hfirst, hsecond⟩ := h.excludes σ
        ((admits_combine_iff hdomain hstart hproved₁ hproved₂).mpr ⟨hregions, hfacts⟩)
      exact ⟨admits_own_iff.mp hfirst, admits_own_iff.mp hsecond⟩
    constructor
    · by_cases hcarried : CarriedTogether p h₁ h₂
      · exact .inl hcarried
      · refine .inr fun σ hregions => ?_
        obtain ⟨hfirst, hsecond⟩ := hown σ hregions fun hcarried' => absurd hcarried' hcarried
        exact ⟨hfirst.2, hsecond.2⟩
    · by_cases hne₁ : h₁.regions = []
      · exact .inl hne₁
      · by_cases hne₂ : h₂.regions = []
        · exact .inr (.inl hne₂)
        · refine .inr (.inr fun σ hfacts => ⟨fun hunion => ?_, fun hunion => ?_⟩)
          · exact (hown σ (.inr (.inl hunion)) hfacts).2.1.resolve_left hne₂
          · exact (hown σ (.inr (.inr hunion)) hfacts).1.1.resolve_left hne₁
  · intro h
    obtain ⟨hkept, hagree⟩ := h
    refine ⟨fun σ hσ => admits_of_reachable hdomain (hproved₁.combined_regions hproved₂ hσ)
      (hproved₁.combined_facts hproved₂ hσ) hσ, fun σ hadmits => ?_⟩
    obtain ⟨hregions, hfacts⟩ :=
      (admits_combine_iff hdomain hstart hproved₁ hproved₂).mp hadmits
    have hfactsOwn := hkept.own hregions hfacts
    have hregionsOwn := hagree.own hregions hfacts
    exact ⟨admits_own_iff.mpr ⟨hregionsOwn.1, hfactsOwn.1⟩,
      admits_own_iff.mpr ⟨hregionsOwn.2, hfactsOwn.2⟩⟩

end

/-! ## Two registers -/

/-- Two registers that start set and keep their values. -/
def heldPairProblem : KInductionProblem where
  bootstrapStateAssignments := [(5, true), (6, true)]
  state0Symbols := [6, 5]
  allSymbols := [5, 6]
  transitions0 := [(5, .var 5), (6, .var 6)]
  property := .var 5
  bad := .not (.var 5)

/-- A helper that says the register is set. -/
def registerSet (s : Nat) : ReusableCraigInvariant where
  regions := [{ type := .normal, root := ⟨.state s, true⟩ }]
  trackedStates := {s}

theorem heldPair_domainValid (σ : Valuation) : heldPairProblem.DomainValid σ where
  complemented _ h := nomatch h
  equal _ h := nomatch h
  rails _ h := nomatch h

theorem heldPair_transition : heldPairProblem.transitionAt 5 = some (.var 5) ∧
    heldPairProblem.transitionAt 6 = some (.var 6) := by
  decide

theorem heldPair_set {σ : Valuation} (h : heldPairProblem.postBootstrap.Reachable σ) :
    lit σ 5 = true ∧ lit σ 6 = true := by
  have hinductive : heldPairProblem.postBootstrap.Inductive
      fun σ => lit σ 5 = true ∧ lit σ 6 = true :=
    { init := fun σ hσ => by
        obtain ⟨τ, hτ, rfl⟩ := hσ
        exact ⟨hτ.bootstrap (5, true) (by decide), hτ.bootstrap (6, true) (by decide)⟩
      step := fun σ _ σ' hσ hstep => by
        rw [hstep.1.transition heldPair_transition.1, hstep.1.transition heldPair_transition.2]
        exact hσ }
  exact hinductive.reachable h

theorem heldPair_start : heldPairProblem.postBootstrap.Reachable fun _ => true :=
  .init ⟨fun _ _ => true,
    { initial := nofun
      matching := fun _ _ _ => ⟨fun _ => true, fun _ _ => rfl, rfl⟩
      domain := heldPair_domainValid _
      path := fun k hk => absurd hk (Nat.not_lt_zero k)
      asserted := fun k hk => absurd hk (Nat.not_lt_zero k)
      released := nofun
      bootstrap := by decide }, rfl⟩

theorem unionHolds_registerSet {s : Nat} {σ : Valuation} :
    UnionHolds (registerSet s).regions (lit σ) ↔ lit σ s = true := by
  rw [unionHolds_iff (by simp [registerSet, InterpolantRegion.Total, InterpolantRegion.encoding,
    evalQuery])]
  simp [registerSet, InterpolantRegion.Holds, InterpolantRegion.encoding, evalQuery, evalLit,
    InterpolantRegion.values]

theorem registerSet_proved {s : Nat} (hs : s = 5 ∨ s = 6) :
    (registerSet s).Proved heldPairProblem where
  total := by simp [registerSet, InterpolantRegion.Total, InterpolantRegion.encoding, evalQuery]
  regions σ hσ := by
    refine .inr (unionHolds_registerSet.mpr ?_)
    rcases hs with rfl | rfl
    · exact (heldPair_set hσ).1
    · exact (heldPair_set hσ).2
  facts _ _ := ⟨nofun, nofun⟩

/-- A helper with a region that says one register is set, and the fact that the other is. -/
def registerSetWithFact (s other : Nat) : ReusableCraigInvariant :=
  { registerSet s with auxiliaryConstants := [(other, true)] }

theorem registerSetWithFact_proved {s other : Nat} (hs : s = 5 ∨ s = 6)
    (hother : other = 5 ∨ other = 6) : (registerSetWithFact s other).Proved heldPairProblem where
  total := (registerSet_proved hs).total
  regions := (registerSet_proved hs).regions
  facts σ hσ := by
    refine ⟨fun c hc => ?_, nofun⟩
    obtain rfl := List.mem_singleton.mp hc
    rcases hother with rfl | rfl
    · exact (heldPair_set hσ).1
    · exact (heldPair_set hσ).2

/-- Two helpers with different regions, each implied by a fact of the other. -/
theorem conjoins_registerSet : Conjoins heldPairProblem 0 [5, 6] (registerSetWithFact 5 6)
    (registerSetWithFact 6 5) := by
  refine (conjoins_iff (fun _ σ' _ _ => heldPair_domainValid σ') ⟨_, heldPair_start⟩
    (registerSetWithFact_proved (.inl rfl) (.inr rfl))
    (registerSetWithFact_proved (.inr rfl) (.inl rfl))).mpr ⟨.inl (by decide), .inr (.inr ?_)⟩
  intro σ hfacts
  obtain ⟨hsix, hfive⟩ := hfacts (by decide)
  have h₆ : lit σ 6 = true := hsix.constants (6, true) (by decide) (by decide)
  have h₅ : lit σ 5 = true := hfive.constants (5, true) (by decide) (by decide)
  exact ⟨fun _ => unionHolds_registerSet.mpr h₆, fun _ => unionHolds_registerSet.mpr h₅⟩

/-- The combined helper allows a state with one register cleared, which the other excludes. -/
theorem not_conjoins_registerSet : heldPairProblem.PreservesDomain ∧
    (∃ σ, heldPairProblem.postBootstrap.Reachable σ) ∧
    (registerSet 5).Proved heldPairProblem ∧ (registerSet 6).Proved heldPairProblem ∧
    ¬ Conjoins heldPairProblem 0 [5, 6] (registerSet 5) (registerSet 6) := by
  refine ⟨fun _ σ' _ _ => heldPair_domainValid σ', ⟨_, heldPair_start⟩,
    registerSet_proved (.inl rfl), registerSet_proved (.inr rfl), fun h => ?_⟩
  have hadmits : (combineCraigHelperInvariants (registerSet 5) (registerSet 6)).Admits
      heldPairProblem 0 [5, 6] (· == 5) := by
    refine admits_own_iff.mpr ⟨?_, fun _ => ⟨nofun, nofun⟩⟩
    rw [regionsHold_combine (registerSet_proved (.inl rfl)).total
      (registerSet_proved (.inr rfl)).total]
    exact .inr (.inl (unionHolds_registerSet.mpr rfl))
  obtain ⟨-, hsecond⟩ := h.excludes _ hadmits
  have hcleared := unionHolds_registerSet.mp
    ((admits_iff.mp hsecond).1.resolve_left (by simp [registerSet]))
  exact absurd hcleared (by decide)

end ReusableCraigInvariant
end KeplerFormal
