import KeplerFormal.L4Engine.FrameClauses
import KeplerFormal.L4Engine.InitFacts

/-!
# Cubes and the clauses of frames (`src/sec/pdr/PDREngine.cpp`)

* `clauseFromCube`, `cubeFromClauseNegation`: a cube and the clause that excludes it.
* `FrameHolds`: the states of a frame; `FrameInv.holds_add`: what a clause changes.
* `cubeContradictsKnownInitFacts`: a definite conflict of a cube with the start states;
  `not_holds_of_contradicts`: it leaves no start state in the cube.
-/
namespace KeplerFormal

open Core

def kMaxComplementPairsForCheapInitCheck : Nat := 1024

def frameAt (frames : List FrameClauses) (level : Nat) : FrameClauses :=
  frames.getD level { clauses := [], addedClauseLog := [] }

/-- mirrors src/sec/pdr/PDREngine.cpp:3288-3296 -/
def clauseFromCube (cube : StateCube) : StateClause :=
  normalizeClause (cube.map fun literal => ⟨literal.symbol, !literal.value⟩)

/-- mirrors src/sec/pdr/PDREngine.cpp:3298-3306 -/
def cubeFromClauseNegation (clause : StateClause) : StateCube :=
  normalizeCube (clause.map fun literal => ⟨literal.symbol, !literal.positive⟩)

/-- Cubes are sorted, so the binary search finds the literal of a symbol.
mirrors src/sec/pdr/PDREngine.cpp:2734-2748 -/
def findCubeLiteralValue (cube : StateCube) (symbol : Nat) : Option Bool :=
  (cube.find? (·.symbol = symbol)).map (·.value)

/-! ## The states of a frame -/

def FrameHolds (frames : List FrameClauses) (level : Nat) (v : Valuation) : Prop :=
  ∀ clause ∈ (frameAt frames level).clauses, ClauseHolds (lit v) clause

theorem clauseHolds_normalizeClause (σ : Nat → Bool) (clause : StateClause) :
    ClauseHolds σ (normalizeClause clause) ↔ ClauseHolds σ clause := by
  simp only [ClauseHolds, mem_normalizeClause]

/-- A clause from a cube says that the state is not in the cube. -/
theorem clauseHolds_clauseFromCube (v : Valuation) (cube : StateCube) :
    ClauseHolds (lit v) (clauseFromCube cube) ↔ ¬ cube.Holds v := by
  rw [clauseFromCube, clauseHolds_normalizeClause]
  simp only [ClauseHolds, List.mem_map, StateCube.Holds]
  constructor
  · rintro ⟨_, ⟨literal, hmem, rfl⟩, hvalue⟩ hall
    rw [hall literal hmem] at hvalue
    simp at hvalue
  · intro h
    obtain ⟨literal, hmem, hne⟩ := not_forall₂.mp h
    exact ⟨_, ⟨literal, hmem, rfl⟩, Bool.eq_not.mpr hne⟩

theorem holds_cubeFromClauseNegation (v : Valuation) (clause : StateClause) :
    (cubeFromClauseNegation clause).Holds v ↔ ¬ ClauseHolds (lit v) clause := by
  simp only [cubeFromClauseNegation, StateCube.Holds, mem_normalizeCube, List.mem_map, ClauseHolds]
  constructor
  · rintro h ⟨literal, hmem, hvalue⟩
    have hcube := h _ ⟨literal, hmem, rfl⟩
    rw [hvalue] at hcube
    simp at hcube
  · rintro h _ ⟨literal, hmem, rfl⟩
    by_contra hne
    exact h ⟨literal, hmem, by simpa using hne⟩

/-- An accepted clause and a refused one leave the same states. -/
theorem FrameInv.holds_add {frame : FrameClauses} {accepted added : List StateClause}
    (h : FrameInv frame accepted added) (σ : Nat → Bool) (clause : StateClause) :
    (∀ c ∈ (addClauseToFrame frame clause).1.clauses, ClauseHolds σ c) ↔
      (∀ c ∈ frame.clauses, ClauseHolds σ c) ∧ ClauseHolds σ clause := by
  have hadd := (h.add clause).closure
  change upperClosure (family (addClauseToFrame frame clause).1.clauses) = _ at hadd
  rw [holds_iff_upperClosure, hadd, ← holds_iff_upperClosure,
    holds_iff_upperClosure σ frame.clauses,
    h.closure, ← holds_iff_upperClosure]
  simp only [List.mem_append, List.mem_singleton, or_imp, forall_and, forall_eq]

/-- Clauses added to a frame, one after the other. -/
def addClauses (frame : FrameClauses) (clauses : List StateClause) : FrameClauses :=
  clauses.foldl (fun frame clause => (addClauseToFrame frame clause).1) frame

/-- The frame says what it said and what the clauses say. -/
theorem FrameInv.addClauses {frame : FrameClauses} {accepted added : List StateClause}
    (h : FrameInv frame accepted added) (clauses : List StateClause) :
    (∃ accepted' added', FrameInv (addClauses frame clauses) accepted' added') ∧
      ∀ σ, (∀ c ∈ (KeplerFormal.addClauses frame clauses).clauses, ClauseHolds σ c) ↔
        (∀ c ∈ frame.clauses, ClauseHolds σ c) ∧ ∀ c ∈ clauses, ClauseHolds σ c := by
  induction clauses generalizing frame accepted added with
  | nil => exact ⟨⟨_, _, h⟩, fun σ => by simp [KeplerFormal.addClauses]⟩
  | cons clause clauses ih =>
    obtain ⟨hkept, hholds⟩ := ih (h.add clause)
    refine ⟨hkept, fun σ => (hholds σ).trans ?_⟩
    rw [List.forall_mem_cons, ← and_assoc]
    exact and_congr_left' (h.holds_add σ clause)

/-! ## Definite conflicts with the start states -/

/-- mirrors src/sec/pdr/PDREngine.cpp:2750-2764 -/
def contradictsAssignments (cube : StateCube) (initAssignments : List (Nat × Bool)) : Bool :=
  initAssignments.any fun a =>
    (findCubeLiteralValue cube a.1).any fun cubeValue => cubeValue != a.2

/-- mirrors src/sec/pdr/PDREngine.cpp:2785-2798 -/
def contradictsComplements (cube : StateCube) (complements : List (Nat × Nat)) : Bool :=
  complements.any fun pr =>
    match findCubeLiteralValue cube pr.1, findCubeLiteralValue cube pr.2 with
    | some primaryValue, some complementedValue => primaryValue == complementedValue
    | _, _ => false

/-- The assignments are looked up one by one, as without an index.
mirrors src/sec/pdr/PDREngine.cpp:2800-2828 -/
def cubeContradictsKnownInitFacts (p : KInductionProblem) (cube : StateCube) : Bool :=
  (p.resetBootstrapCycles == 0 && contradictsAssignments cube p.initialStateAssignments) ||
  (decide (p.complementedStatePairs0.length ≤ kMaxComplementPairsForCheapInitCheck) &&
    contradictsComplements cube p.complementedStatePairs0) ||
  (decide (p.complementedStatePairs1.length ≤ kMaxComplementPairsForCheapInitCheck) &&
    contradictsComplements cube p.complementedStatePairs1)

section Conflicts
variable {cube : StateCube} {v : Valuation}

theorem findCubeLiteralValue_holds (h : cube.Holds v) {s : Nat} {b : Bool}
    (hfind : findCubeLiteralValue cube s = some b) : lit v s = b := by
  unfold findCubeLiteralValue at hfind
  obtain ⟨literal, hfound, rfl⟩ := Option.map_eq_some_iff.mp hfind
  have hsymbol : literal.symbol = s := by simpa using List.find?_some hfound
  rw [← hsymbol]
  exact h literal (List.mem_of_find?_eq_some hfound)

theorem not_holds_of_contradictsAssignments {initAssignments : List (Nat × Bool)}
    (h : contradictsAssignments cube initAssignments = true)
    (hv : ∀ a ∈ initAssignments, lit v a.1 = a.2) : ¬ cube.Holds v := by
  intro hcube
  obtain ⟨a, ha, hany⟩ := List.any_eq_true.mp h
  cases hfind : findCubeLiteralValue cube a.1 with
  | none => simp [hfind] at hany
  | some b =>
    have hne : b ≠ a.2 := by simpa [hfind] using hany
    exact hne ((findCubeLiteralValue_holds hcube hfind).symm.trans (hv a ha))

theorem not_holds_of_contradictsComplements {complements : List (Nat × Nat)}
    (h : contradictsComplements cube complements = true)
    (hv : ∀ pr ∈ complements, lit v pr.2 = !lit v pr.1) : ¬ cube.Holds v := by
  intro hcube
  obtain ⟨pr, hpr, hany⟩ := List.any_eq_true.mp h
  cases hprimary : findCubeLiteralValue cube pr.1 with
  | none => simp [hprimary] at hany
  | some b =>
    cases hcomplement : findCubeLiteralValue cube pr.2 with
    | none => simp [hprimary, hcomplement] at hany
    | some b' =>
      obtain rfl : b = b' := by simpa [hprimary, hcomplement] using hany
      have hpair := hv pr hpr
      rw [findCubeLiteralValue_holds hcube hprimary,
        findCubeLiteralValue_holds hcube hcomplement] at hpair
      cases b <;> cases hpair

/-- A definite conflict leaves no start state in the cube. -/
theorem not_holds_of_contradicts {p : KInductionProblem}
    (h : cubeContradictsKnownInitFacts p cube = true) (hdomain : p.DomainValid v)
    (hassigned : p.resetBootstrapCycles = 0 → ∀ a ∈ p.initialStateAssignments, lit v a.1 = a.2) :
    ¬ cube.Holds v := by
  simp only [cubeContradictsKnownInitFacts, Bool.or_eq_true, Bool.and_eq_true, beq_iff_eq] at h
  rcases h with (⟨hcycles, h⟩ | ⟨-, h⟩) | ⟨-, h⟩
  · exact not_holds_of_contradictsAssignments h (hassigned hcycles)
  · exact not_holds_of_contradictsComplements h fun pr hpr =>
      hdomain.complemented pr (List.mem_append_left _ hpr)
  · exact not_holds_of_contradictsComplements h fun pr hpr =>
      hdomain.complemented pr (List.mem_append_right _ hpr)

end Conflicts

end KeplerFormal
