import Mathlib.Data.Finset.Sort
import Mathlib.Data.List.Sort
import KeplerFormal.Core.SatQuery
import KeplerFormal.L2Problem.System

/-!
# Interpolant regions (`src/sec/imc/CraigInterpolatingModelChecker.cpp`)

A region is a set of tracked states in clausal form: definition clauses over state
symbols and auxiliary variables, and a root literal. Every query that uses a region
takes its own copy of the auxiliary variables.

* `Holds`: the set a region stands for; `Total`: its definitions never exclude a state.
* `instantiateRegion`, `regionUnionConstraint`: the clauses of one region and of a
  union, and `evalQuery_instantiateRegions`, `unionHolds_of_holds` on what they say.
* `answersUnsat`: the answer every query is made for; `craigSolver`: a solver that
  always answers.
-/
namespace KeplerFormal

open Core

/-! ## Variables of a Craig query -/

inductive RegionVariable where
  | state (symbol : Nat)
  | auxiliary (index : Nat)
  deriving DecidableEq, Repr

/-- mirrors src/sec/imc/CraigInterpolatingModelChecker.h:15-21 -/
abbrev RegionLiteral := Lit RegionVariable

/-- Which instantiation of a region an auxiliary variable belongs to. -/
inductive RegionCopy where
  | helper (frame index : Nat)
  | reachable (index : Nat)
  | candidate
  deriving DecidableEq, Repr

/-- An encoder that starts from the tracked leaves of a frame and allocates the
other leaves for itself. -/
inductive LeafKind where
  | transition
  | bad
  | initial
  deriving DecidableEq, Repr

inductive CraigVariable where
  | state (frame symbol : Nat)
  | leaf (kind : LeafKind) (frame symbol : Nat)
  | auxiliary (copy : RegionCopy) (index : Nat)
  deriving DecidableEq, Repr

abbrev CraigModel := CraigVariable → Bool

/-- The leaf map of an encoder: the frame's own leaves, or `shared` leaves of the
frame and private ones for the rest. -/
inductive LeafScope where
  | frame (frame : Nat)
  | encoder (kind : LeafKind) (frame : Nat) (shared : List Nat)
  deriving DecidableEq, Repr

def LeafScope.leaf : LeafScope → Nat → CraigVariable
  | .frame k, s => .state k s
  | .encoder kind k shared, s => if s ∈ shared then .state k s else .leaf kind k s

/-- The values an encoder sees. -/
def LeafScope.values (scope : LeafScope) (m : CraigModel) : Valuation := fun s => m (scope.leaf s)

inductive CraigAtom where
  | leaf (v : CraigVariable)
  /-- the literal an encoder returns for a formula -/
  | formula (scope : LeafScope) (expr : BoolExpr)
  deriving DecidableEq, Repr

def evalCraigAtom (m : CraigModel) : CraigAtom → Bool
  | .leaf v => m v
  | .formula scope e => e.eval (scope.values m)

abbrev CraigLit := Lit CraigAtom
abbrev CraigQuery := Query CraigAtom
abbrev CraigSatSolver (σ : Type) := SatSolver σ evalCraigAtom

/-- A solver built for one query; `true` is the answer `Unsat`. -/
def answersUnsat {σ : Type} (S : CraigSatSolver σ) (fresh : σ) (q : CraigQuery) : Bool :=
  match (S.solve fresh q [] .unlimited).1 with
  | .unsat => true
  | _ => false

theorem not_satisfiable_of_answersUnsat {σ : Type} {S : CraigSatSolver σ} {fresh : σ}
    {q : CraigQuery} (h : answersUnsat S fresh q = true) : ¬ Satisfiable evalCraigAtom q := by
  unfold answersUnsat at h
  cases hsolve : (S.solve fresh q [] .unlimited).1 with
  | unsat => exact S.not_satisfiable hsolve
  | sat m => rw [hsolve] at h; cases h
  | unknown => rw [hsolve] at h; cases h

theorem answersUnsat_eq_false {σ : Type} {S : CraigSatSolver σ} {fresh : σ} {q : CraigQuery}
    (h : Satisfiable evalCraigAtom q) : answersUnsat S fresh q = false := by
  cases hanswer : answersUnsat S fresh q with
  | false => rfl
  | true => exact absurd h (not_satisfiable_of_answersUnsat hanswer)

theorem answersUnsat_of_not_satisfiable {σ : Type} {S : CraigSatSolver σ}
    (hS : S.DecidesUnlimited) {fresh : σ} {q : CraigQuery}
    (h : ¬ Satisfiable evalCraigAtom q) : answersUnsat S fresh q = true := by
  unfold answersUnsat
  cases hsolve : (S.solve fresh q [] .unlimited).1 with
  | unsat => rfl
  | sat m => exact absurd (S.satisfiable hsolve) h
  | unknown => exact absurd hsolve (hS fresh q [])

/-- The variables an atom depends on. -/
def CraigAtom.leaves : CraigAtom → List CraigVariable
  | .leaf v => [v]
  | .formula scope e => (e.getSupportVars.sort (· ≤ ·)).map scope.leaf

/-- A solver for Craig queries that tries every model. -/
def craigSolver : CraigSatSolver Unit :=
  exhaustiveOver evalCraigAtom CraigAtom.leaves fun a m m' h => by
    cases a with
    | leaf v => exact h v (List.mem_singleton.mpr rfl)
    | formula scope e =>
      exact BoolExpr.eval_congr fun s hs _ =>
        h _ (List.mem_map.mpr ⟨s, (Finset.mem_sort _).mpr hs, rfl⟩)

theorem craigSolver_decides : craigSolver.DecidesUnlimited :=
  SatSolver.Decides.unlimited (exhaustiveOver_decides _ _ _)

/-! ## Regions -/

inductive RegionType where
  | constantFalse
  | constantTrue
  | normal
  deriving DecidableEq, Repr

/-- The clauses of the flat storage, one list each.
mirrors src/sec/imc/CraigInterpolatingModelChecker.h:23-37 -/
structure InterpolantRegion where
  type : RegionType := .constantFalse
  auxiliaryCount : Nat := 0
  definitions : List (List RegionLiteral) := []
  root : RegionLiteral := ⟨.state 0, true⟩
  deriving DecidableEq, Repr

namespace InterpolantRegion

/-- The clauses a copy adds and its root; a constant region allocates one variable.
mirrors src/sec/imc/CraigInterpolatingModelChecker.cpp:2616-2658 -/
def encoding (r : InterpolantRegion) : Query RegionVariable × RegionLiteral :=
  match r.type with
  | .constantTrue => ([[⟨.auxiliary 0, true⟩]], ⟨.auxiliary 0, true⟩)
  | .constantFalse => ([[⟨.auxiliary 0, false⟩]], ⟨.auxiliary 0, true⟩)
  | .normal => (r.definitions, r.root)

def values (σ a : Nat → Bool) : RegionVariable → Bool
  | .state s => σ s
  | .auxiliary i => a i

/-- The state is in the set the region stands for. -/
def Holds (r : InterpolantRegion) (σ : Nat → Bool) : Prop :=
  ∃ a, evalQuery (values σ a) r.encoding.1 = true ∧ evalLit (values σ a) r.encoding.2 = true

/-- The definitions constrain the auxiliary variables only. -/
def Total (r : InterpolantRegion) : Prop :=
  ∀ σ, ∃ a, evalQuery (values σ a) r.encoding.1 = true

/-- `stateLits.at` and `auxiliaryLits.at` find every variable of the region. -/
def instantiable (tracked : List Nat) (r : InterpolantRegion) : Bool :=
  r.type != .normal || (r.definitions.flatten ++ [r.root]).all fun l =>
    match l.atom with
    | .state s => tracked.contains s
    | .auxiliary i => i < r.auxiliaryCount

end InterpolantRegion

/-! ## Regions in a query -/

def copyAtom (copy : RegionCopy) (frame : Nat) : RegionVariable → CraigAtom
  | .state s => .leaf (.state frame s)
  | .auxiliary i => .leaf (.auxiliary copy i)

/-- mirrors src/sec/imc/CraigInterpolatingModelChecker.cpp:2616-2658 -/
def instantiateRegion (copy : RegionCopy) (frame : Nat) (r : InterpolantRegion) :
    CraigQuery × CraigLit :=
  (renameQuery (copyAtom copy frame) r.encoding.1, r.encoding.2.rename (copyAtom copy frame))

/-- The copies of a list of regions, numbered from `first`. -/
def instantiateRegions (copy : Nat → RegionCopy) (frame first : Nat) :
    List InterpolantRegion → CraigQuery × List CraigLit
  | [] => ([], [])
  | r :: rs =>
    ((instantiateRegion (copy first) frame r).1 ++ (instantiateRegions copy frame (first + 1) rs).1,
      (instantiateRegion (copy first) frame r).2 :: (instantiateRegions copy frame (first + 1) rs).2)

/-- mirrors src/sec/imc/CraigInterpolatingModelChecker.cpp:2660-2677 -/
def regionUnionConstraint (copy : Nat → RegionCopy) (frame : Nat)
    (regions : List InterpolantRegion) : CraigQuery :=
  if regions = [] then []
  else (instantiateRegions copy frame 0 regions).1 ++ [(instantiateRegions copy frame 0 regions).2]

/-- The union contains the state, as the code's own clauses say it: every definition
holds for some auxiliary values and one root is true. -/
def UnionHolds (regions : List InterpolantRegion) (σ : Nat → Bool) : Prop :=
  ∃ a : Nat → Nat → Bool,
    (∀ i r, regions[i]? = some r →
      evalQuery (InterpolantRegion.values σ (a i)) r.encoding.1 = true) ∧
    ∃ i r, regions[i]? = some r ∧ evalLit (InterpolantRegion.values σ (a i)) r.encoding.2 = true

/-- The state of one frame. -/
def CraigModel.state (m : CraigModel) (frame : Nat) : Nat → Bool := fun s => m (.state frame s)

def CraigModel.copy (m : CraigModel) (c : RegionCopy) : Nat → Bool := fun i => m (.auxiliary c i)

theorem evalCraigAtom_copyAtom (m : CraigModel) (copy : RegionCopy) (frame : Nat) :
    evalCraigAtom m ∘ copyAtom copy frame = InterpolantRegion.values (m.state frame) (m.copy copy) := by
  funext v
  cases v with
  | state s => rfl
  | auxiliary i => rfl

@[simp] theorem evalQuery_instantiateRegion (m : CraigModel) (copy : RegionCopy) (frame : Nat)
    (r : InterpolantRegion) :
    evalQuery (evalCraigAtom m) (instantiateRegion copy frame r).1 =
      evalQuery (InterpolantRegion.values (m.state frame) (m.copy copy)) r.encoding.1 := by
  rw [instantiateRegion, evalQuery_renameQuery, evalCraigAtom_copyAtom]

@[simp] theorem evalLit_instantiateRegion (m : CraigModel) (copy : RegionCopy) (frame : Nat)
    (r : InterpolantRegion) :
    evalLit (evalCraigAtom m) (instantiateRegion copy frame r).2 =
      evalLit (InterpolantRegion.values (m.state frame) (m.copy copy)) r.encoding.2 := by
  rw [instantiateRegion, evalLit_rename, evalCraigAtom_copyAtom]

/-- The definition clauses of a list of copies. -/
theorem evalQuery_instantiateRegions (m : CraigModel) (copy : Nat → RegionCopy) (frame first : Nat)
    (rs : List InterpolantRegion) :
    evalQuery (evalCraigAtom m) (instantiateRegions copy frame first rs).1 = true ↔
      ∀ i r, rs[i]? = some r →
        evalQuery (InterpolantRegion.values (m.state frame) (m.copy (copy (first + i))))
          r.encoding.1 = true := by
  induction rs generalizing first with
  | nil => simp [instantiateRegions]
  | cons r rs ih =>
    simp only [instantiateRegions, evalQuery_append, evalQuery_instantiateRegion,
      Bool.and_eq_true, ih]
    constructor
    · rintro ⟨hr, hrs⟩ i r' hi
      cases i with
      | zero =>
        simp only [List.getElem?_cons_zero, Option.some.injEq] at hi
        subst hi
        exact hr
      | succ i =>
        have htail := hrs i r' (by simpa using hi)
        rwa [Nat.add_assoc, Nat.add_comm 1 i] at htail
    · intro h
      refine ⟨h 0 r rfl, fun i r' hi => ?_⟩
      rw [Nat.add_assoc, Nat.add_comm 1 i]
      exact h (i + 1) r' (by simpa using hi)

/-- The roots of a list of copies. -/
theorem mem_instantiateRegions {copy : Nat → RegionCopy} {frame first : Nat}
    {rs : List InterpolantRegion} {l : CraigLit} :
    l ∈ (instantiateRegions copy frame first rs).2 ↔
      ∃ i r, rs[i]? = some r ∧ l = (instantiateRegion (copy (first + i)) frame r).2 := by
  induction rs generalizing first with
  | nil => simp [instantiateRegions]
  | cons r rs ih =>
    simp only [instantiateRegions, List.mem_cons, ih]
    constructor
    · rintro (rfl | ⟨i, r', hi, rfl⟩)
      · exact ⟨0, r, rfl, rfl⟩
      · exact ⟨i + 1, r', by simpa using hi, by rw [Nat.add_assoc, Nat.add_comm 1 i]⟩
    · rintro ⟨i, r', hi, rfl⟩
      cases i with
      | zero =>
        simp only [List.getElem?_cons_zero, Option.some.injEq] at hi
        subst hi
        exact .inl rfl
      | succ i =>
        exact .inr ⟨i, r', by simpa using hi, by rw [Nat.add_assoc, Nat.add_comm 1 i]⟩

/-- What the union constraint says of a model. -/
theorem evalQuery_regionUnionConstraint (m : CraigModel) (copy : Nat → RegionCopy) (frame : Nat)
    {rs : List InterpolantRegion} (hne : rs ≠ []) :
    evalQuery (evalCraigAtom m) (regionUnionConstraint copy frame rs) = true ↔
      (∀ i r, rs[i]? = some r →
        evalQuery (InterpolantRegion.values (m.state frame) (m.copy (copy i))) r.encoding.1 = true) ∧
      ∃ i r, rs[i]? = some r ∧
        evalLit (InterpolantRegion.values (m.state frame) (m.copy (copy i))) r.encoding.2 = true := by
  rw [regionUnionConstraint, if_neg hne, evalQuery_append, Bool.and_eq_true,
    evalQuery_instantiateRegions, evalQuery_cons, evalQuery_nil, Bool.and_true, evalClause_iff]
  simp only [Nat.zero_add]
  refine and_congr_right fun _ => ⟨?_, ?_⟩
  · rintro ⟨l, hl, hval⟩
    obtain ⟨i, r, hi, rfl⟩ := mem_instantiateRegions.mp hl
    rw [Nat.zero_add, evalLit_instantiateRegion] at hval
    exact ⟨i, r, hi, hval⟩
  · rintro ⟨i, r, hi, hval⟩
    refine ⟨_, mem_instantiateRegions.mpr ⟨i, r, hi, rfl⟩, ?_⟩
    rw [Nat.zero_add, evalLit_instantiateRegion]
    exact hval

theorem UnionHolds.exists_holds {rs : List InterpolantRegion} {σ : Nat → Bool}
    (h : UnionHolds rs σ) : ∃ r ∈ rs, r.Holds σ := by
  obtain ⟨a, hdefs, i, r, hi, hroot⟩ := h
  exact ⟨r, List.mem_of_getElem? hi, a i, hdefs i r hi, hroot⟩

/-- Auxiliary values that satisfy the definitions of every copy. -/
theorem exists_definitions {rs : List InterpolantRegion} (htotal : ∀ r ∈ rs, r.Total)
    (σ : Nat → Bool) : ∃ b : Nat → Nat → Bool, ∀ (i : Nat) (r : InterpolantRegion),
      rs[i]? = some r → evalQuery (InterpolantRegion.values σ (b i)) r.encoding.1 = true := by
  have hone : ∀ i : Nat, ∃ b : Nat → Bool, ∀ r : InterpolantRegion, rs[i]? = some r →
      evalQuery (InterpolantRegion.values σ b) r.encoding.1 = true := by
    intro i
    cases hi : rs[i]? with
    | none => exact ⟨fun _ => false, by simp⟩
    | some r =>
      obtain ⟨b, hb⟩ := htotal r (List.mem_of_getElem? hi) σ
      exact ⟨b, fun r' hr' => by rw [Option.some.injEq] at hr'; exact hr' ▸ hb⟩
  choose b hb using hone
  exact ⟨b, hb⟩

/-- Total definitions leave room for the witness of any one region. -/
theorem unionHolds_of_holds {rs : List InterpolantRegion} {σ : Nat → Bool}
    (htotal : ∀ r ∈ rs, r.Total) {r : InterpolantRegion} (hr : r ∈ rs) (h : r.Holds σ) :
    UnionHolds rs σ := by
  obtain ⟨i, hi⟩ := List.getElem?_of_mem hr
  obtain ⟨a, ha, hroot⟩ := h
  obtain ⟨b, hb⟩ := exists_definitions htotal σ
  refine ⟨fun j => if j = i then a else b j, fun j r' hj => ?_, i, r, hi, by simpa using hroot⟩
  by_cases hij : j = i
  · subst hij
    rw [hi, Option.some.injEq] at hj
    subst hj
    simpa using ha
  · simpa [hij] using hb j r' hj

theorem unionHolds_iff {rs : List InterpolantRegion} {σ : Nat → Bool}
    (htotal : ∀ r ∈ rs, r.Total) : UnionHolds rs σ ↔ ∃ r ∈ rs, r.Holds σ :=
  ⟨UnionHolds.exists_holds, fun ⟨_, hr, h⟩ => unionHolds_of_holds htotal hr h⟩

end KeplerFormal
