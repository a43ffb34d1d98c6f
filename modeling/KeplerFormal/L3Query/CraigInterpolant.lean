import Mathlib.Data.List.GetD
import KeplerFormal.L3Query.CraigRegion

/-!
# From interpolant clauses to regions (`src/sec/imc/CraigInterpolatingModelChecker.cpp`)

The interpolating solver returns definition clauses and a root over the global
variables and variables of its own. `convertInterpolant` renumbers the latter and
simplifies the clauses.

* `Interpolates`: what the solver promises of its clauses.
* `evalQuery_simplified`: sorting, subsumption and implication checks keep the
  clauses' meaning.
* `holds_convertInterpolant`, `total_convertInterpolant`: the region is the
  interpolant.
* `simplifyCraigInterpolantRegion_exact`: a region whose definitions determine its
  auxiliary variables keeps its states and their complement.
-/
namespace KeplerFormal

open Core

inductive CnfVariable where
  | global (symbol : Nat)
  | own (number : Nat)
  deriving DecidableEq, Repr

inductive CraigInterpolantCnf where
  | constantFalse
  | constantTrue
  | normal (clauses : List (List (Lit CnfVariable))) (root : Lit CnfVariable)
  deriving DecidableEq, Repr

namespace CraigInterpolantCnf

def values (σ b : Nat → Bool) : CnfVariable → Bool
  | .global s => σ s
  | .own n => b n

def Holds (σ : Nat → Bool) : CraigInterpolantCnf → Prop
  | .constantFalse => False
  | .constantTrue => True
  | .normal clauses root =>
    ∃ b, evalQuery (values σ b) clauses = true ∧ evalLit (values σ b) root = true

def Total : CraigInterpolantCnf → Prop
  | .normal clauses _ => ∀ σ, ∃ b, evalQuery (values σ b) clauses = true
  | _ => True

/-- What an interpolant of `a` and `b` over one frame's tracked states promises:
its clauses define the solver's own variables, `a` implies it and `b` contradicts
it. -/
structure Interpolates (cnf : CraigInterpolantCnf) (frame : Nat) (a b : CraigQuery) : Prop where
  total : cnf.Total
  implied : ∀ m, evalQuery (evalCraigAtom m) a = true → cnf.Holds (m.state frame)
  inconsistent : ∀ m, evalQuery (evalCraigAtom m) b = true → ¬ cnf.Holds (m.state frame)

end CraigInterpolantCnf

/-! ## Simplification -/

namespace RegionLiteral

/-- mirrors src/sec/imc/CraigInterpolatingModelChecker.cpp:419-427 -/
def key (l : RegionLiteral) : List Nat :=
  match l.atom with
  | .state s => [1, s, l.positive.toNat]
  | .auxiliary i => [0, i, l.positive.toNat]

end RegionLiteral

/-- Two neighbours of a sorted clause are opposite. -/
def isTautology (c : List RegionLiteral) : Bool :=
  (c.zip c.tail).any fun p => p.1.atom == p.2.atom && p.1.positive != p.2.positive

/-- mirrors src/sec/imc/CraigInterpolatingModelChecker.cpp:459-493 -/
def normalizedRegionClauses (definitions : Query RegionVariable) : Query RegionVariable :=
  let clauses := definitions.map fun c =>
    (c.insertionSort fun l r => RegionLiteral.key l ≤ RegionLiteral.key r).dedup
  ((clauses.filter (! isTautology ·)).insertionSort
    fun c d => c.map RegionLiteral.key ≤ d.map RegionLiteral.key).dedup

def regionClauseSubsumes (lhs rhs : List RegionLiteral) : Bool := lhs.all (rhs.contains ·)

def kCraigSubsumptionClauseLimit : Nat := 4096
def kCraigSemanticSimplifyClauseLimit : Nat := 256
def kCraigSemanticSimplifyVariableLimit : Nat := 128

/-- Clauses that are still there when their turn comes remove what they subsume.
mirrors src/sec/imc/CraigInterpolatingModelChecker.cpp:495-526 -/
def removeSubsumedRegionClauses (clauses : Query RegionVariable) : Query RegionVariable :=
  if kCraigSubsumptionClauseLimit < clauses.length then clauses
  else clauses.foldl (fun live c =>
    if live.contains c then live.filter fun d => d == c || !regionClauseSubsumes c d else live)
    clauses

def regionVariableCount (clauses : Query RegionVariable) : Nat :=
  (clauses.flatten.map (·.atom)).dedup.length

section Solver
variable {σ : Type} (S : CraigSatSolver σ) (fresh : σ)

/-- The other clauses and the negation of the candidate. -/
def redundancyQuery (live : Query RegionVariable) (c : List RegionLiteral) : CraigQuery :=
  renameQuery (copyAtom .candidate 0) (live.filter (· != c) ++ c.map fun l => [l.neg])

/-- mirrors src/sec/imc/CraigInterpolatingModelChecker.cpp:539-583 -/
def removeSemanticallyRedundantRegionClauses (clauses : Query RegionVariable) :
    Query RegionVariable :=
  if kCraigSemanticSimplifyClauseLimit < clauses.length ∨
      kCraigSemanticSimplifyVariableLimit < regionVariableCount clauses then clauses
  else clauses.foldl (fun live c =>
    if answersUnsat S fresh (redundancyQuery live c) then live.filter (· != c) else live) clauses

/-- mirrors src/sec/imc/CraigInterpolatingModelChecker.cpp:603-637 -/
def simplifyCraigInterpolantRegion (r : InterpolantRegion) : InterpolantRegion :=
  if r.type ≠ .normal then r
  else
    let clauses := normalizedRegionClauses r.definitions
    if clauses.any List.isEmpty then { type := .constantFalse }
    else
      let kept := removeSemanticallyRedundantRegionClauses S fresh
        (removeSubsumedRegionClauses clauses)
      match kept, r.root.atom with
      | [], .auxiliary _ => { type := .constantTrue }
      | _, _ => { r with definitions := kept }

/-! ## Conversion -/

/-- The solver's own variables in order of first use. -/
def ownVariables (clauses : List (List (Lit CnfVariable))) (root : Lit CnfVariable) : List Nat :=
  ((clauses.flatten ++ [root]).filterMap fun l =>
    match l.atom with
    | .own n => some n
    | .global _ => none).eraseDups

def convertVariable (own : List Nat) : CnfVariable → RegionVariable
  | .global s => .state s
  | .own n => .auxiliary (own.idxOf n)

/-- mirrors src/sec/imc/CraigInterpolatingModelChecker.cpp:2548-2614 -/
def convertInterpolant : CraigInterpolantCnf → InterpolantRegion
  | .constantFalse => { type := .constantFalse }
  | .constantTrue => { type := .constantTrue }
  | .normal clauses root =>
    simplifyCraigInterpolantRegion S fresh
      { type := .normal
        auxiliaryCount := (ownVariables clauses root).length
        definitions := renameQuery (convertVariable (ownVariables clauses root)) clauses
        root := root.rename (convertVariable (ownVariables clauses root)) }

/-! ## Simplification keeps the clauses' meaning -/

variable (val : RegionVariable → Bool)

theorem evalClause_of_isTautology {c : List RegionLiteral} (h : isTautology c = true) :
    evalClause val c = true := by
  unfold isTautology at h
  obtain ⟨⟨l, r⟩, hmem, hlr⟩ := List.any_eq_true.mp h
  obtain ⟨hl, hr⟩ := List.of_mem_zip hmem
  simp only [Bool.and_eq_true, beq_iff_eq, bne_iff_ne] at hlr
  rw [evalClause_iff]
  -- one of two opposite literals is true
  by_cases hval : evalLit val l = true
  · exact ⟨l, hl, hval⟩
  · refine ⟨r, List.mem_of_mem_tail hr, ?_⟩
    simp only [evalLit, beq_iff_eq, ← hlr.1] at hval ⊢
    cases hv : val l.atom <;> cases hp : l.positive <;> cases hq : r.positive <;> simp_all

theorem evalQuery_normalizedRegionClauses (definitions : Query RegionVariable) :
    evalQuery val (normalizedRegionClauses definitions) = evalQuery val definitions := by
  rw [Bool.eq_iff_iff, evalQuery_iff, evalQuery_iff]
  have hsorted : ∀ c : List RegionLiteral, evalClause val
      (c.insertionSort fun l r => RegionLiteral.key l ≤ RegionLiteral.key r).dedup =
      evalClause val c := fun c => evalClause_of_mem_iff val fun l => by simp
  simp only [normalizedRegionClauses, List.mem_dedup, List.mem_insertionSort, List.mem_filter,
    List.mem_map]
  constructor
  · intro h c hc
    by_cases htaut : isTautology
        (c.insertionSort fun l r => RegionLiteral.key l ≤ RegionLiteral.key r).dedup = true
    · rw [← hsorted c]
      exact evalClause_of_isTautology val htaut
    · rw [← hsorted c]
      exact h _ ⟨⟨c, hc, rfl⟩, by simpa using htaut⟩
  · rintro h _ ⟨⟨c, hc, rfl⟩, _⟩
    rw [hsorted c]
    exact h c hc

theorem evalQuery_foldl {step : Query RegionVariable → List RegionLiteral → Query RegionVariable}
    (hstep : ∀ live c, evalQuery val (step live c) = evalQuery val live)
    (cs live : Query RegionVariable) :
    evalQuery val (cs.foldl step live) = evalQuery val live := by
  induction cs generalizing live with
  | nil => rfl
  | cons c cs ih => rw [List.foldl_cons, ih, hstep]

theorem evalQuery_removeSubsumedRegionClauses (clauses : Query RegionVariable) :
    evalQuery val (removeSubsumedRegionClauses clauses) = evalQuery val clauses := by
  unfold removeSubsumedRegionClauses
  split
  · rfl
  · refine evalQuery_foldl val (fun live c => ?_) clauses clauses
    split
    · rename_i hmem
      refine evalQuery_filter val fun hkept d _ hdrop => ?_
      simp only [Bool.or_eq_false_iff, beq_eq_false_iff_ne, Bool.not_eq_false'] at hdrop
      -- the subsuming clause stays, and its true literal is in the dropped one
      have hc := (evalQuery_iff val).mp hkept c
        (List.mem_filter.mpr ⟨List.contains_iff_mem.mp hmem, by simp⟩)
      obtain ⟨l, hl, hval⟩ := (evalClause_iff val).mp hc
      refine (evalClause_iff val).mpr ⟨l, ?_, hval⟩
      exact List.contains_iff_mem.mp (List.all_eq_true.mp hdrop.2 l hl)
    · rfl

/-- The model of a redundancy query that gives a region its values. -/
def modelOfValues : CraigModel
  | .state _ s => val (.state s)
  | .auxiliary _ i => val (.auxiliary i)
  | .leaf _ _ _ => false

theorem evalCraigAtom_modelOfValues :
    evalCraigAtom (modelOfValues val) ∘ copyAtom .candidate 0 = val := by
  funext v
  cases v with
  | state s => rfl
  | auxiliary i => rfl

theorem evalClause_of_redundant {live : Query RegionVariable} {c : List RegionLiteral}
    (h : answersUnsat S fresh (redundancyQuery live c) = true)
    (hlive : evalQuery val (live.filter (· != c)) = true) : evalClause val c = true := by
  rw [evalClause_iff]
  by_contra hnone
  refine not_satisfiable_of_answersUnsat h ⟨modelOfValues val, ?_⟩
  rw [redundancyQuery, evalQuery_renameQuery, evalCraigAtom_modelOfValues, evalQuery_append, hlive,
    Bool.true_and, evalQuery_map]
  intro l hl
  rw [evalClause_singleton, evalLit_neg, Bool.not_eq_true']
  exact Bool.eq_false_iff.mpr fun hval => hnone ⟨l, hl, hval⟩

theorem evalQuery_removeSemanticallyRedundantRegionClauses (clauses : Query RegionVariable) :
    evalQuery val (removeSemanticallyRedundantRegionClauses S fresh clauses) =
      evalQuery val clauses := by
  unfold removeSemanticallyRedundantRegionClauses
  split
  · rfl
  · refine evalQuery_foldl val (fun live c => ?_) clauses clauses
    split
    · rename_i hunsat
      refine evalQuery_filter val fun hkept d _ hdrop => ?_
      have hdc : d = c := by simpa using hdrop
      rw [hdc]
      exact evalClause_of_redundant S fresh val hunsat hkept
    · rfl

/-- What the simplified clauses say. -/
theorem evalQuery_simplified (definitions : Query RegionVariable) :
    evalQuery val (removeSemanticallyRedundantRegionClauses S fresh
        (removeSubsumedRegionClauses (normalizedRegionClauses definitions))) =
      evalQuery val definitions := by
  rw [evalQuery_removeSemanticallyRedundantRegionClauses, evalQuery_removeSubsumedRegionClauses,
    evalQuery_normalizedRegionClauses]

variable {S fresh}

/-- The outcomes of the simplification. -/
theorem simplify_cases {r : InterpolantRegion} (hr : r.type = .normal) :
    (simplifyCraigInterpolantRegion S fresh r = { type := .constantFalse } ∧
      ∀ val, evalQuery val r.definitions = false) ∨
    (simplifyCraigInterpolantRegion S fresh r = { type := .constantTrue } ∧
      (∀ val, evalQuery val r.definitions = true) ∧ ∃ i, r.root.atom = .auxiliary i) ∨
    ∃ kept, simplifyCraigInterpolantRegion S fresh r = { r with definitions := kept } ∧
      ∀ val, evalQuery val kept = evalQuery val r.definitions := by
  unfold simplifyCraigInterpolantRegion
  rw [if_neg (by simpa using hr)]
  dsimp only
  split
  · rename_i hempty
    obtain ⟨c, hc, hnil⟩ := List.any_eq_true.mp hempty
    refine .inl ⟨rfl, fun val => ?_⟩
    rw [← evalQuery_normalizedRegionClauses]
    refine Bool.eq_false_iff.mpr fun hall => ?_
    have hclause := (evalQuery_iff val).mp hall c hc
    rw [List.isEmpty_iff.mp hnil] at hclause
    cases hclause
  · refine .inr ?_
    have hkept := fun val => evalQuery_simplified S fresh val r.definitions
    split
    · rename_i hnil hroot
      refine .inl ⟨rfl, fun val => ?_, _, hroot⟩
      rw [← hkept val, hnil]
      rfl
    · exact .inr ⟨_, rfl, hkept⟩

theorem encoding_of_normal {r : InterpolantRegion} (hr : r.type = .normal) :
    r.encoding = (r.definitions, r.root) := by
  rw [InterpolantRegion.encoding, hr]

theorem holds_constantTrue (σ : Nat → Bool) :
    InterpolantRegion.Holds { type := .constantTrue } σ :=
  ⟨fun _ => true, rfl, rfl⟩

theorem not_holds_constantFalse (σ : Nat → Bool) :
    ¬ InterpolantRegion.Holds { type := .constantFalse } σ := by
  rintro ⟨a, hdefs, hroot⟩
  simp only [InterpolantRegion.encoding, evalQuery_cons, evalClause_singleton, evalQuery_nil,
    Bool.and_true, evalLit_mk_false, evalLit_mk_true, InterpolantRegion.values] at hdefs hroot
  rw [hroot] at hdefs
  cases hdefs

theorem total_constant {t : RegionType} (ht : t ≠ .normal) :
    InterpolantRegion.Total { type := t } := by
  intro σ
  cases t with
  | constantFalse => exact ⟨fun _ => false, rfl⟩
  | constantTrue => exact ⟨fun _ => true, rfl⟩
  | normal => exact absurd rfl ht

theorem holds_simplify {r : InterpolantRegion} (hr : r.type = .normal) (σ : Nat → Bool) :
    (simplifyCraigInterpolantRegion S fresh r).Holds σ ↔ r.Holds σ := by
  have hencoding := encoding_of_normal hr
  rcases @simplify_cases _ S fresh _ hr with
    ⟨heq, hfalse⟩ | ⟨heq, htrue, i, hroot⟩ | ⟨kept, heq, hkept⟩
  · rw [heq]
    refine iff_of_false (not_holds_constantFalse σ) ?_
    rintro ⟨a, hdefs, _⟩
    rw [hencoding, hfalse] at hdefs
    cases hdefs
  · rw [heq]
    refine iff_of_true (holds_constantTrue σ) ⟨fun _ => r.root.positive, ?_, ?_⟩
    · rw [hencoding]
      exact htrue _
    · simp [hencoding, evalLit, hroot, InterpolantRegion.values]
  · rw [heq]
    have hkencoding : InterpolantRegion.encoding { r with definitions := kept } = (kept, r.root) :=
      encoding_of_normal hr
    simp only [InterpolantRegion.Holds, hencoding, hkencoding, hkept]

theorem total_simplify {r : InterpolantRegion} (hr : r.type = .normal) (htotal : r.Total) :
    (simplifyCraigInterpolantRegion S fresh r).Total := by
  rcases @simplify_cases _ S fresh _ hr with ⟨heq, _⟩ | ⟨heq, _⟩ | ⟨kept, heq, hkept⟩
  · rw [heq]
    exact total_constant (by decide)
  · rw [heq]
    exact total_constant (by decide)
  · rw [heq]
    intro σ
    obtain ⟨a, ha⟩ := htotal σ
    have hkencoding : InterpolantRegion.encoding { r with definitions := kept } = (kept, r.root) :=
      encoding_of_normal hr
    refine ⟨a, ?_⟩
    rw [hkencoding, hkept]
    rwa [encoding_of_normal hr] at ha

/-! ## The region is the interpolant -/

/-- Values of the renumbered variables for values of the solver's own. -/
theorem values_convertVariable {own : List Nat} (σ b : Nat → Bool) {v : CnfVariable}
    (hv : ∀ n, v = .own n → n ∈ own) :
    InterpolantRegion.values σ (fun i => b (own.getD i 0)) (convertVariable own v) =
      CraigInterpolantCnf.values σ b v := by
  cases v with
  | global s => rfl
  | own n =>
    have hlt : own.idxOf n < own.length := List.idxOf_lt_length_iff.mpr (hv n rfl)
    simp only [convertVariable, InterpolantRegion.values, CraigInterpolantCnf.values]
    rw [List.getD_eq_getElem _ _ hlt, List.getElem_idxOf hlt]

theorem values_comp_convertVariable (own : List Nat) (σ a : Nat → Bool) :
    InterpolantRegion.values σ a ∘ convertVariable own =
      CraigInterpolantCnf.values σ (fun n => a (own.idxOf n)) := by
  funext v
  cases v with
  | global s => rfl
  | own n => rfl

theorem mem_ownVariables {clauses : List (List (Lit CnfVariable))} {root l : Lit CnfVariable}
    {n : Nat} (hl : l ∈ clauses.flatten ++ [root]) (hn : l.atom = .own n) :
    n ∈ ownVariables clauses root := by
  rw [ownVariables, List.mem_eraseDups, List.mem_filterMap]
  exact ⟨l, hl, by simp only [hn]⟩

/-- The converted clauses before the simplification. -/
theorem evalQuery_converted {clauses : List (List (Lit CnfVariable))} {root : Lit CnfVariable}
    (σ b : Nat → Bool) :
    evalQuery (InterpolantRegion.values σ fun i => b ((ownVariables clauses root).getD i 0))
        (renameQuery (convertVariable (ownVariables clauses root)) clauses) =
      evalQuery (CraigInterpolantCnf.values σ b) clauses := by
  rw [evalQuery_renameQuery]
  refine evalQuery_congr fun c hc l hl => values_convertVariable σ b fun n hn => ?_
  exact mem_ownVariables (List.mem_append_left _ (List.mem_flatten.mpr ⟨c, hc, hl⟩)) hn

theorem evalLit_converted {clauses : List (List (Lit CnfVariable))} {root : Lit CnfVariable}
    (σ b : Nat → Bool) :
    evalLit (InterpolantRegion.values σ fun i => b ((ownVariables clauses root).getD i 0))
        (root.rename (convertVariable (ownVariables clauses root))) =
      evalLit (CraigInterpolantCnf.values σ b) root := by
  rw [evalLit_rename]
  exact evalLit_congr (values_convertVariable σ b fun n hn =>
    mem_ownVariables (List.mem_append_right _ (by simp)) hn)

theorem holds_convertInterpolant (cnf : CraigInterpolantCnf) (σ : Nat → Bool) :
    (convertInterpolant S fresh cnf).Holds σ ↔ cnf.Holds σ := by
  cases cnf with
  | constantFalse => exact iff_of_false (not_holds_constantFalse σ) id
  | constantTrue => exact iff_of_true (holds_constantTrue σ) trivial
  | normal clauses root =>
    rw [convertInterpolant, holds_simplify rfl, InterpolantRegion.Holds, encoding_of_normal rfl]
    constructor
    · rintro ⟨a, hdefs, hroot⟩
      rw [evalQuery_renameQuery, values_comp_convertVariable] at hdefs
      rw [evalLit_rename, values_comp_convertVariable] at hroot
      exact ⟨_, hdefs, hroot⟩
    · rintro ⟨b, hdefs, hroot⟩
      exact ⟨_, (evalQuery_converted σ b).trans hdefs, (evalLit_converted σ b).trans hroot⟩

theorem total_convertInterpolant {cnf : CraigInterpolantCnf} (h : cnf.Total) :
    (convertInterpolant S fresh cnf).Total := by
  cases cnf with
  | constantFalse => exact total_constant (by decide)
  | constantTrue => exact total_constant (by decide)
  | normal clauses root =>
    refine total_simplify rfl fun σ => ?_
    obtain ⟨b, hb⟩ := h σ
    exact ⟨_, by rw [encoding_of_normal rfl]; exact (evalQuery_converted σ b).trans hb⟩

end Solver

/-! ## Both polarities -/

namespace InterpolantRegion

/-- The states with auxiliary values that satisfy the definitions and give the root the
value: `true` where a region is a source, `false` in the fixpoint test. -/
def Denotes (r : InterpolantRegion) (rootValue : Bool) (σ : Nat → Bool) : Prop :=
  ∃ a, evalQuery (values σ a) r.encoding.1 = true ∧ evalLit (values σ a) r.encoding.2 = rootValue

/-- The definitions have exactly one solution for each state, and the root is one of
their variables. -/
structure Determined (r : InterpolantRegion) : Prop where
  defined : ∀ σ, ∃ a, evalQuery (values σ a) r.definitions = true
  unique : ∀ σ a a', evalQuery (values σ a) r.definitions = true →
    evalQuery (values σ a') r.definitions = true → ∀ i < r.auxiliaryCount, a i = a' i
  rooted : ∀ i, r.root.atom = .auxiliary i → i < r.auxiliaryCount

/-- The model in which every frame has one state and every copy one auxiliary assignment. -/
def modelOf (σ a : Nat → Bool) : CraigModel
  | .state _ s => σ s
  | .leaf _ _ s => σ s
  | .auxiliary _ i => a i

/-- A copy in a query says of its frame's state what the region says of it. -/
theorem denotes_iff_instantiateRegion (r : InterpolantRegion) (copy : RegionCopy) (frame : Nat)
    (rootValue : Bool) (σ : Nat → Bool) :
    (∃ m : CraigModel, m.state frame = σ ∧
      evalQuery (evalCraigAtom m) (instantiateRegion copy frame r).1 = true ∧
      evalLit (evalCraigAtom m) (instantiateRegion copy frame r).2 = rootValue) ↔
      r.Denotes rootValue σ := by
  constructor
  · intro h
    obtain ⟨m, rfl, hdefs, hroot⟩ := h
    rw [evalQuery_instantiateRegion] at hdefs
    rw [evalLit_instantiateRegion] at hroot
    exact ⟨m.copy copy, hdefs, hroot⟩
  · intro h
    obtain ⟨a, hdefs, hroot⟩ := h
    refine ⟨modelOf σ a, rfl, ?_, ?_⟩
    · rw [evalQuery_instantiateRegion]
      exact hdefs
    · rw [evalLit_instantiateRegion]
      exact hroot

/-- No definitions leave an auxiliary root free. -/
theorem Determined.not_trivial {r : InterpolantRegion} (h : r.Determined)
    (htrue : ∀ val, evalQuery val r.definitions = true) (i : Nat) : r.root.atom ≠ .auxiliary i := by
  intro hroot
  have hfixed := h.unique (fun _ => false) (fun _ => true) (fun _ => false) (htrue _) (htrue _) i
    (h.rooted i hroot)
  cases hfixed

end InterpolantRegion

section Polarity
variable {σ : Type} (S : CraigSatSolver σ) (fresh : σ)

/-- A determined region keeps its root: the constant outcomes are out of reach. -/
theorem simplify_of_determined {r : InterpolantRegion} (hr : r.type = .normal)
    (h : r.Determined) :
    ∃ kept, simplifyCraigInterpolantRegion S fresh r = { r with definitions := kept } ∧
      ∀ val, evalQuery val kept = evalQuery val r.definitions := by
  rcases @simplify_cases _ S fresh _ hr with ⟨_, hfalse⟩ | ⟨_, htrue, i, hroot⟩ | hkept
  · obtain ⟨a, ha⟩ := h.defined fun _ => false
    rw [hfalse] at ha
    cases ha
  · exact absurd hroot (h.not_trivial htrue i)
  · exact hkept

/-- A simplified region is determined again. -/
theorem determined_simplify {r : InterpolantRegion} (hr : r.type = .normal) (h : r.Determined) :
    (simplifyCraigInterpolantRegion S fresh r).Determined := by
  obtain ⟨kept, heq, hkept⟩ := simplify_of_determined S fresh hr h
  rw [heq]
  refine ⟨fun states => ?_, fun states a a' ha ha' => ?_, h.rooted⟩
  · obtain ⟨a, ha⟩ := h.defined states
    exact ⟨a, (hkept _).trans ha⟩
  · exact h.unique states a a' ((hkept _).symm.trans ha) ((hkept _).symm.trans ha')

/-- Whatever the solver answers and whether or not a limit stops a pass, every copy of the
simplified region says of a state what the same copy of the region said, with the root
asserted and with the root negated. -/
theorem simplifyCraigInterpolantRegion_exact {r : InterpolantRegion}
    (h : r.type = .normal → r.Determined) (copy : RegionCopy) (frame : Nat) (rootValue : Bool)
    (states : Nat → Bool) :
    (∃ m : CraigModel, m.state frame = states ∧
      evalQuery (evalCraigAtom m) (instantiateRegion copy frame
        (simplifyCraigInterpolantRegion S fresh r)).1 = true ∧
      evalLit (evalCraigAtom m) (instantiateRegion copy frame
        (simplifyCraigInterpolantRegion S fresh r)).2 = rootValue) ↔
    ∃ m : CraigModel, m.state frame = states ∧
      evalQuery (evalCraigAtom m) (instantiateRegion copy frame r).1 = true ∧
      evalLit (evalCraigAtom m) (instantiateRegion copy frame r).2 = rootValue := by
  rw [InterpolantRegion.denotes_iff_instantiateRegion,
    InterpolantRegion.denotes_iff_instantiateRegion]
  by_cases hr : r.type = .normal
  · obtain ⟨kept, heq, hkept⟩ := simplify_of_determined S fresh hr (h hr)
    have hkencoding : InterpolantRegion.encoding { r with definitions := kept } = (kept, r.root) :=
      encoding_of_normal hr
    rw [heq]
    unfold InterpolantRegion.Denotes
    rw [hkencoding, encoding_of_normal hr]
    exact exists_congr fun a => and_congr_left' (by rw [hkept])
  · unfold simplifyCraigInterpolantRegion
    rw [if_pos hr]

end Polarity

/-- `root <-> state 2`, with a repeated literal, a tautology and a subsumed clause. -/
def copiedStateRegion : InterpolantRegion where
  type := .normal
  auxiliaryCount := 1
  definitions :=
    [[⟨.auxiliary 0, false⟩, ⟨.state 2, true⟩, ⟨.auxiliary 0, false⟩],
      [⟨.auxiliary 0, true⟩, ⟨.state 2, false⟩],
      [⟨.state 3, true⟩, ⟨.state 3, false⟩],
      [⟨.auxiliary 0, true⟩, ⟨.state 2, false⟩, ⟨.state 4, true⟩]]
  root := ⟨.auxiliary 0, true⟩

theorem determined_copiedStateRegion : copiedStateRegion.Determined where
  defined σ := ⟨fun _ => σ 2, by
    cases h2 : σ 2 <;> cases h3 : σ 3 <;>
      simp [copiedStateRegion, evalClause, evalLit, InterpolantRegion.values, h2, h3]⟩
  unique σ a a' ha ha' i hi := by
    obtain rfl : i = 0 := Nat.lt_one_iff.mp hi
    simp only [copiedStateRegion, evalQuery_cons, evalClause, List.any_cons, List.any_nil, evalLit,
      InterpolantRegion.values] at ha ha'
    cases h2 : σ 2 <;> cases h0 : a 0 <;> cases h0' : a' 0 <;> simp_all
  rooted i hi := by
    cases hi
    decide

theorem determined_simplify_copied :
    (simplifyCraigInterpolantRegion craigSolver () copiedStateRegion).Determined :=
  determined_simplify craigSolver () rfl determined_copiedStateRegion

theorem simplifyCraigInterpolantRegion_exact_copied :
    copiedStateRegion.type = .normal ∧
    ((∃ m : CraigModel, m.state 0 = (fun _ => false) ∧
      evalQuery (evalCraigAtom m) (instantiateRegion .candidate 0
        (simplifyCraigInterpolantRegion craigSolver () copiedStateRegion)).1 = true ∧
      evalLit (evalCraigAtom m) (instantiateRegion .candidate 0
        (simplifyCraigInterpolantRegion craigSolver () copiedStateRegion)).2 = false) ↔
    ∃ m : CraigModel, m.state 0 = (fun _ => false) ∧
      evalQuery (evalCraigAtom m) (instantiateRegion .candidate 0 copiedStateRegion).1 = true ∧
      evalLit (evalCraigAtom m) (instantiateRegion .candidate 0 copiedStateRegion).2 = false) :=
  ⟨rfl, simplifyCraigInterpolantRegion_exact craigSolver ()
    (fun _ => determined_copiedStateRegion) .candidate 0 false fun _ => false⟩

end KeplerFormal
