import KeplerFormal.Core.ParityForest
import KeplerFormal.L4Engine.ExactInit
import KeplerFormal.Core.Subsumption

/-!
# Conflicts with the known start facts (`src/sec/pdr/PDREngine.cpp`)

Before PDR asks the solver whether a cube meets the start formula, it looks for a
conflict with the initial assignments and the state relations: one literal against
an assignment, or two literals of one class of related symbols.

* `initRelations`, `buildInitFactIndex`: the relations in a union-find with parities,
  and one value for each class that has an assignment; the first value is kept.
* `knownInitConflictCube`: the scan of a cube.
* `KeptFacts`: what the index knows; `keptFacts_iff`: when the facts of the problem are
  consistent, these are all of them.
* `knownInitConflictCube_spec`: a conflict is part of the cube, excluded by the start
  formula and the relations, and it is found exactly when the kept facts refute the cube.
-/
namespace KeplerFormal

open Core (ParityForest)

/-! ## Cubes -/

/-- mirrors src/sec/pdr/PDREngine.cpp:213-220 -/
structure CubeLiteral where
  symbol : Nat
  value : Bool
  deriving DecidableEq

abbrev StateCube := List CubeLiteral

/-- The states of a cube. -/
def StateCube.Holds (σ : Valuation) (cube : StateCube) : Prop :=
  ∀ literal ∈ cube, lit σ literal.symbol = literal.value

/-- mirrors src/sec/pdr/PDREngine.cpp:39-47 -/
def cubeLiteralLess (lhs rhs : CubeLiteral) : Bool :=
  if lhs.symbol ≠ rhs.symbol then decide (lhs.symbol < rhs.symbol)
  else decide (lhs.value < rhs.value)

/-- mirrors src/sec/pdr/PDREngine.cpp:3142-3149 -/
def normalizeCube (cube : StateCube) : StateCube :=
  (cube.insertionSort fun a b => !cubeLiteralLess b a).destutter (· ≠ ·)

@[simp] theorem mem_normalizeCube {cube : StateCube} {literal : CubeLiteral} :
    literal ∈ normalizeCube cube ↔ literal ∈ cube := by
  rw [normalizeCube, Core.mem_destutter, List.mem_insertionSort]

theorem length_normalizeCube_le (cube : StateCube) :
    (normalizeCube cube).length ≤ cube.length := by
  have h := (List.destutter_sublist (· ≠ ·)
    (cube.insertionSort fun a b => !cubeLiteralLess b a)).length_le
  rwa [List.length_insertionSort] at h

/-! ## The index -/

/-- `unordered_map::emplace`: an entry that is there is kept. -/
def emplaceValue (values : List (Nat × Bool)) (entry : Nat × Bool) : List (Nat × Bool) :=
  if (values.lookup entry.1).isSome then values else values ++ [entry]

/-- mirrors src/sec/pdr/PDREngine.cpp:719-729, the fields that `knownInitConflictCube` reads -/
structure InitFactIndex where
  assignments : List (Nat × Bool)
  rootAssignments : List (Nat × Bool)
  relations : ParityForest Nat

namespace KInductionProblem
variable (p : KInductionProblem)

/-- The assignments count at the start only, so not behind a reset prefix. -/
def startAssignments : List (Nat × Bool) :=
  if p.resetBootstrapCycles ≠ 0 then [] else p.initialStateAssignments

/-- The relations in the order in which they are added, with `true` for complements. -/
def parityRelations : List (Nat × Nat × Bool) :=
  (p.sameFrameStateEqualityPairs.map fun pr => (pr.1, pr.2, false)) ++
    p.complementedStatePairs.map fun pr => (pr.1, pr.2, true)

/-- mirrors src/sec/pdr/PDREngine.cpp:3173-3206 -/
def initRelations : ParityForest Nat :=
  (p.startAssignments.foldl (fun (f : ParityForest Nat) entry => f.ensure entry.1) {}).uniteAll
    p.parityRelations

/-- Assignments of smaller symbols first.
mirrors src/sec/pdr/PDREngine.cpp:3207-3222 -/
def rootAssignments (relations : ParityForest Nat) (assignments : List (Nat × Bool)) :
    List (Nat × Bool) :=
  let ordered := assignments.insertionSort fun a b => a.1 < b.1 ∨ (a.1 = b.1 ∧ a.2 ≤ b.2)
  (ordered.filterMap fun entry => (relations.find entry.1).map fun root =>
    (root.1, entry.2 ^^ root.2)).foldl emplaceValue []

/-- mirrors src/sec/pdr/PDREngine.cpp:3169-3224 -/
def buildInitFactIndex : InitFactIndex :=
  let assignments := p.startAssignments.foldl emplaceValue []
  { assignments := assignments
    rootAssignments := rootAssignments p.initRelations assignments
    relations := p.initRelations }

end KInductionProblem

namespace InitFactIndex
variable (facts : InitFactIndex)

/-- The scan; `cubeValueByRoot` is the first literal of each class, with its root's value. -/
def conflictFrom (cubeValueByRoot : List (Nat × Bool × CubeLiteral)) :
    StateCube → Option StateCube
  | [] => none
  | literal :: rest =>
    match facts.relations.find literal.symbol with
    | none =>
      if facts.assignments.lookup literal.symbol = some !literal.value then
        some (normalizeCube [literal])
      else conflictFrom cubeValueByRoot rest
    | some root =>
      let rootValue := literal.value ^^ root.2
      if facts.rootAssignments.lookup root.1 = some !rootValue then some (normalizeCube [literal])
      else match cubeValueByRoot.lookup root.1 with
        | some first =>
          if first.1 ≠ rootValue then some (normalizeCube [first.2, literal])
          else conflictFrom cubeValueByRoot rest
        | none => conflictFrom ((root.1, rootValue, literal) :: cubeValueByRoot) rest

/-- mirrors src/sec/pdr/PDREngine.cpp:3226-3283 -/
def knownInitConflictCube (cube : StateCube) : Option StateCube := facts.conflictFrom [] cube

/-- What the index knows of the values at the start: its forest, and the value of each class
that has one. -/
structure KeptFacts (v : Nat → Bool) : Prop where
  relations : facts.relations.Respects v
  values : ∀ r b, facts.rootAssignments.lookup r = some b → v r = b

/-- The literals of symbols that some assignment or relation names. -/
def knownLiterals (cube : StateCube) : StateCube :=
  cube.filter fun literal => (facts.relations.find literal.symbol).isSome

end InitFactIndex

/-! ## Kept values -/

theorem lookup_cons_ite {β : Type} (s k : Nat) (b : β) (entries : List (Nat × β)) :
    ((s, b) :: entries).lookup k = if k = s then some b else entries.lookup k := by
  rw [List.lookup_cons]
  by_cases h : k = s
  · simp [h]
  · simp [h, beq_eq_false_iff_ne.mpr h]

theorem lookup_emplaceValue (values : List (Nat × Bool)) (s k : Nat) (b : Bool) :
    (emplaceValue values (s, b)).lookup k =
      (values.lookup k).or (if k = s then some b else none) := by
  unfold emplaceValue
  split_ifs with hold hk hk
  · subst hk
    rw [Option.or_of_isSome hold]
  · simp
  · rw [List.lookup_append, lookup_cons_ite, if_pos hk]
  · rw [List.lookup_append, lookup_cons_ite, if_neg hk, List.lookup_nil]

/-- The first value of a key is kept. -/
theorem lookup_foldl_emplaceValue (entries values : List (Nat × Bool)) (k : Nat) :
    (entries.foldl emplaceValue values).lookup k = (values.lookup k).or (entries.lookup k) := by
  induction entries generalizing values with
  | nil => simp
  | cons entry entries ih =>
    obtain ⟨s, b⟩ := entry
    rw [List.foldl_cons, ih, lookup_emplaceValue, Option.or_assoc, lookup_cons_ite]
    split_ifs <;> simp

theorem lookup_isSome_of_mem {entries : List (Nat × Bool)} {s : Nat} {b : Bool}
    (h : (s, b) ∈ entries) : (entries.lookup s).isSome := by
  induction entries with
  | nil => cases h
  | cons entry entries ih =>
    obtain ⟨t, d⟩ := entry
    rw [lookup_cons_ite]
    split_ifs with hst
    · rfl
    · obtain heq | h := List.mem_cons.mp h
      · exact absurd (congrArg Prod.fst heq) hst
      · exact ih h

theorem mem_foldl_emplaceValue {entries values : List (Nat × Bool)} {e : Nat × Bool}
    (h : e ∈ entries.foldl emplaceValue values) : e ∈ values ∨ e ∈ entries := by
  induction entries generalizing values with
  | nil => exact .inl h
  | cons entry entries ih =>
    obtain h | h := ih h
    · unfold emplaceValue at h
      split_ifs at h
      · exact .inl h
      · obtain h | h := List.mem_append.mp h
        · exact .inl h
        · exact .inr (List.mem_singleton.mp h ▸ List.mem_cons_self)
    · exact .inr (List.mem_cons_of_mem _ h)

/-! ## The facts of a problem -/

namespace KInductionProblem
variable {p : KInductionProblem}

/-- All relations and all start assignments, as they stand in the problem. -/
structure StartFacts (p : KInductionProblem) (v : Nat → Bool) : Prop where
  relations : ParityForest.Satisfies p.parityRelations v
  assignments : ∀ entry ∈ p.startAssignments, v entry.1 = entry.2

theorem wellFormed_ensureAll (entries : List (Nat × Bool)) {f : ParityForest Nat}
    (hf : f.WellFormed) :
    (entries.foldl (fun (f : ParityForest Nat) entry => f.ensure entry.1) f).WellFormed ∧
      (∀ s ∈ f.symbols, s ∈ (entries.foldl
        (fun (f : ParityForest Nat) entry => f.ensure entry.1) f).symbols) ∧
      (∀ entry ∈ entries, entry.1 ∈ (entries.foldl
        (fun (f : ParityForest Nat) entry => f.ensure entry.1) f).symbols) ∧
      ∀ v, (entries.foldl (fun (f : ParityForest Nat) entry => f.ensure entry.1) f).Respects v ↔
        f.Respects v := by
  induction entries generalizing f with
  | nil => exact ⟨hf, fun s hs => hs, fun _ h => absurd h List.not_mem_nil, fun v => Iff.rfl⟩
  | cons entry entries ih =>
    rw [List.foldl_cons]
    have hgrows := ParityForest.grows_ensure f entry.1
    obtain ⟨hwf, hsub, hmem, hrespects⟩ := ih (hf.ensure entry.1)
    refine ⟨hwf, fun s hs => hsub s (hgrows.mem hf hs), fun e he => ?_, fun v => ?_⟩
    · obtain rfl | he := List.mem_cons.mp he
      · exact hsub _ (ParityForest.mem_ensure.mpr (.inr rfl))
      · exact hmem e he
    · rw [hrespects, hgrows.respects_iff hf]

/-- The forest of a problem: it knows every assigned symbol, and the valuations of the
relations respect it; where there is one, no others do. -/
theorem initRelations_spec (p : KInductionProblem) :
    p.initRelations.WellFormed ∧
      (∀ entry ∈ p.startAssignments, entry.1 ∈ p.initRelations.symbols) ∧
      (∀ v, ParityForest.Satisfies p.parityRelations v → p.initRelations.Respects v) ∧
      ∀ v v', ParityForest.Satisfies p.parityRelations v → p.initRelations.Respects v' →
        ParityForest.Satisfies p.parityRelations v' := by
  obtain ⟨hwf, -, hmem, hrespects⟩ :=
    wellFormed_ensureAll p.startAssignments ParityForest.wellFormed_empty
  obtain ⟨hwf', hsub, -, hkeep, hsame⟩ := ParityForest.uniteAll_spec hwf p.parityRelations
  have hall (v : Nat → Bool) (hv : ParityForest.Satisfies p.parityRelations v) :
      p.initRelations.Respects v :=
    hkeep v ((hrespects v).mpr (ParityForest.respects_empty v)) hv
  exact ⟨hwf', fun entry he => hsub (hmem entry he), hall,
    fun v v' hv hv' => hsame v v' (hall v hv) hv hv'⟩

theorem lookup_rootAssignments (relations : ParityForest Nat) (assignments : List (Nat × Bool))
    (r : Nat) (b : Bool) (h : (rootAssignments relations assignments).lookup r = some b) :
    ∃ s value parity, (s, value) ∈ assignments ∧ relations.find s = some (r, parity) ∧
      b = (value ^^ parity) := by
  unfold rootAssignments at h
  simp only [lookup_foldl_emplaceValue, List.lookup_nil, Option.none_or] at h
  obtain ⟨⟨s, value⟩, hs, hroot⟩ := List.mem_filterMap.mp (mem_of_lookup h)
  obtain ⟨⟨r', parity⟩, hfind, heq⟩ := Option.map_eq_some_iff.mp hroot
  obtain ⟨rfl, rfl⟩ := Prod.mk.inj heq
  exact ⟨s, value, parity, (List.mem_insertionSort _).mp hs, hfind, rfl⟩

theorem lookup_rootAssignments_isSome {relations : ParityForest Nat}
    {assignments : List (Nat × Bool)} {s r : Nat} {value parity : Bool}
    (hs : (s, value) ∈ assignments) (hfind : relations.find s = some (r, parity)) :
    ((rootAssignments relations assignments).lookup r).isSome := by
  unfold rootAssignments
  simp only [lookup_foldl_emplaceValue, List.lookup_nil, Option.none_or]
  apply lookup_isSome_of_mem (b := value ^^ parity)
  refine List.mem_filterMap.mpr ⟨(s, value), (List.mem_insertionSort _).mpr hs, ?_⟩
  simp [hfind]

theorem lookup_assignments (s : Nat) :
    p.buildInitFactIndex.assignments.lookup s = p.startAssignments.lookup s := by
  simp [buildInitFactIndex, lookup_foldl_emplaceValue]

/-- What the index keeps are facts of the problem. -/
theorem StartFacts.kept {v : Nat → Bool} (h : p.StartFacts v) :
    p.buildInitFactIndex.KeptFacts v := by
  refine ⟨(initRelations_spec p).2.2.1 v h.relations, fun r b hr => ?_⟩
  obtain ⟨s, value, parity, hs, hfind, rfl⟩ := lookup_rootAssignments _ _ r b hr
  have hvalue : v s = value :=
    h.assignments _ ((mem_foldl_emplaceValue hs).resolve_left List.not_mem_nil)
  have hroot := (initRelations_spec p).2.2.1 v h.relations s r parity
    (ParityForest.find_eq_some_iff.mp hfind)
  rw [← hvalue, hroot, Bool.xor_assoc, Bool.xor_self, Bool.xor_false]

/-- When the facts are consistent, the index keeps all of them. -/
theorem keptFacts_iff {v₀ : Nat → Bool} (h₀ : p.StartFacts v₀) (v : Nat → Bool) :
    p.buildInitFactIndex.KeptFacts v ↔ p.StartFacts v := by
  refine ⟨fun h => ?_, StartFacts.kept⟩
  obtain ⟨hwf, hmem, -, hsame⟩ := initRelations_spec p
  refine ⟨hsame v₀ v h₀.relations h.relations, fun ⟨s, value⟩ hs => ?_⟩
  obtain ⟨r, parity, hfinds⟩ := hwf s (hmem _ hs)
  obtain ⟨value', hlookup⟩ : ∃ value', p.buildInitFactIndex.assignments.lookup s = some value' :=
    Option.isSome_iff_exists.mp (lookup_assignments (p := p) s ▸ lookup_isSome_of_mem hs)
  obtain ⟨b, hb⟩ : ∃ b, p.buildInitFactIndex.rootAssignments.lookup r = some b :=
    Option.isSome_iff_exists.mp (lookup_rootAssignments_isSome (mem_of_lookup hlookup)
      (ParityForest.find_eq_some_iff.mpr hfinds))
  have hkept := h₀.kept
  calc v s = (v r ^^ parity) := h.relations s r parity hfinds
    _ = (v₀ r ^^ parity) := by rw [h.values r b hb, hkept.values r b hb]
    _ = v₀ s := (hkept.relations s r parity hfinds).symm
    _ = value := h₀.assignments _ hs

end KInductionProblem

/-! ## The scan -/

namespace InitFactIndex
variable {facts : InitFactIndex}

/-- The value that a literal gives to the root of its class. -/
def GivesRoot (facts : InitFactIndex) (literal : CubeLiteral) (r : Nat) (b : Bool) : Prop :=
  ∃ parity, facts.relations.find literal.symbol = some (r, parity) ∧ b = (literal.value ^^ parity)

theorem GivesRoot.root_eq {literal : CubeLiteral} {r : Nat} {b : Bool}
    (h : facts.GivesRoot literal r b) {v : Nat → Bool} (hv : facts.relations.Respects v)
    (hliteral : v literal.symbol = literal.value) : v r = b := by
  obtain ⟨parity, hfind, rfl⟩ := h
  rw [← hliteral, hv _ r parity (ParityForest.find_eq_some_iff.mp hfind), Bool.xor_assoc,
    Bool.xor_self, Bool.xor_false]

/-- A conflict is one or two known literals of the cube that no valuation of the kept facts
has. -/
structure Conflict (facts : InitFactIndex) (cube conflict : StateCube) : Prop where
  subset : ∀ literal ∈ conflict, literal ∈ facts.knownLiterals cube
  short : conflict.length ≤ 2
  excluded : ∀ v, facts.KeptFacts v → ¬ ∀ literal ∈ conflict, v literal.symbol = literal.value

theorem mem_knownLiterals {cube : StateCube} {literal : CubeLiteral} :
    literal ∈ facts.knownLiterals cube ↔ literal ∈ cube ∧ ∃ r b, facts.GivesRoot literal r b := by
  rw [knownLiterals, List.mem_filter, Option.isSome_iff_exists]
  refine and_congr_right fun _ => ⟨fun ⟨root, h⟩ => ⟨root.1, _, root.2, h, rfl⟩, ?_⟩
  intro ⟨r, b, parity, h, _⟩
  exact ⟨_, h⟩

theorem conflict_one {cube : StateCube} {literal : CubeLiteral} (hcube : literal ∈ cube)
    {r : Nat} {b : Bool} (hroot : facts.GivesRoot literal r b)
    (hvalue : facts.rootAssignments.lookup r = some !b) :
    facts.Conflict cube (normalizeCube [literal]) := by
  refine ⟨fun l hl => ?_, (length_normalizeCube_le _).trans (by simp), fun v hv hall => ?_⟩
  · obtain rfl := List.mem_singleton.mp (mem_normalizeCube.mp hl)
    exact mem_knownLiterals.mpr ⟨hcube, r, b, hroot⟩
  · have hb := hroot.root_eq hv.relations (hall literal (by simp))
    have := hv.values r _ hvalue
    rw [hb] at this
    cases b <;> simp at this

theorem conflict_two {cube : StateCube} {first literal : CubeLiteral} (hfirst : first ∈ cube)
    (hcube : literal ∈ cube) {r : Nat} {b b' : Bool} (hroot : facts.GivesRoot first r b)
    (hroot' : facts.GivesRoot literal r b') (hne : b ≠ b') :
    facts.Conflict cube (normalizeCube [first, literal]) := by
  refine ⟨fun l hl => ?_, (length_normalizeCube_le _).trans (by simp), fun v hv hall => ?_⟩
  · rw [mem_normalizeCube, List.mem_cons, List.mem_singleton] at hl
    obtain rfl | rfl := hl
    · exact mem_knownLiterals.mpr ⟨hfirst, r, b, hroot⟩
    · exact mem_knownLiterals.mpr ⟨hcube, r, b', hroot'⟩
  · have hb := hroot.root_eq hv.relations (hall first (by simp))
    have hb' := hroot'.root_eq hv.relations (hall literal (by simp))
    exact hne (hb.symm.trans hb')

/-- The first literals of the classes met so far. -/
def FirstLiterals (facts : InitFactIndex) (cube : StateCube)
    (cubeValueByRoot : List (Nat × Bool × CubeLiteral)) : Prop :=
  ∀ r first, cubeValueByRoot.lookup r = some first →
    first.2 ∈ cube ∧ facts.GivesRoot first.2 r first.1

theorem FirstLiterals.cons {cube : StateCube} {cubeValueByRoot : List (Nat × Bool × CubeLiteral)}
    (h : facts.FirstLiterals cube cubeValueByRoot) {literal : CubeLiteral} (hcube : literal ∈ cube)
    {r : Nat} {b : Bool} (hroot : facts.GivesRoot literal r b) :
    facts.FirstLiterals cube ((r, b, literal) :: cubeValueByRoot) := by
  intro k first hk
  rw [lookup_cons_ite] at hk
  split_ifs at hk with heq
  · cases hk
    exact ⟨hcube, heq ▸ hroot⟩
  · exact h k first hk

/-- Every assigned symbol has a root, so the lookup for symbols without one finds nothing. -/
def KnowsAssigned (facts : InitFactIndex) : Prop :=
  ∀ s b, facts.assignments.lookup s = some b → facts.relations.find s ≠ none

theorem conflict_of_conflictFrom (hknows : facts.KnowsAssigned) {cube rest : StateCube}
    {cubeValueByRoot : List (Nat × Bool × CubeLiteral)}
    (hfirst : facts.FirstLiterals cube cubeValueByRoot) (hrest : ∀ literal ∈ rest, literal ∈ cube)
    {conflict : StateCube} (h : facts.conflictFrom cubeValueByRoot rest = some conflict) :
    facts.Conflict cube conflict := by
  induction rest generalizing cubeValueByRoot with
  | nil => cases h
  | cons literal rest ih =>
    obtain ⟨hliteral, hrest⟩ := List.forall_mem_cons.mp hrest
    unfold conflictFrom at h
    cases hfind : facts.relations.find literal.symbol with
    | none =>
      simp only [hfind] at h
      split_ifs at h with hassigned
      · exact absurd hfind (hknows _ _ hassigned)
      · exact ih hfirst hrest h
    | some root =>
      have hroot : facts.GivesRoot literal root.1 (literal.value ^^ root.2) :=
        ⟨root.2, hfind, rfl⟩
      simp only [hfind] at h
      split_ifs at h with hvalue
      · cases h
        exact conflict_one hliteral hroot hvalue
      cases hold : cubeValueByRoot.lookup root.1 with
      | none =>
        simp only [hold] at h
        exact ih (hfirst.cons hliteral hroot) hrest h
      | some first =>
        simp only [hold] at h
        obtain ⟨hmem, hfirstRoot⟩ := hfirst _ _ hold
        split_ifs at h with hne
        · cases h
          exact conflict_two hmem hliteral hfirstRoot hroot hne
        · exact ih hfirst hrest h

theorem GivesRoot.unique {literal : CubeLiteral} {r r' : Nat} {b b' : Bool}
    (h : facts.GivesRoot literal r b) (h' : facts.GivesRoot literal r' b') : r = r' ∧ b = b' := by
  obtain ⟨parity, hfind, rfl⟩ := h
  obtain ⟨parity', hfind', rfl⟩ := h'
  rw [hfind] at hfind'
  cases hfind'
  exact ⟨rfl, rfl⟩

/-- A known literal without a conflict leaves its class with its value. -/
theorem next_of_conflictFrom {literal : CubeLiteral} {rest : StateCube}
    {cubeValueByRoot : List (Nat × Bool × CubeLiteral)}
    (h : facts.conflictFrom cubeValueByRoot (literal :: rest) = none) {r : Nat} {b : Bool}
    (hroot : facts.GivesRoot literal r b) :
    facts.rootAssignments.lookup r ≠ some !b ∧
      ∃ after, facts.conflictFrom after rest = none ∧
        (∃ first, after.lookup r = some first ∧ first.1 = b) ∧
        ∀ k first, cubeValueByRoot.lookup k = some first → after.lookup k = some first := by
  obtain ⟨parity, hfind, rfl⟩ := hroot
  unfold conflictFrom at h
  simp only [hfind] at h
  split_ifs at h with hvalue
  refine ⟨hvalue, ?_⟩
  cases hold : cubeValueByRoot.lookup r with
  | none =>
    simp only [hold] at h
    refine ⟨_, h, ⟨_, by rw [lookup_cons_ite, if_pos rfl], rfl⟩, fun k first hk => ?_⟩
    have hne : k ≠ r := by
      intro heq
      rw [heq, hold] at hk
      cases hk
    rw [lookup_cons_ite, if_neg hne, hk]
  | some first =>
    simp only [hold] at h
    split_ifs at h with hne
    exact ⟨_, h, ⟨first, hold, not_not.mp hne⟩, fun k f hk => hk⟩

/-- Without a conflict the known literals agree with the kept values, with the literals met
before, and with one another. -/
theorem agree_of_conflictFrom {rest : StateCube}
    {cubeValueByRoot : List (Nat × Bool × CubeLiteral)}
    (h : facts.conflictFrom cubeValueByRoot rest = none) :
    ∀ literal ∈ rest, ∀ r b, facts.GivesRoot literal r b →
      facts.rootAssignments.lookup r ≠ some !b ∧
      (∀ first, cubeValueByRoot.lookup r = some first → first.1 = b) ∧
      ∀ literal' ∈ rest, ∀ b', facts.GivesRoot literal' r b' → b' = b := by
  induction rest generalizing cubeValueByRoot with
  | nil => exact fun literal hl => absurd hl List.not_mem_nil
  | cons head rest ih =>
    cases hfind : facts.relations.find head.symbol with
    | none =>
      have hno (r : Nat) (b : Bool) : ¬ facts.GivesRoot head r b := by
        intro ⟨parity, hsome, _⟩
        rw [hfind] at hsome
        cases hsome
      have hrest : facts.conflictFrom cubeValueByRoot rest = none := by
        unfold conflictFrom at h
        simp only [hfind] at h
        split_ifs at h
        exact h
      intro literal hl r b hroot
      obtain rfl | hl := List.mem_cons.mp hl
      · exact absurd hroot (hno r b)
      · obtain ⟨hvalue, hfirst, hothers⟩ := ih hrest literal hl r b hroot
        refine ⟨hvalue, hfirst, fun literal' hl' b' hroot' => ?_⟩
        obtain rfl | hl' := List.mem_cons.mp hl'
        · exact absurd hroot' (hno r b')
        · exact hothers literal' hl' b' hroot'
    | some root =>
      have hhead : facts.GivesRoot head root.1 (head.value ^^ root.2) := ⟨root.2, hfind, rfl⟩
      obtain ⟨hvalue, after, hrest, ⟨first, hafter, hfirstValue⟩, hkeep⟩ :=
        next_of_conflictFrom h hhead
      intro literal hl r b hroot
      obtain rfl | hl := List.mem_cons.mp hl
      · obtain ⟨rfl, rfl⟩ := hhead.unique hroot
        refine ⟨hvalue, fun f hf => ?_, fun literal' hl' b' hroot' => ?_⟩
        · have hsame := Option.some.inj ((hkeep _ f hf).symm.trans hafter)
          rw [hsame, hfirstValue]
        · obtain rfl | hl' := List.mem_cons.mp hl'
          · exact (hroot'.unique hhead).2
          · rw [← (ih hrest literal' hl' _ b' hroot').2.1 first hafter, hfirstValue]
      · obtain ⟨hkept, hfirst, hothers⟩ := ih hrest literal hl r b hroot
        refine ⟨hkept, fun f hf => hfirst f (hkeep r f hf), fun literal' hl' b' hroot' => ?_⟩
        obtain rfl | hl' := List.mem_cons.mp hl'
        · obtain ⟨rfl, rfl⟩ := hhead.unique hroot'
          rw [← hfirst first hafter, hfirstValue]
        · exact hothers literal' hl' b' hroot'

/-- The kept value of a class, else the one that the cube's literals give it. -/
def rootValue (facts : InitFactIndex) (cube : StateCube) (r : Nat) : Bool :=
  (facts.rootAssignments.lookup r).getD
    (cube.any fun literal => (facts.relations.find literal.symbol).any fun root =>
      decide (root.1 = r) && (literal.value ^^ root.2))

theorem any_givesRoot {cube : StateCube} {r : Nat} :
    (cube.any fun literal => (facts.relations.find literal.symbol).any fun root =>
      decide (root.1 = r) && (literal.value ^^ root.2)) = true ↔
      ∃ literal ∈ cube, facts.GivesRoot literal r true := by
  simp only [List.any_eq_true, Option.any_eq_true, Bool.and_eq_true, decide_eq_true_eq]
  refine exists_congr fun literal => and_congr_right fun _ => ?_
  constructor
  · intro ⟨root, hfind, hr, hvalue⟩
    exact ⟨root.2, hr ▸ hfind, hvalue.symm⟩
  · intro ⟨parity, hfind, hvalue⟩
    exact ⟨(r, parity), hfind, rfl, hvalue.symm⟩

theorem rootValue_eq {cube : StateCube} (h : facts.knownInitConflictCube cube = none)
    {literal : CubeLiteral} (hl : literal ∈ cube) {r : Nat} {b : Bool}
    (hroot : facts.GivesRoot literal r b) : facts.rootValue cube r = b := by
  obtain ⟨hvalue, -, hothers⟩ := agree_of_conflictFrom h literal hl r b hroot
  unfold rootValue
  cases hkept : facts.rootAssignments.lookup r with
  | some kept =>
    rw [hkept] at hvalue
    cases kept <;> cases b <;> simp_all
  | none =>
    rw [Option.getD_none]
    cases b with
    | true => exact any_givesRoot.mpr ⟨literal, hl, hroot⟩
    | false =>
      rw [Bool.eq_false_iff, Ne, any_givesRoot]
      intro ⟨literal', hl', hroot'⟩
      cases hothers literal' hl' true hroot'

/-- Classes with a value are named by their roots. -/
def ValuesAtRoots (facts : InitFactIndex) : Prop :=
  ∀ r b, facts.rootAssignments.lookup r = some b → facts.relations.find r = some (r, false)

/-- Without a conflict some valuation has the kept facts and the known literals. -/
theorem exists_of_no_conflict (hroots : facts.ValuesAtRoots) {cube : StateCube}
    (h : facts.knownInitConflictCube cube = none) :
    ∃ v, facts.KeptFacts v ∧
      ∀ literal ∈ facts.knownLiterals cube, v literal.symbol = literal.value := by
  let v (s : Nat) : Bool :=
    ((facts.relations.find s).map fun root => facts.rootValue cube root.1 ^^ root.2).getD false
  have hv {s r : Nat} {parity : Bool} (hs : facts.relations.find s = some (r, parity)) :
      v s = (facts.rootValue cube r ^^ parity) := by
    simp [v, hs]
  refine ⟨v, ⟨fun s r parity hs => ?_, fun r b hr => ?_⟩, fun literal hl => ?_⟩
  · obtain ⟨_, hn⟩ := hs
    have hroot : facts.relations.find r = some (r, false) :=
      ParityForest.find_eq_some_iff.mpr ⟨_, hn.root_finds⟩
    rw [hv (ParityForest.find_eq_some_iff.mpr ⟨_, hn⟩), hv hroot, Bool.xor_false]
  · rw [hv (hroots r b hr), Bool.xor_false]
    simp [rootValue, hr]
  · obtain ⟨hmem, r, b, hroot⟩ := mem_knownLiterals.mp hl
    have hb := rootValue_eq h hmem hroot
    obtain ⟨parity, hfind, rfl⟩ := hroot
    rw [hv hfind, hb, Bool.xor_assoc, Bool.xor_self, Bool.xor_false]

end InitFactIndex

/-! ## The start formula -/

namespace KInductionProblem
variable {p : KInductionProblem}

theorem knowsAssigned (p : KInductionProblem) : p.buildInitFactIndex.KnowsAssigned := by
  intro s b h hnone
  rw [lookup_assignments] at h
  obtain ⟨hwf, hmem, -⟩ := initRelations_spec p
  exact (ParityForest.find_eq_none_iff hwf).mp hnone (hmem _ (mem_of_lookup h))

theorem valuesAtRoots (p : KInductionProblem) : p.buildInitFactIndex.ValuesAtRoots := by
  intro r b h
  obtain ⟨s, value, parity, -, hfind, -⟩ := lookup_rootAssignments _ _ r b h
  obtain ⟨_, hn⟩ := ParityForest.find_eq_some_iff.mp hfind
  exact ParityForest.find_eq_some_iff.mpr ⟨_, hn.root_finds⟩

/-- A state of the start formula that keeps the relations satisfies the facts. -/
theorem startFacts_of_exactInit {init : BoolExpr} (hinit : p.buildExactPdrInitFormula = .ok init)
    {σ : Valuation} (hσ : init.eval σ = true) (hdom : p.DomainValid σ) : p.StartFacts (lit σ) := by
  constructor
  · intro relation hr
    obtain hr | hr := List.mem_append.mp hr
    · obtain ⟨pr, hpr, rfl⟩ := List.mem_map.mp hr
      simp [hdom.equal pr hpr]
    · obtain ⟨pr, hpr, rfl⟩ := List.mem_map.mp hr
      simp [hdom.complemented pr hpr]
  · intro entry he
    unfold startAssignments at he
    split_ifs at he with hcycles
    · cases he
    · obtain ⟨init', hinit', hholds⟩ :=
        eval_buildExactPdrInitFormula_of_no_prefix (not_not.mp hcycles)
      rw [hinit] at hinit'
      cases hinit'
      exact ((hholds σ).mp hσ).2 entry he

/-- A conflict is at most two literals of the cube that no state of the start formula with the
relations has. It is found exactly when the kept facts refute the known literals of the cube; when
the relations and start assignments are consistent, the kept facts are all of them. -/
theorem knownInitConflictCube_spec (p : KInductionProblem) (cube : StateCube) :
    (∀ conflict, p.buildInitFactIndex.knownInitConflictCube cube = some conflict →
      (∀ literal ∈ conflict, literal ∈ cube) ∧ conflict.length ≤ 2 ∧
      ∀ init σ, p.buildExactPdrInitFormula = .ok init → init.eval σ = true → p.DomainValid σ →
        ¬ StateCube.Holds σ conflict) ∧
    ((p.buildInitFactIndex.knownInitConflictCube cube).isSome = true ↔
      ∀ v, p.buildInitFactIndex.KeptFacts v →
        ¬ ∀ literal ∈ p.buildInitFactIndex.knownLiterals cube,
          v literal.symbol = literal.value) ∧
    ∀ v₀, p.StartFacts v₀ → ∀ v, p.buildInitFactIndex.KeptFacts v ↔ p.StartFacts v := by
  have hconflict (conflict : StateCube)
      (h : p.buildInitFactIndex.knownInitConflictCube cube = some conflict) :
      p.buildInitFactIndex.Conflict cube conflict :=
    InitFactIndex.conflict_of_conflictFrom p.knowsAssigned (fun r first h => by cases h)
      (fun literal hl => hl) h
  refine ⟨fun conflict h => ?_, ⟨fun h v hv hall => ?_, fun h => ?_⟩,
    fun v₀ h₀ v => keptFacts_iff h₀ v⟩
  · obtain ⟨hsub, hshort, hexcluded⟩ := hconflict conflict h
    refine ⟨fun l hl => (InitFactIndex.mem_knownLiterals.mp (hsub l hl)).1, hshort, ?_⟩
    intro init σ hinit hσ hdom
    exact hexcluded (lit σ) (startFacts_of_exactInit hinit hσ hdom).kept
  · obtain ⟨conflict, hsome⟩ := Option.isSome_iff_exists.mp h
    obtain ⟨hsub, -, hexcluded⟩ := hconflict conflict hsome
    exact hexcluded v hv fun l hl => hall l (hsub l hl)
  · by_contra hno
    obtain ⟨v, hv, hall⟩ := InitFactIndex.exists_of_no_conflict p.valuesAtRoots
      (Option.not_isSome_iff_eq_none.mp hno)
    exact h v hv hall

/-- Two assignments that disagree across an equality. -/
def disagreeingProblem : KInductionProblem where
  state0Symbols := [5, 6, 7]
  initialStateAssignments := [(5, true), (6, false)]
  sameFrameStateEqualityPairs0 := [(5, 6)]
  property := .var 5
  bad := .not (.var 5)

/-- The later assignment alone refutes the cube, but the class has the value of the earlier
one. -/
theorem knownInitConflictCube_keeps_first :
    (∀ v, disagreeingProblem.buildInitFactIndex.relations.Respects v →
      (∀ entry ∈ disagreeingProblem.buildInitFactIndex.assignments, v entry.1 = entry.2) →
      ¬ ∀ literal ∈ [CubeLiteral.mk 6 true], v literal.symbol = literal.value) ∧
    disagreeingProblem.buildInitFactIndex.knownInitConflictCube [⟨6, true⟩] = none := by
  refine ⟨fun v _ hassigned hall => ?_, by decide⟩
  have hfalse := hassigned (6, false) (by decide)
  have htrue := hall ⟨6, true⟩ (by simp)
  simp_all

end KInductionProblem
end KeplerFormal
