import KeplerFormal.Core.Components
import KeplerFormal.Core.Subsumption
import KeplerFormal.L2Problem.Problem
import KeplerFormal.L4Engine.SelectorCache

/-!
# The index of state relations (`src/sec/pdr/PDREngine.cpp`)

PDR knows pairs of state symbols that are equal, complements or rails of one bit. An index
from symbols to pairs closes symbol sets under the relations and emits the clauses of the
pairs that a solver can represent.

* `mem_addPartnerClosure`: the closure of a set is what its symbols are connected to.
* `emitPairs_adds`: the clauses of a list of pairs.
* `SurfaceInv`: a solver has the clauses of the pairs on its surface;
  `SurfaceInv.extend`: a wider surface keeps it.
* `relationIndex_exact`: the closure, the two paths of `addClauses`, and solvers built in
  one step or by extensions.
-/
namespace KeplerFormal

open Core

inductive IndexedStateRelationKind
  | equality
  | complement
  | dualRailValidity
  deriving DecidableEq

/-- `std::sort` and `std::unique`. -/
def sortedUnique (ks : List Nat) : List Nat := (ks.insertionSort (· ≤ ·)).destutter (· ≠ ·)

@[simp] theorem mem_sortedUnique {ks : List Nat} {k : Nat} : k ∈ sortedUnique ks ↔ k ∈ ks := by
  rw [sortedUnique, mem_destutter, List.mem_insertionSort]

abbrev PairIndices := AList fun _ : Nat => List Nat

/-- mirrors src/sec/pdr/PDREngine.cpp:511-514 -/
structure OrderedStateRelationIndex where
  orderedPairs : List (Nat × Nat)
  pairIndicesBySymbol : PairIndices
  componentIndexByPair : List (Option Nat)
  componentSymbols : List (List Nat)

def PairIndices.at (m : PairIndices) (symbol : Nat) : List Nat := (m.lookup symbol).getD []

def PairIndices.push (m : PairIndices) (symbol index : Nat) : PairIndices :=
  m.insert symbol (m.at symbol ++ [index])

/-- The loop of `buildIndex`.
mirrors src/sec/pdr/PDREngine.cpp:453-461 -/
def indexPairs : List (Nat × Nat) → Nat → PairIndices → PairIndices
  | [], _, m => m
  | (lhs, rhs) :: pairs, index, m => indexPairs pairs (index + 1) ((m.push lhs index).push rhs index)

/-- The pairs that share a symbol with a pair. -/
def partners (pairs : List (Nat × Nat)) (m : PairIndices) (index : Nat) : List Nat :=
  match pairs[index]? with
  | some (lhs, rhs) => m.at lhs ++ m.at rhs
  | none => []

namespace OrderedStateRelationIndex

/-- mirrors src/sec/pdr/PDREngine.cpp:463-493 -/
def build (pairs : List (Nat × Nat)) : OrderedStateRelationIndex :=
  let m := indexPairs pairs 0 ∅
  let walked := components (partners pairs m) (List.range pairs.length) []
    (List.replicate pairs.length none)
  { orderedPairs := pairs
    pairIndicesBySymbol := m
    componentIndexByPair := walked.2
    componentSymbols := walked.1.map fun component =>
      sortedUnique (component.flatMap fun index =>
        match pairs[index]? with
        | some (lhs, rhs) => [lhs, rhs]
        | none => []) }

variable (r : OrderedStateRelationIndex)

/-- The component of the first pair of a symbol. -/
def componentOf (symbol : Nat) : Option Nat :=
  match r.pairIndicesBySymbol.lookup symbol with
  | some (first :: _) => (r.componentIndexByPair[first]?).join
  | _ => none

/-- `symbols` lists an unordered set.
mirrors src/sec/pdr/PDREngine.cpp:363-387 -/
def addPartnerClosure (symbols : List Nat) : List Nat :=
  (sortedUnique (symbols.filterMap r.componentOf)).foldl
    (fun symbols component => (r.componentSymbols.getD component []).foldl
      (fun symbols symbol => symbols.insert symbol) symbols) symbols

/-- mirrors src/sec/pdr/PDREngine.cpp:495-508 -/
def relevantPairIndices (symbols : List Nat) : List Nat :=
  sortedUnique (symbols.flatMap r.pairIndicesBySymbol.at)

end OrderedStateRelationIndex

/-! ## Solvers and their variables -/

/-- The number of variables and the clauses of a solver. -/
structure SolverState where
  vars : Nat
  clauses : Query Nat

/-- mirrors src/sec/kinduction/SatEncoding.h:28-54 -/
structure FrameVariableStore where
  numFrames : Nat
  symbolFrameLits : AList fun _ : Nat => List SatLit

/-- mirrors src/sec/kinduction/SatEncoding.cpp:21-25 -/
def newSolverLiteral (solver : SolverState) : SatLit × SolverState :=
  (⟨solver.vars + 2, true⟩, { solver with vars := solver.vars + 1 })

namespace FrameVariableStore

def lits (v : FrameVariableStore) (symbol : Nat) : List SatLit :=
  (v.symbolFrameLits.lookup symbol).getD []

/-- `symbolFrameLits_[symbol]`: an entry is made where there is none. -/
def reserve (v : FrameVariableStore) (symbol : Nat) : FrameVariableStore :=
  { v with symbolFrameLits := v.symbolFrameLits.insert symbol (v.lits symbol) }

/-- A new literal at the end of the literals of a symbol. -/
def allocate (s : FrameVariableStore × SolverState) (symbol : Nat) :
    FrameVariableStore × SolverState :=
  ({ s.1 with symbolFrameLits :=
      s.1.symbolFrameLits.insert symbol (s.1.lits symbol ++ [(newSolverLiteral s.2).1]) },
    (newSolverLiteral s.2).2)

/-- One literal for every frame and symbol. -/
def allocateFrames (symbols : List Nat) :
    Nat → FrameVariableStore × SolverState → FrameVariableStore × SolverState
  | 0, s => s
  | frames + 1, s => allocateFrames symbols frames (symbols.foldl allocate s)

/-- mirrors src/sec/kinduction/SatEncoding.cpp:75-96 -/
def create (solver : SolverState) (symbols : List Nat) (numFrames : Nat) :
    FrameVariableStore × SolverState :=
  allocateFrames symbols numFrames (symbols.foldl reserve { numFrames, symbolFrameLits := ∅ }, solver)

def hasSymbol (v : FrameVariableStore) (symbol : Nat) : Bool :=
  (v.symbolFrameLits.lookup symbol).isSome

/-- The loop that keeps the symbols without an entry. -/
def reserveNew : List Nat → FrameVariableStore → FrameVariableStore × List Nat
  | [], v => (v, [])
  | symbol :: symbols, v =>
    if v.hasSymbol symbol then reserveNew symbols v
    else ((reserveNew symbols (v.reserve symbol)).1,
      symbol :: (reserveNew symbols (v.reserve symbol)).2)

/-- mirrors src/sec/kinduction/SatEncoding.cpp:98-120 -/
def addSymbols (v : FrameVariableStore) (solver : SolverState) (symbols : List Nat) :
    FrameVariableStore × SolverState :=
  allocateFrames (reserveNew symbols v).2 v.numFrames ((reserveNew symbols v).1, solver)

/-- mirrors src/sec/kinduction/SatEncoding.cpp:126-133 -/
def getLiteral (v : FrameVariableStore) (symbol frame : Nat) : Except String SatLit :=
  match v.symbolFrameLits.lookup symbol with
  | some literals =>
    match literals[frame]? with
    | some l => .ok l
    | none => .error s!"Missing frame variable for symbol {symbol}"
  | none => .error s!"Missing frame variable for symbol {symbol}"

end FrameVariableStore

/-- The clauses of a pair.
mirrors src/sec/pdr/PDREngine.cpp:440-450 -/
def relationClauses {A : Type} (kind : IndexedStateRelationKind) (lhs rhs : Lit A) :
    List (Clause A) :=
  match kind with
  | .equality => litEquivalence lhs rhs
  | .complement => litEquivalence rhs lhs.neg
  | .dualRailValidity => [[lhs, rhs]]

/-- mirrors src/sec/pdr/PDREngine.cpp:429-451 -/
def addPairClause (v : FrameVariableStore) (kind : IndexedStateRelationKind) (frame : Nat)
    (solver : SolverState) (pair : Nat × Nat) : Except String SolverState :=
  if !v.hasSymbol pair.1 || !v.hasSymbol pair.2 then .ok solver
  else do
    let lhsLiteral ← v.getLiteral pair.1 frame
    let rhsLiteral ← v.getLiteral pair.2 frame
    .ok { solver with clauses := solver.clauses ++ relationClauses kind lhsLiteral rhsLiteral }

namespace OrderedStateRelationIndex
variable (r : OrderedStateRelationIndex)

/-- One frame: the pairs of some indices. -/
def emitPairs (v : FrameVariableStore) (kind : IndexedStateRelationKind) (indices : List Nat)
    (solver : SolverState) (frame : Nat) : Except String SolverState :=
  (indices.filterMap fun index => r.orderedPairs[index]?).foldlM (addPairClause v kind frame) solver

/-- The path for dense surfaces. -/
def addClausesDense (v : FrameVariableStore) (kind : IndexedStateRelationKind) (numFrames : Nat)
    (solver : SolverState) : Except String SolverState :=
  (List.range numFrames).foldlM (r.emitPairs v kind (List.range r.orderedPairs.length)) solver

/-- The path for sparse surfaces. -/
def addClausesSparse (v : FrameVariableStore) (solverSymbols : List Nat)
    (kind : IndexedStateRelationKind) (numFrames : Nat) (solver : SolverState) :
    Except String SolverState :=
  (List.range numFrames).foldlM (r.emitPairs v kind (r.relevantPairIndices solverSymbols)) solver

/-- mirrors src/sec/pdr/PDREngine.cpp:389-412 -/
def addClauses (v : FrameVariableStore) (solverSymbols : List Nat) (numFrames : Nat)
    (kind : IndexedStateRelationKind) (solver : SolverState) : Except String SolverState :=
  if r.orderedPairs.length ≤ solverSymbols.length then r.addClausesDense v kind numFrames solver
  else r.addClausesSparse v solverSymbols kind numFrames solver

/-- mirrors src/sec/pdr/PDREngine.cpp:414-426 -/
def addClausesForAddedSymbols (v : FrameVariableStore) (addedSymbols : List Nat) (frame : Nat)
    (kind : IndexedStateRelationKind) (solver : SolverState) : Except String SolverState :=
  r.emitPairs v kind (r.relevantPairIndices addedSymbols) solver frame

end OrderedStateRelationIndex

/-- mirrors src/sec/pdr/PDREngine.cpp:519-586 -/
structure ComplementPartnerIndex where
  complemented0 : OrderedStateRelationIndex
  complemented1 : OrderedStateRelationIndex
  sameFrameEqualities0 : OrderedStateRelationIndex
  sameFrameEqualities1 : OrderedStateRelationIndex
  dualRailPairs : OrderedStateRelationIndex

namespace ComplementPartnerIndex

def build (problem : KInductionProblem) : ComplementPartnerIndex where
  complemented0 := .build problem.complementedStatePairs0
  complemented1 := .build problem.complementedStatePairs1
  sameFrameEqualities0 := .build problem.sameFrameStateEqualityPairs0
  sameFrameEqualities1 := .build problem.sameFrameStateEqualityPairs1
  dualRailPairs := .build (problem.dualRailStatePairs.map fun rails => (rails.mayBeOne, rails.mayBeZero))

/-- The indices in the order of their calls. -/
def parts (c : ComplementPartnerIndex) :
    List (OrderedStateRelationIndex × IndexedStateRelationKind) :=
  [(c.complemented0, .complement), (c.complemented1, .complement),
    (c.sameFrameEqualities0, .equality), (c.sameFrameEqualities1, .equality),
    (c.dualRailPairs, .dualRailValidity)]

def addClauses (c : ComplementPartnerIndex) (v : FrameVariableStore) (solverSymbols : List Nat)
    (numFrames : Nat) (solver : SolverState) : Except String SolverState :=
  c.parts.foldlM (fun solver part => part.1.addClauses v solverSymbols numFrames part.2 solver) solver

def addClausesForAddedSymbols (c : ComplementPartnerIndex) (v : FrameVariableStore)
    (addedSymbols : List Nat) (frame : Nat) (solver : SolverState) : Except String SolverState :=
  c.parts.foldlM
    (fun solver part => part.1.addClausesForAddedSymbols v addedSymbols frame part.2 solver) solver

end ComplementPartnerIndex

/-- `std::set_difference` of sorted ranges. -/
def setDifference : List Nat → List Nat → List Nat
  | [], _ => []
  | as, [] => as
  | a :: as, b :: bs =>
    if a < b then a :: setDifference as (b :: bs)
    else if b < a then setDifference (a :: as) bs
    else setDifference as bs
termination_by as bs => as.length + bs.length

/-- The parts of a predecessor solver that hold its symbol surface. -/
structure SurfaceSolver where
  solver : SolverState
  frameVariables : FrameVariableStore
  solverSymbols : List Nat

namespace SurfaceSolver

/-- mirrors src/sec/pdr/PDREngine.cpp:4696-4702 -/
def create (c : ComplementPartnerIndex) (solver : SolverState) (solverSymbols : List Nat) :
    Except String SurfaceSolver := do
  let s := FrameVariableStore.create solver solverSymbols 1
  let solver ← c.addClauses s.1 solverSymbols 1 s.2
  .ok { solver, frameVariables := s.1, solverSymbols }

/-- mirrors src/sec/pdr/PDREngine.cpp:4456-4506 -/
def extendSymbolSurface (c : ComplementPartnerIndex) (p : SurfaceSolver)
    (solverSymbols : List Nat) : Except String SurfaceSolver :=
  let addedSymbols := setDifference solverSymbols p.solverSymbols
  if addedSymbols.isEmpty then .ok p
  else do
    let s := p.frameVariables.addSymbols p.solver addedSymbols
    let solver ← c.addClausesForAddedSymbols s.1 addedSymbols 0 s.2
    .ok { solver, frameVariables := s.1, solverSymbols }

end SurfaceSolver

/-- What happens to a solver over its life: its surface grows, or queries add variables and
clauses of their own. -/
inductive SurfaceStep
  | extend (solverSymbols : List Nat)
  | encode (vars : Nat) (clauses : Query Nat)

namespace SurfaceSolver

def step (c : ComplementPartnerIndex) (p : SurfaceSolver) :
    SurfaceStep → Except String SurfaceSolver
  | .extend solverSymbols => p.extendSymbolSurface c solverSymbols
  | .encode vars clauses => .ok { p with
      solver := { vars := p.solver.vars + vars, clauses := p.solver.clauses ++ clauses } }

end SurfaceSolver

/-! ## The index -/

/-- A symbol is an end of the pair at an index. -/
def EndOf (pairs : List (Nat × Nat)) (index symbol : Nat) : Prop :=
  ∃ pair, pairs[index]? = some pair ∧ (pair.1 = symbol ∨ pair.2 = symbol)

/-- Symbols connected through the pairs. -/
def Connected (pairs : List (Nat × Nat)) : Nat → Nat → Prop :=
  Relation.ReflTransGen fun s t => (s, t) ∈ pairs ∨ (t, s) ∈ pairs

theorem PairIndices.at_push (m : PairIndices) (symbol index t : Nat) :
    (m.push symbol index).at t = if t = symbol then m.at symbol ++ [index] else m.at t := by
  unfold PairIndices.at PairIndices.push
  by_cases h : t = symbol
  · subst h
    rw [AList.lookup_insert, if_pos rfl]
    rfl
  · rw [AList.lookup_insert_ne h, if_neg h]

theorem PairIndices.mem_at_push {m : PairIndices} {symbol index t i : Nat} :
    i ∈ (m.push symbol index).at t ↔ i ∈ m.at t ∨ t = symbol ∧ i = index := by
  rw [PairIndices.at_push]
  by_cases h : t = symbol
  · subst h
    simp
  · simp [h]

theorem mem_at_indexPairs {pairs : List (Nat × Nat)} {k : Nat} {m : PairIndices} {s i : Nat} :
    i ∈ (indexPairs pairs k m).at s ↔ i ∈ m.at s ∨ ∃ j, i = k + j ∧ EndOf pairs j s := by
  induction pairs generalizing k m with
  | nil => simp [indexPairs, EndOf]
  | cons pair pairs ih =>
    obtain ⟨lhs, rhs⟩ := pair
    rw [indexPairs, ih, PairIndices.mem_at_push, PairIndices.mem_at_push]
    constructor
    · rintro (((h | ⟨rfl, rfl⟩) | ⟨rfl, rfl⟩) | ⟨j, rfl, pair, hget, hend⟩)
      · exact Or.inl h
      · exact Or.inr ⟨0, rfl, (s, rhs), rfl, Or.inl rfl⟩
      · exact Or.inr ⟨0, rfl, (lhs, s), rfl, Or.inr rfl⟩
      · exact Or.inr ⟨j + 1, by omega, pair, by simpa using hget, hend⟩
    · rintro (h | ⟨j, rfl, pair, hget, hend⟩)
      · exact Or.inl (Or.inl (Or.inl h))
      · cases j with
        | zero =>
          obtain rfl : (lhs, rhs) = pair := by simpa using hget
          rcases hend with rfl | rfl
          · exact Or.inl (Or.inl (Or.inr ⟨rfl, rfl⟩))
          · exact Or.inl (Or.inr ⟨rfl, rfl⟩)
        | succ j => exact Or.inr ⟨j, by omega, pair, by simpa using hget, hend⟩

/-- The index lists the pairs of a symbol. -/
theorem mem_index {pairs : List (Nat × Nat)} {s i : Nat} :
    i ∈ (indexPairs pairs 0 ∅).at s ↔ EndOf pairs i s := by
  rw [mem_at_indexPairs]
  simp [PairIndices.at]

theorem mem_partners {pairs : List (Nat × Nat)} {i j : Nat} :
    j ∈ partners pairs (indexPairs pairs 0 ∅) i ↔ ∃ s, EndOf pairs i s ∧ EndOf pairs j s := by
  unfold partners
  cases hget : pairs[i]? with
  | none =>
    refine iff_of_false (by simp) ?_
    rintro ⟨s, ⟨pair, hpair, -⟩, -⟩
    rw [hget] at hpair
    cases hpair
  | some pair =>
    obtain ⟨lhs, rhs⟩ := pair
    simp only [List.mem_append, mem_index]
    constructor
    · rintro (h | h)
      · exact ⟨lhs, ⟨_, hget, Or.inl rfl⟩, h⟩
      · exact ⟨rhs, ⟨_, hget, Or.inr rfl⟩, h⟩
    · rintro ⟨s, ⟨pair, hpair, hend⟩, hj⟩
      rw [hget] at hpair
      cases hpair
      rcases hend with rfl | rfl
      · exact Or.inl hj
      · exact Or.inr hj

theorem EndOf.lt {pairs : List (Nat × Nat)} {i s : Nat} (h : EndOf pairs i s) :
    i < pairs.length := by
  obtain ⟨pair, hget, -⟩ := h
  exact (List.getElem?_eq_some_iff.1 hget).1

/-- Both ends of a pair are connected. -/
theorem EndOf.connected {pairs : List (Nat × Nat)} {i s t : Nat} (hs : EndOf pairs i s)
    (ht : EndOf pairs i t) : Connected pairs s t := by
  obtain ⟨⟨lhs, rhs⟩, hget, hs⟩ := hs
  obtain ⟨pair, hget', ht⟩ := ht
  rw [hget] at hget'
  cases hget'
  have hmem := List.mem_of_getElem? hget
  rcases hs with rfl | rfl <;> rcases ht with rfl | rfl
  · exact Relation.ReflTransGen.refl
  · exact Relation.ReflTransGen.single (Or.inl hmem)
  · exact Relation.ReflTransGen.single (Or.inr hmem)
  · exact Relation.ReflTransGen.refl

theorem connected_end {pairs : List (Nat × Nat)} {s t : Nat}
    (h : (s, t) ∈ pairs ∨ (t, s) ∈ pairs) : ∃ i, EndOf pairs i s ∧ EndOf pairs i t := by
  rcases h with h | h
  · obtain ⟨i, hget⟩ := List.mem_iff_getElem?.1 h
    exact ⟨i, ⟨_, hget, Or.inl rfl⟩, ⟨_, hget, Or.inr rfl⟩⟩
  · obtain ⟨i, hget⟩ := List.mem_iff_getElem?.1 h
    exact ⟨i, ⟨_, hget, Or.inr rfl⟩, ⟨_, hget, Or.inl rfl⟩⟩

/-- The pairs that a pair leads to have the symbols connected to its own. -/
theorem leads_iff_connected {pairs : List (Nat × Nat)} {i s : Nat} (hs : EndOf pairs i s) (t : Nat) :
    (∃ j, LeadsTo (partners pairs (indexPairs pairs 0 ∅)) i j ∧ EndOf pairs j t)
      ↔ Connected pairs s t := by
  constructor
  · rintro ⟨j, hleads, ht⟩
    induction hleads generalizing t with
    | refl => exact hs.connected ht
    | tail _ hstep ih =>
      obtain ⟨u, hu, hju⟩ := mem_partners.1 hstep
      exact (ih u hu).trans (hju.connected ht)
  · intro hconn
    induction hconn with
    | refl => exact ⟨i, Relation.ReflTransGen.refl, hs⟩
    | tail _ hstep ih =>
      obtain ⟨j, hleads, hj⟩ := ih
      obtain ⟨k, hk, hk'⟩ := connected_end hstep
      exact ⟨k, hleads.tail (mem_partners.2 ⟨_, hj, hk⟩), hk'⟩

namespace OrderedStateRelationIndex
variable {pairs : List (Nat × Nat)}

theorem lookup_nonempty {m : PairIndices} {k : Nat}
    (hm : ∀ s l, m.lookup s = some l → l ≠ []) {s : Nat} {l : List Nat}
    (h : (indexPairs pairs k m).lookup s = some l) : l ≠ [] := by
  induction pairs generalizing k m with
  | nil => exact hm s l h
  | cons pair pairs ih =>
    refine ih ?_ h
    have hpush : ∀ (m : PairIndices) (a b : Nat), (∀ s l, m.lookup s = some l → l ≠ []) →
        ∀ s l, (m.push a b).lookup s = some l → l ≠ [] := by
      intro m a b hm s l h
      unfold PairIndices.push at h
      by_cases hs : s = a
      · subst hs
        rw [AList.lookup_insert] at h
        cases h
        simp
      · rw [AList.lookup_insert_ne hs] at h
        exact hm s l h
    exact hpush _ _ _ (hpush _ _ _ hm)

theorem exists_component (pairs : List (Nat × Nat)) (symbol : Nat) :
    ((build pairs).componentOf symbol = none ∧ ∀ i, ¬ EndOf pairs i symbol) ∨
      ∃ k, (build pairs).componentOf symbol = some k ∧
        ∀ t, t ∈ (build pairs).componentSymbols.getD k [] ↔ Connected pairs symbol t := by
  have hpartner : ∀ a b, b ∈ partners pairs (indexPairs pairs 0 ∅) a →
      a ∈ partners pairs (indexPairs pairs 0 ∅) b := by
    intro a b hb
    obtain ⟨s, ha, hb⟩ := mem_partners.1 hb
    exact mem_partners.2 ⟨s, hb, ha⟩
  have hrange : ∀ a b, b ∈ partners pairs (indexPairs pairs 0 ∅) a → b < pairs.length := by
    intro a b hb
    obtain ⟨s, -, hb⟩ := mem_partners.1 hb
    exact hb.lt
  cases hlookup : (indexPairs pairs 0 ∅).lookup symbol with
  | none =>
    refine Or.inl ⟨?_, fun i hi => ?_⟩
    · simp [componentOf, build, hlookup]
    · have hmem := mem_index.2 hi
      simp [PairIndices.at, hlookup] at hmem
  | some l =>
    cases l with
    | nil => exact absurd rfl (lookup_nonempty (by simp) hlookup)
    | cons first rest =>
      have hend : EndOf pairs first symbol := by
        apply mem_index.1
        simp [PairIndices.at, hlookup]
      obtain ⟨k, hk, hmem⟩ := components_spec hpartner hrange hend.lt
      refine Or.inr ⟨k, ?_, fun t => ?_⟩
      · simp [componentOf, build, hlookup, hk]
      · rw [← leads_iff_connected hend t]
        simp only [build, List.getD_eq_getElem?_getD, List.getElem?_map]
        rw [List.getD_eq_getElem?_getD] at hmem
        cases hcomp : (components (partners pairs (indexPairs pairs 0 ∅))
            (List.range pairs.length) [] (List.replicate pairs.length none)).1[k]? with
        | none =>
          rw [hcomp] at hmem
          have hself := (hmem first).2 Relation.ReflTransGen.refl
          cases hself
        | some component =>
          rw [hcomp] at hmem
          simp only [Option.map_some, Option.getD_some, mem_sortedUnique, List.mem_flatMap]
            at hmem ⊢
          refine exists_congr fun j => and_congr (hmem j) ?_
          unfold EndOf
          cases pairs[j]? with
          | none => simp
          | some pair => simp [eq_comm]

theorem mem_foldl_insert {components : List (List Nat)} {ks symbols : List Nat} {t : Nat} :
    t ∈ ks.foldl (fun symbols component => (components.getD component []).foldl
        (fun symbols symbol => symbols.insert symbol) symbols) symbols
      ↔ t ∈ symbols ∨ ∃ k ∈ ks, t ∈ components.getD k [] := by
  have hone : ∀ (as symbols : List Nat),
      t ∈ as.foldl (fun symbols symbol => symbols.insert symbol) symbols
        ↔ t ∈ symbols ∨ t ∈ as := by
    intro as
    induction as with
    | nil => simp
    | cons a as ih =>
      intro symbols
      rw [List.foldl_cons, ih, List.mem_insert_iff, List.mem_cons]
      tauto
  induction ks generalizing symbols with
  | nil => simp
  | cons k ks ih =>
    rw [List.foldl_cons]
    refine (@ih _).trans ?_
    rw [hone]
    simp only [List.mem_cons, exists_eq_or_imp]
    tauto

/-- The closure of a set is what its symbols are connected to. -/
theorem mem_addPartnerClosure (symbols : List Nat) (t : Nat) :
    t ∈ (build pairs).addPartnerClosure symbols ↔ ∃ s ∈ symbols, Connected pairs s t := by
  rw [addPartnerClosure, mem_foldl_insert]
  simp only [mem_sortedUnique, List.mem_filterMap]
  constructor
  · rintro (ht | ⟨k, ⟨s, hs, hk⟩, ht⟩)
    · exact ⟨t, ht, Relation.ReflTransGen.refl⟩
    · rcases exists_component pairs s with ⟨hnone, -⟩ | ⟨k', hk', hmem⟩
      · rw [hnone] at hk
        cases hk
      · rw [hk'] at hk
        cases hk
        exact ⟨s, hs, (hmem t).1 ht⟩
  · rintro ⟨s, hs, hconn⟩
    rcases exists_component pairs s with ⟨-, hno⟩ | ⟨k, hk, hmem⟩
    · obtain rfl : s = t := by
        rcases Relation.ReflTransGen.cases_head hconn with rfl | ⟨u, hstep, -⟩
        · rfl
        · obtain ⟨i, hi, -⟩ := connected_end hstep
          exact absurd hi (hno i)
      exact Or.inl hs
    · exact Or.inr ⟨k, ⟨s, hs, hk⟩, (hmem t).2 hconn⟩

theorem mem_relevantPairIndices {symbols : List Nat} {i : Nat} :
    i ∈ (build pairs).relevantPairIndices symbols ↔ ∃ s ∈ symbols, EndOf pairs i s := by
  rw [relevantPairIndices, mem_sortedUnique, List.mem_flatMap]
  exact exists_congr fun s => and_congr_right fun _ => mem_index

end OrderedStateRelationIndex

/-! ## The variables of a solver -/

namespace FrameVariableStore

/-- The literal of a symbol in a frame. -/
def literal (v : FrameVariableStore) (a : Nat × Nat) : SatLit :=
  ((v.lits a.1)[a.2]?).getD ⟨0, true⟩

/-- A clause over symbols and frames, with the literals of the store. -/
def renameClause (v : FrameVariableStore) (clause : Clause (Nat × Nat)) : Clause Nat :=
  clause.map fun l => if l.positive then v.literal l.atom else (v.literal l.atom).neg

/-- The store knows some symbols, each in a number of frames. -/
structure Knows (v : FrameVariableStore) (symbols : List Nat) (frames : Nat) : Prop where
  has : ∀ s, v.hasSymbol s = true ↔ s ∈ symbols
  lits : ∀ s ∈ symbols, frames ≤ (v.lits s).length

variable {v : FrameVariableStore}

theorem lits_insert (v : FrameVariableStore) (symbol : Nat) (literals : List SatLit) (s : Nat) :
    lits { v with symbolFrameLits := v.symbolFrameLits.insert symbol literals } s
      = if s = symbol then literals else v.lits s := by
  unfold lits
  by_cases h : s = symbol
  · subst h
    simp
  · simp [AList.lookup_insert_ne h, h]

theorem hasSymbol_insert (v : FrameVariableStore) (symbol : Nat) (literals : List SatLit) (s : Nat) :
    hasSymbol { v with symbolFrameLits := v.symbolFrameLits.insert symbol literals } s = true
      ↔ s = symbol ∨ v.hasSymbol s = true := by
  unfold hasSymbol
  by_cases h : s = symbol
  · subst h
    simp
  · simp [AList.lookup_insert_ne h, h]

theorem getLiteral_eq {s frame : Nat} (hs : v.hasSymbol s = true) (hf : frame < (v.lits s).length) :
    v.getLiteral s frame = .ok (v.literal (s, frame)) := by
  obtain ⟨literals, hl⟩ := Option.isSome_iff_exists.1 hs
  have hlits : v.lits s = literals := by rw [lits, hl]; rfl
  rw [hlits] at hf
  rw [getLiteral, hl, literal, hlits]
  simp [List.getElem?_eq_getElem hf]

theorem reserve_hasSymbol (v : FrameVariableStore) (symbol s : Nat) :
    (v.reserve symbol).hasSymbol s = true ↔ s = symbol ∨ v.hasSymbol s = true :=
  v.hasSymbol_insert symbol _ s

theorem reserve_lits (v : FrameVariableStore) (symbol s : Nat) :
    (v.reserve symbol).lits s = v.lits s := by
  rw [reserve, lits_insert]
  split
  · next h => rw [h]
  · rfl

theorem foldl_reserve (symbols : List Nat) (v : FrameVariableStore) (s : Nat) :
    (symbols.foldl reserve v).hasSymbol s = true ↔ s ∈ symbols ∨ v.hasSymbol s = true := by
  induction symbols generalizing v with
  | nil => simp
  | cons symbol symbols ih =>
    rw [List.foldl_cons, ih, reserve_hasSymbol, List.mem_cons]
    tauto

/-- One pass over the symbols: each gets a literal behind those it has, others keep theirs. -/
theorem foldl_allocate (symbols : List Nat) (x : FrameVariableStore × SolverState) :
    (∀ s, (symbols.foldl allocate x).1.hasSymbol s = true ↔ s ∈ symbols ∨ x.1.hasSymbol s = true) ∧
      (∀ s, x.1.lits s <+: (symbols.foldl allocate x).1.lits s) ∧
      (∀ s ∈ symbols, (x.1.lits s).length < ((symbols.foldl allocate x).1.lits s).length) ∧
      (∀ s, s ∉ symbols → (symbols.foldl allocate x).1.lits s = x.1.lits s) ∧
      (symbols.foldl allocate x).2.clauses = x.2.clauses ∧
      (symbols.foldl allocate x).1.numFrames = x.1.numFrames := by
  induction symbols generalizing x with
  | nil => simp
  | cons symbol symbols ih =>
    rw [List.foldl_cons]
    obtain ⟨hhas, hpre, hlen, hout, hclauses, hframes⟩ := ih (allocate x symbol)
    have hlits : ∀ s, (allocate x symbol).1.lits s
        = if s = symbol then x.1.lits symbol ++ [(newSolverLiteral x.2).1] else x.1.lits s :=
      fun s => lits_insert x.1 symbol _ s
    have hpre' : ∀ s, x.1.lits s <+: (allocate x symbol).1.lits s := by
      intro s
      rw [hlits]
      split
      · next h =>
        rw [h]
        exact List.prefix_append _ _
      · exact List.prefix_refl _
    refine ⟨?_, fun s => (hpre' s).trans (hpre s), ?_, ?_, hclauses, hframes⟩
    · intro s
      rw [hhas, List.mem_cons]
      have hone : (allocate x symbol).1.hasSymbol s = true ↔ s = symbol ∨ x.1.hasSymbol s = true :=
        x.1.hasSymbol_insert symbol _ s
      rw [hone]
      tauto
    · intro s hs
      rcases List.mem_cons.1 hs with rfl | hs
      · have hle := (hpre s).length_le
        rw [hlits, if_pos rfl, List.length_append, List.length_singleton] at hle
        omega
      · have hlt := hlen s hs
        have hle := (hpre' s).length_le
        omega
    · intro s hs
      rw [List.mem_cons, not_or] at hs
      rw [hout s hs.2, hlits, if_neg hs.1]

theorem allocateFrames_spec (symbols : List Nat) (frames : Nat)
    (x : FrameVariableStore × SolverState) (hx : ∀ s ∈ symbols, x.1.hasSymbol s = true) :
    (∀ s, (allocateFrames symbols frames x).1.hasSymbol s = true ↔ x.1.hasSymbol s = true) ∧
      (∀ s ∈ symbols, (x.1.lits s).length + frames ≤
        ((allocateFrames symbols frames x).1.lits s).length) ∧
      (∀ s, s ∉ symbols → (allocateFrames symbols frames x).1.lits s = x.1.lits s) ∧
      (allocateFrames symbols frames x).2.clauses = x.2.clauses ∧
      (allocateFrames symbols frames x).1.numFrames = x.1.numFrames := by
  induction frames generalizing x with
  | zero => simp [allocateFrames]
  | succ frames ih =>
    rw [allocateFrames]
    obtain ⟨hhas, -, hlen, hout, hclauses, hframes⟩ := foldl_allocate symbols x
    obtain ⟨hhas', hlen', hout', hclauses', hframes'⟩ :=
      ih (symbols.foldl allocate x) fun s hs => (hhas s).2 (Or.inl hs)
    refine ⟨?_, ?_, ?_, hclauses'.trans hclauses, hframes'.trans hframes⟩
    · intro s
      rw [hhas', hhas]
      exact ⟨fun h => h.elim (hx s) id, Or.inr⟩
    · intro s hs
      have h1 := hlen s hs
      have h2 := hlen' s hs
      omega
    · intro s hs
      rw [hout' s hs, hout s hs]

/-- A new store knows its symbols in all frames. -/
theorem create_knows (solver : SolverState) (symbols : List Nat) (numFrames : Nat) :
    (create solver symbols numFrames).1.Knows symbols numFrames ∧
      (create solver symbols numFrames).2.clauses = solver.clauses ∧
      (create solver symbols numFrames).1.numFrames = numFrames := by
  let v : FrameVariableStore := { numFrames, symbolFrameLits := ∅ }
  have hstart : ∀ s, (symbols.foldl reserve v).hasSymbol s = true ↔ s ∈ symbols := by
    intro s
    rw [foldl_reserve]
    simp [v, hasSymbol]
  have hframes : (symbols.foldl reserve v).numFrames = numFrames := by
    have hkeep : ∀ (symbols : List Nat) (v : FrameVariableStore),
        (symbols.foldl reserve v).numFrames = v.numFrames := by
      intro symbols
      induction symbols with
      | nil => exact fun _ => rfl
      | cons symbol symbols ih => exact fun v => ih (v.reserve symbol)
    exact hkeep symbols v
  obtain ⟨hhas, hlen, -, hclauses, hnum⟩ := allocateFrames_spec symbols numFrames
    (symbols.foldl reserve v, solver) fun s hs => (hstart s).2 hs
  refine ⟨⟨?_, ?_⟩, hclauses, hnum.trans hframes⟩
  · intro s
    rw [← hstart s]
    exact hhas s
  · intro s hs
    exact (Nat.le_add_left _ _).trans (hlen s hs)

theorem reserveNew_spec (symbols : List Nat) (v : FrameVariableStore) :
    (∀ s, (reserveNew symbols v).1.hasSymbol s = true ↔ s ∈ symbols ∨ v.hasSymbol s = true) ∧
      (∀ s, (reserveNew symbols v).1.lits s = v.lits s) ∧
      (∀ s, s ∈ (reserveNew symbols v).2 ↔ s ∈ symbols ∧ ¬ v.hasSymbol s = true) ∧
      (reserveNew symbols v).1.numFrames = v.numFrames := by
  induction symbols generalizing v with
  | nil => simp [reserveNew]
  | cons symbol symbols ih =>
    unfold reserveNew
    split
    · next h =>
      obtain ⟨hhas, hlits, hmem, hframes⟩ := ih v
      refine ⟨?_, hlits, ?_, hframes⟩
      · intro s
        rw [hhas, List.mem_cons]
        constructor
        · tauto
        · rintro ((rfl | hs) | hs)
          · exact Or.inr h
          · exact Or.inl hs
          · exact Or.inr hs
      · intro s
        rw [hmem, List.mem_cons]
        constructor
        · tauto
        · rintro ⟨rfl | hs, hn⟩
          · exact absurd h hn
          · exact ⟨hs, hn⟩
    · next h =>
      obtain ⟨hhas, hlits, hmem, hframes⟩ := ih (v.reserve symbol)
      refine ⟨?_, fun s => (hlits s).trans (v.reserve_lits symbol s), ?_, hframes⟩
      · intro s
        rw [hhas, reserve_hasSymbol, List.mem_cons]
        tauto
      · intro s
        rw [List.mem_cons, hmem, reserve_hasSymbol, List.mem_cons]
        constructor
        · rintro (rfl | ⟨hs, hn⟩)
          · exact ⟨Or.inl rfl, h⟩
          · rw [not_or] at hn
            exact ⟨Or.inr hs, hn.2⟩
        · rintro ⟨hs, hn⟩
          by_cases heq : s = symbol
          · exact Or.inl heq
          · exact Or.inr ⟨hs.resolve_left heq, not_or.2 ⟨heq, hn⟩⟩

/-- Adding symbols keeps the literals of those that are there. -/
theorem addSymbols_spec {symbols : List Nat} (h : v.Knows symbols v.numFrames)
    (solver : SolverState) (added : List Nat) :
    (v.addSymbols solver added).1.Knows (added ++ symbols) v.numFrames ∧
      (∀ s ∈ symbols, (v.addSymbols solver added).1.lits s = v.lits s) ∧
      (v.addSymbols solver added).2.clauses = solver.clauses ∧
      (v.addSymbols solver added).1.numFrames = v.numFrames := by
  obtain ⟨hhas, hlits, hmem, hframes⟩ := reserveNew_spec added v
  obtain ⟨hhas', hlen, hout, hclauses, hnum⟩ := allocateFrames_spec (reserveNew added v).2
    v.numFrames ((reserveNew added v).1, solver) fun s hs => (hhas s).2 (Or.inl ((hmem s).1 hs).1)
  have hold : ∀ s ∈ symbols, (v.addSymbols solver added).1.lits s = v.lits s := by
    intro s hs
    have hkept := hout s fun hm => ((hmem s).1 hm).2 ((h.has s).2 hs)
    exact hkept.trans (hlits s)
  refine ⟨⟨?_, ?_⟩, hold, hclauses, hnum.trans hframes⟩
  · intro s
    rw [List.mem_append, ← h.has s, ← hhas s]
    exact hhas' s
  · intro s hs
    by_cases hin : s ∈ symbols
    · rw [hold s hin]
      exact h.lits s hin
    · have hnew : s ∈ (reserveNew added v).2 := by
        refine (hmem s).2 ⟨?_, fun hv => hin ((h.has s).1 hv)⟩
        exact (List.mem_append.1 hs).resolve_right hin
      exact (Nat.le_add_left _ _).trans (hlen s hnew)

end FrameVariableStore

/-! ## Emitting clauses -/

/-- The step succeeds and adds exactly these clauses. -/
def Adds (f : SolverState → Except String SolverState) (new : Clause Nat → Prop) : Prop :=
  ∀ solver, ∃ solver', f solver = .ok solver' ∧
    ∀ clause, clause ∈ solver'.clauses ↔ clause ∈ solver.clauses ∨ new clause

theorem Adds.foldlM {X : Type} {f : SolverState → X → Except String SolverState} (xs : List X)
    {new : X → Clause Nat → Prop} (h : ∀ x ∈ xs, Adds (fun solver => f solver x) (new x)) :
    Adds (fun solver => xs.foldlM f solver) fun clause => ∃ x ∈ xs, new x clause := by
  intro solver
  induction xs generalizing solver with
  | nil => exact ⟨solver, rfl, by simp⟩
  | cons x xs ih =>
    obtain ⟨s, hs, hmem⟩ := h x List.mem_cons_self solver
    obtain ⟨s', hs', hmem'⟩ := ih (fun y hy => h y (List.mem_cons_of_mem _ hy)) s
    refine ⟨s', ?_, fun clause => ?_⟩
    · dsimp only at hs ⊢
      rw [List.foldlM_cons, hs]
      exact hs'
    · rw [hmem', hmem, or_assoc]
      simp only [List.mem_cons, exists_eq_or_imp]

/-- The clauses of a pair that the store can represent. -/
def PairClause (v : FrameVariableStore) (kind : IndexedStateRelationKind) (frame : Nat)
    (pair : Nat × Nat) (clause : Clause Nat) : Prop :=
  (v.hasSymbol pair.1 = true ∧ v.hasSymbol pair.2 = true) ∧
    ∃ c ∈ relationClauses kind ⟨(pair.1, frame), true⟩ ⟨(pair.2, frame), true⟩,
      clause = v.renameClause c

theorem relationClauses_rename (v : FrameVariableStore) (kind : IndexedStateRelationKind)
    (a b : Nat × Nat) :
    (relationClauses kind ⟨a, true⟩ ⟨b, true⟩).map v.renameClause
      = relationClauses kind (v.literal a) (v.literal b) := by
  cases kind <;>
    simp [relationClauses, litEquivalence, FrameVariableStore.renameClause, Lit.neg]

theorem addPairClause_adds {v : FrameVariableStore} {symbols : List Nat} {frames frame : Nat}
    (h : v.Knows symbols frames) (hf : frame < frames) (kind : IndexedStateRelationKind)
    (pair : Nat × Nat) :
    Adds (fun solver => addPairClause v kind frame solver pair) (PairClause v kind frame pair) := by
  intro solver
  dsimp only
  unfold addPairClause PairClause
  by_cases hboth : v.hasSymbol pair.1 = true ∧ v.hasSymbol pair.2 = true
  · have hlen : ∀ s, v.hasSymbol s = true → frame < (v.lits s).length :=
      fun s hs => hf.trans_le (h.lits s ((h.has s).1 hs))
    refine ⟨⟨solver.vars, solver.clauses ++
      relationClauses kind (v.literal (pair.1, frame)) (v.literal (pair.2, frame))⟩, ?_,
      fun clause => ?_⟩
    · rw [hboth.1, hboth.2, FrameVariableStore.getLiteral_eq hboth.1 (hlen _ hboth.1),
        FrameVariableStore.getLiteral_eq hboth.2 (hlen _ hboth.2)]
      rfl
    · rw [List.mem_append, ← relationClauses_rename, List.mem_map]
      simp only [hboth.1, hboth.2, and_self, true_and, eq_comm]
  · refine ⟨solver, ?_, fun clause => ?_⟩
    · have hno : (!v.hasSymbol pair.1 || !v.hasSymbol pair.2) = true := by
        rw [not_and_or] at hboth
        simpa [Bool.not_eq_true] using hboth
      rw [if_pos hno]
    · simp [hboth]

namespace OrderedStateRelationIndex
variable {pairs : List (Nat × Nat)} {v : FrameVariableStore} {symbols : List Nat} {frames : Nat}

theorem emitPairs_adds (pairs : List (Nat × Nat)) (h : v.Knows symbols frames) {frame : Nat} (hf : frame < frames)
    (kind : IndexedStateRelationKind) (indices : List Nat) :
    Adds (fun solver => (build pairs).emitPairs v kind indices solver frame) fun clause =>
      ∃ index ∈ indices, ∃ pair, pairs[index]? = some pair ∧ PairClause v kind frame pair clause := by
  have hadds := Adds.foldlM
    (indices.filterMap fun index => (build pairs).orderedPairs[index]?)
    fun pair _ => addPairClause_adds h hf kind pair
  intro solver
  obtain ⟨solver', hok, hmem⟩ := hadds solver
  refine ⟨solver', hok, fun clause => (hmem clause).trans (or_congr_right ?_)⟩
  simp only [List.mem_filterMap]
  constructor
  · rintro ⟨pair, ⟨index, hi, hget⟩, hclause⟩
    exact ⟨index, hi, pair, hget, hclause⟩
  · rintro ⟨index, hi, pair, hget, hclause⟩
    exact ⟨pair, ⟨index, hi, hget⟩, hclause⟩

/-- The dense path emits every pair that the store can represent. -/
theorem addClausesDense_adds (pairs : List (Nat × Nat)) (h : v.Knows symbols frames)
    (kind : IndexedStateRelationKind) :
    Adds ((build pairs).addClausesDense v kind frames) fun clause =>
      ∃ frame < frames, ∃ pair ∈ pairs, PairClause v kind frame pair clause := by
  have hadds := Adds.foldlM (List.range frames) fun frame hf =>
    emitPairs_adds pairs h (List.mem_range.1 hf) kind (List.range pairs.length)
  intro solver
  obtain ⟨solver', hok, hmem⟩ := hadds solver
  refine ⟨solver', hok, fun clause => (hmem clause).trans (or_congr_right ?_)⟩
  simp only [List.mem_range]
  refine exists_congr fun frame => and_congr_right fun _ => ?_
  constructor
  · rintro ⟨index, -, pair, hget, hclause⟩
    exact ⟨pair, List.mem_of_getElem? hget, hclause⟩
  · rintro ⟨pair, hpair, hclause⟩
    obtain ⟨index, hget⟩ := List.mem_iff_getElem?.1 hpair
    exact ⟨index, (List.getElem?_eq_some_iff.1 hget).1, pair, hget, hclause⟩

/-- A pair that the store can represent has its ends among the symbols. -/
theorem relevant_of_pairClause {added : List Nat} {kind : IndexedStateRelationKind} {frame : Nat}
    {clause : Clause Nat} :
    (∃ index ∈ (build pairs).relevantPairIndices added, ∃ pair, pairs[index]? = some pair ∧
        PairClause v kind frame pair clause)
      ↔ ∃ pair ∈ pairs, (pair.1 ∈ added ∨ pair.2 ∈ added) ∧ PairClause v kind frame pair clause := by
  constructor
  · rintro ⟨index, hindex, pair, hget, hclause⟩
    obtain ⟨s, hs, pair', hget', hend⟩ := mem_relevantPairIndices.1 hindex
    rw [hget] at hget'
    cases hget'
    refine ⟨pair, List.mem_of_getElem? hget, ?_, hclause⟩
    rcases hend with rfl | rfl
    · exact Or.inl hs
    · exact Or.inr hs
  · rintro ⟨pair, hpair, hend, hclause⟩
    obtain ⟨index, hget⟩ := List.mem_iff_getElem?.1 hpair
    refine ⟨index, mem_relevantPairIndices.2 ?_, pair, hget, hclause⟩
    rcases hend with hs | hs
    · exact ⟨_, hs, pair, hget, Or.inl rfl⟩
    · exact ⟨_, hs, pair, hget, Or.inr rfl⟩

theorem addClausesSparse_adds (pairs : List (Nat × Nat)) (h : v.Knows symbols frames)
    (kind : IndexedStateRelationKind) :
    Adds ((build pairs).addClausesSparse v symbols kind frames) fun clause =>
      ∃ frame < frames, ∃ pair ∈ pairs, PairClause v kind frame pair clause := by
  have hadds := Adds.foldlM (List.range frames) fun frame hf =>
    emitPairs_adds pairs h (List.mem_range.1 hf) kind
      ((build pairs).relevantPairIndices symbols)
  intro solver
  obtain ⟨solver', hok, hmem⟩ := hadds solver
  refine ⟨solver', hok, fun clause => (hmem clause).trans (or_congr_right ?_)⟩
  simp only [List.mem_range]
  refine exists_congr fun frame => and_congr_right fun _ => ?_
  rw [relevant_of_pairClause]
  refine exists_congr fun pair => and_congr_right fun _ => ?_
  exact ⟨And.right, fun hclause => ⟨Or.inl ((h.has _).1 hclause.1.1), hclause⟩⟩

theorem addClauses_adds (h : v.Knows symbols frames) (kind : IndexedStateRelationKind) :
    Adds ((build pairs).addClauses v symbols frames kind) fun clause =>
      ∃ frame < frames, ∃ pair ∈ pairs, PairClause v kind frame pair clause := by
  unfold addClauses
  split
  · exact addClausesDense_adds pairs h kind
  · exact addClausesSparse_adds pairs h kind

theorem addClausesForAddedSymbols_adds (h : v.Knows symbols frames) {frame : Nat}
    (hf : frame < frames) (kind : IndexedStateRelationKind) (added : List Nat) :
    Adds ((build pairs).addClausesForAddedSymbols v added frame kind) fun clause =>
      ∃ pair ∈ pairs, (pair.1 ∈ added ∨ pair.2 ∈ added) ∧
        PairClause v kind frame pair clause := by
  intro solver
  obtain ⟨solver', hok, hmem⟩ :=
    emitPairs_adds pairs h hf kind ((build pairs).relevantPairIndices added) solver
  exact ⟨solver', hok, fun clause => (hmem clause).trans (or_congr_right relevant_of_pairClause)⟩

end OrderedStateRelationIndex

/-! ## Symbol surfaces -/

/-- The pairs of the five indices. -/
def relationPairs (problem : KInductionProblem) :
    List (List (Nat × Nat) × IndexedStateRelationKind) :=
  [(problem.complementedStatePairs0, .complement), (problem.complementedStatePairs1, .complement),
    (problem.sameFrameStateEqualityPairs0, .equality),
    (problem.sameFrameStateEqualityPairs1, .equality),
    (problem.dualRailStatePairs.map fun rails => (rails.mayBeOne, rails.mayBeZero),
      .dualRailValidity)]

/-- The relation clauses of a surface, over symbols and frames. -/
def SurfaceClause (problem : KInductionProblem) (surface : List Nat) (frames : Nat)
    (clause : Clause (Nat × Nat)) : Prop :=
  ∃ part ∈ relationPairs problem, ∃ pair ∈ part.1, (pair.1 ∈ surface ∧ pair.2 ∈ surface) ∧
    ∃ frame < frames,
      clause ∈ relationClauses part.2 ⟨(pair.1, frame), true⟩ ⟨(pair.2, frame), true⟩

theorem parts_build (problem : KInductionProblem) :
    (ComplementPartnerIndex.build problem).parts
      = (relationPairs problem).map fun part => (.build part.1, part.2) := rfl

theorem mem_parts {problem : KInductionProblem}
    {part : OrderedStateRelationIndex × IndexedStateRelationKind} :
    part ∈ (ComplementPartnerIndex.build problem).parts ↔
      ∃ pairs ∈ relationPairs problem, (.build pairs.1, pairs.2) = part := by
  rw [parts_build, List.mem_map]

theorem atom_of_relationClauses {A : Type} {kind : IndexedStateRelationKind} {a b : A}
    {clause : Clause A} (hc : clause ∈ relationClauses kind ⟨a, true⟩ ⟨b, true⟩) {l : Lit A}
    (hl : l ∈ clause) : l.atom = a ∨ l.atom = b := by
  cases kind <;> simp only [relationClauses, litEquivalence, List.mem_cons,
    List.not_mem_nil, or_false] at hc
  · rcases hc with rfl | rfl <;> simp only [List.mem_cons, List.not_mem_nil, or_false] at hl <;>
      rcases hl with rfl | rfl <;> simp [Lit.neg]
  · rcases hc with rfl | rfl <;> simp only [List.mem_cons, List.not_mem_nil, or_false] at hl <;>
      rcases hl with rfl | rfl <;> simp [Lit.neg]
  · subst hc
    simp only [List.mem_cons, List.not_mem_nil, or_false] at hl
    rcases hl with rfl | rfl <;> simp

theorem SurfaceClause.atom_mem {problem : KInductionProblem} {surface : List Nat} {frames : Nat}
    {clause : Clause (Nat × Nat)} (h : SurfaceClause problem surface frames clause)
    {l : Lit (Nat × Nat)} (hl : l ∈ clause) : l.atom.1 ∈ surface := by
  obtain ⟨part, -, pair, -, ⟨hlhs, hrhs⟩, frame, -, hc⟩ := h
  rcases atom_of_relationClauses hc hl with heq | heq
  · rw [heq]
    exact hlhs
  · rw [heq]
    exact hrhs

theorem renameClause_congr {v v' : FrameVariableStore} {clause : Clause (Nat × Nat)}
    (h : ∀ l ∈ clause, v.lits l.atom.1 = v'.lits l.atom.1) :
    v.renameClause clause = v'.renameClause clause := by
  refine List.map_congr_left fun l hl => ?_
  have hlit : v.literal l.atom = v'.literal l.atom := by
    rw [FrameVariableStore.literal, FrameVariableStore.literal, h l hl]
  rw [hlit]

namespace ComplementPartnerIndex
variable {problem : KInductionProblem} {v : FrameVariableStore} {symbols : List Nat} {frames : Nat}

theorem addClauses_adds (problem : KInductionProblem) (h : v.Knows symbols frames) :
    Adds ((build problem).addClauses v symbols frames) fun clause =>
      ∃ c, SurfaceClause problem symbols frames c ∧ clause = v.renameClause c := by
  have hadds : Adds ((build problem).addClauses v symbols frames) fun clause =>
      ∃ part ∈ (build problem).parts, ∃ frame < frames, ∃ pair ∈ part.1.orderedPairs,
        PairClause v part.2 frame pair clause := by
    refine Adds.foldlM _ fun part hpart => ?_
    obtain ⟨pairs, -, rfl⟩ := mem_parts.1 hpart
    exact OrderedStateRelationIndex.addClauses_adds h _
  intro solver
  obtain ⟨solver', hok, hmem⟩ := hadds solver
  refine ⟨solver', hok, fun clause => (hmem clause).trans (or_congr_right ?_)⟩
  constructor
  · rintro ⟨part, hpart, frame, hf, pair, hpair, hboth, c, hc, rfl⟩
    obtain ⟨pairs, hpairs, rfl⟩ := mem_parts.1 hpart
    exact ⟨c, ⟨pairs, hpairs, pair, hpair, ⟨(h.has _).1 hboth.1, (h.has _).1 hboth.2⟩, frame, hf,
      hc⟩, rfl⟩
  · rintro ⟨c, ⟨pairs, hpairs, pair, hpair, ⟨hlhs, hrhs⟩, frame, hf, hc⟩, rfl⟩
    exact ⟨_, mem_parts.2 ⟨pairs, hpairs, rfl⟩, frame, hf, pair, hpair,
      ⟨(h.has _).2 hlhs, (h.has _).2 hrhs⟩, c, hc, rfl⟩

theorem addClausesForAddedSymbols_adds (problem : KInductionProblem)
    (h : v.Knows symbols frames) {frame : Nat} (hf : frame < frames) (added : List Nat) :
    Adds ((build problem).addClausesForAddedSymbols v added frame) fun clause =>
      ∃ part ∈ relationPairs problem, ∃ pair ∈ part.1, (pair.1 ∈ added ∨ pair.2 ∈ added) ∧
        PairClause v part.2 frame pair clause := by
  have hadds : Adds ((build problem).addClausesForAddedSymbols v added frame) fun clause =>
      ∃ part ∈ (build problem).parts, ∃ pair ∈ part.1.orderedPairs,
        (pair.1 ∈ added ∨ pair.2 ∈ added) ∧ PairClause v part.2 frame pair clause := by
    refine Adds.foldlM _ fun part hpart => ?_
    obtain ⟨pairs, -, rfl⟩ := mem_parts.1 hpart
    exact OrderedStateRelationIndex.addClausesForAddedSymbols_adds h hf _ added
  intro solver
  obtain ⟨solver', hok, hmem⟩ := hadds solver
  refine ⟨solver', hok, fun clause => (hmem clause).trans (or_congr_right ?_)⟩
  constructor
  · rintro ⟨part, hpart, pair, hpair, hclause⟩
    obtain ⟨pairs, hpairs, rfl⟩ := mem_parts.1 hpart
    exact ⟨pairs, hpairs, pair, hpair, hclause⟩
  · rintro ⟨pairs, hpairs, pair, hpair, hclause⟩
    exact ⟨_, mem_parts.2 ⟨pairs, hpairs, rfl⟩, pair, hpair, hclause⟩

end ComplementPartnerIndex

theorem mem_setDifference {as bs : List Nat} (has : as.Pairwise (· < ·))
    (hbs : bs.Pairwise (· < ·)) {s : Nat} : s ∈ setDifference as bs ↔ s ∈ as ∧ s ∉ bs := by
  induction as, bs using setDifference.induct with
  | case1 bs => simp [setDifference]
  | case2 as hne =>
    cases as with
    | nil => exact absurd rfl hne
    | cons a as => simp [setDifference]
  | case3 a as b bs hab ih =>
    have hout : a ∉ b :: bs := by
      intro hm
      rcases List.mem_cons.1 hm with rfl | hm
      · exact Nat.lt_irrefl _ hab
      · exact Nat.lt_asymm hab ((List.pairwise_cons.1 hbs).1 a hm)
    rw [setDifference, if_pos hab, List.mem_cons, ih has.of_cons hbs]
    constructor
    · rintro (rfl | ⟨hs, hn⟩)
      · exact ⟨List.mem_cons_self, hout⟩
      · exact ⟨List.mem_cons_of_mem _ hs, hn⟩
    · rintro ⟨hs, hn⟩
      exact (List.mem_cons.1 hs).imp id fun hs => ⟨hs, hn⟩
  | case4 a as b bs hab hba ih =>
    have hout : b ∉ a :: as := by
      intro hm
      rcases List.mem_cons.1 hm with rfl | hm
      · exact Nat.lt_irrefl _ hba
      · exact Nat.lt_asymm hba ((List.pairwise_cons.1 has).1 b hm)
    rw [setDifference, if_neg hab, if_pos hba, ih has hbs.of_cons]
    refine and_congr_right fun hs => ?_
    rw [List.mem_cons, not_or]
    exact ⟨fun hn => ⟨fun heq => hout (heq ▸ hs), hn⟩, And.right⟩
  | case5 a as b bs hab hba ih =>
    obtain rfl : a = b := by omega
    rw [setDifference, if_neg hab, if_neg hba, ih has.of_cons hbs.of_cons, List.mem_cons,
      List.mem_cons, not_or]
    constructor
    · rintro ⟨hs, hn⟩
      refine ⟨Or.inr hs, ?_, hn⟩
      rintro rfl
      exact Nat.lt_irrefl _ ((List.pairwise_cons.1 has).1 s hs)
    · rintro ⟨rfl | hs, hne, hn⟩
      · exact absurd rfl hne
      · exact ⟨hs, hn⟩

namespace SurfaceSolver

/-- A solver has the relation clauses of its surface, next to others. -/
structure SurfaceInv (problem : KInductionProblem) (p : SurfaceSolver) (others : Query Nat) :
    Prop where
  knows : p.frameVariables.Knows p.solverSymbols 1
  frames : p.frameVariables.numFrames = 1
  sorted : p.solverSymbols.Pairwise (· < ·)
  clauses : ∀ clause, clause ∈ p.solver.clauses ↔ clause ∈ others ∨
    ∃ c, SurfaceClause problem p.solverSymbols 1 c ∧ clause = p.frameVariables.renameClause c

variable {problem : KInductionProblem} {p : SurfaceSolver} {others : Query Nat}

theorem create_inv (problem : KInductionProblem) (solver : SolverState) {surface : List Nat}
    (hsorted : surface.Pairwise (· < ·)) :
    ∃ p, create (.build problem) solver surface = .ok p ∧ p.solverSymbols = surface ∧
      SurfaceInv problem p solver.clauses := by
  obtain ⟨hknows, hclauses, hframes⟩ := FrameVariableStore.create_knows solver surface 1
  obtain ⟨solver', hok, hmem⟩ := ComplementPartnerIndex.addClauses_adds problem hknows
    (FrameVariableStore.create solver surface 1).2
  refine ⟨⟨solver', (FrameVariableStore.create solver surface 1).1, surface⟩, ?_, rfl, hknows,
    hframes, hsorted, fun clause => ?_⟩
  · unfold create
    dsimp only
    rw [hok]
    rfl
  · rw [hmem, hclauses]

/-- A wider surface emits the pairs that it makes representable. -/
theorem SurfaceInv.extend (h : SurfaceInv problem p others) {surface : List Nat}
    (hsorted : surface.Pairwise (· < ·)) (hwider : ∀ s ∈ p.solverSymbols, s ∈ surface) :
    ∃ p', p.extendSymbolSurface (.build problem) surface = .ok p' ∧ p'.solverSymbols = surface ∧
      SurfaceInv problem p' others := by
  have hadded : ∀ s, s ∈ setDifference surface p.solverSymbols ↔
      s ∈ surface ∧ s ∉ p.solverSymbols := fun s => mem_setDifference hsorted h.sorted
  unfold extendSymbolSurface
  by_cases hempty : (setDifference surface p.solverSymbols).isEmpty = true
  · have hnone : setDifference surface p.solverSymbols = [] := List.isEmpty_iff.1 hempty
    have hsame : p.solverSymbols = surface := by
      refine (List.Pairwise.eq_of_mem_iff h.sorted hsorted) fun s => ⟨hwider s, fun hs => ?_⟩
      by_contra hn
      have hin := (hadded s).2 ⟨hs, hn⟩
      rw [hnone] at hin
      cases hin
    refine ⟨p, ?_, hsame, h⟩
    simp only [hempty, if_true]
  · have hknows : p.frameVariables.Knows p.solverSymbols p.frameVariables.numFrames :=
      h.frames.symm ▸ h.knows
    obtain ⟨hknows', hlits, hclauses, hframes⟩ :=
      FrameVariableStore.addSymbols_spec hknows p.solver (setDifference surface p.solverSymbols)
    rw [h.frames] at hknows' hframes
    have hiff : ∀ s, s ∈ setDifference surface p.solverSymbols ++ p.solverSymbols ↔ s ∈ surface := by
      intro s
      rw [List.mem_append, hadded]
      constructor
      · rintro (hs | hs)
        · exact hs.1
        · exact hwider s hs
      · intro hs
        by_cases hin : s ∈ p.solverSymbols
        · exact Or.inr hin
        · exact Or.inl ⟨hs, hin⟩
    have hknows'' : (p.frameVariables.addSymbols p.solver
        (setDifference surface p.solverSymbols)).1.Knows surface 1 :=
      ⟨fun s => (hknows'.has s).trans (hiff s), fun s hs => hknows'.lits s ((hiff s).2 hs)⟩
    obtain ⟨solver', hok, hmem⟩ := ComplementPartnerIndex.addClausesForAddedSymbols_adds
      problem hknows'' Nat.one_pos (setDifference surface p.solverSymbols)
      (p.frameVariables.addSymbols p.solver (setDifference surface p.solverSymbols)).2
    refine ⟨⟨solver', _, surface⟩, ?_, rfl, hknows'', hframes, hsorted, fun clause => ?_⟩
    · dsimp only
      rw [if_neg hempty, hok]
      rfl
    · rw [hmem, hclauses, h.clauses, or_assoc]
      refine or_congr_right ?_
      constructor
      · rintro (⟨c, hc, rfl⟩ | ⟨part, hpart, pair, hpair, -, hboth, c, hc, rfl⟩)
        · refine ⟨c, ?_, renameClause_congr fun l hl => (hlits _ (hc.atom_mem hl)).symm⟩
          obtain ⟨part, hpart, pair, hpair, hends, frame, hf, hc⟩ := hc
          exact ⟨part, hpart, pair, hpair, ⟨hwider _ hends.1, hwider _ hends.2⟩, frame, hf, hc⟩
        · exact ⟨c, ⟨part, hpart, pair, hpair,
            ⟨(hknows''.has _).1 hboth.1, (hknows''.has _).1 hboth.2⟩, 0, Nat.one_pos, hc⟩, rfl⟩
      · rintro ⟨c, ⟨part, hpart, pair, hpair, hends, frame, hf, hc⟩, rfl⟩
        -- the pair is new exactly when one of its ends is
        by_cases hold : pair.1 ∈ p.solverSymbols ∧ pair.2 ∈ p.solverSymbols
        · have hclause : SurfaceClause problem p.solverSymbols 1 c :=
            ⟨part, hpart, pair, hpair, hold, frame, hf, hc⟩
          exact Or.inl ⟨c, hclause, renameClause_congr fun l hl => hlits _ (hclause.atom_mem hl)⟩
        · obtain rfl : frame = 0 := Nat.lt_one_iff.1 hf
          refine Or.inr ⟨part, hpart, pair, hpair, ?_,
            ⟨(hknows''.has _).2 hends.1, (hknows''.has _).2 hends.2⟩, c, hc, rfl⟩
          rw [not_and_or] at hold
          exact hold.imp (fun hn => (hadded _).2 ⟨hends.1, hn⟩) fun hn => (hadded _).2 ⟨hends.2, hn⟩

theorem SurfaceInv.encode (h : SurfaceInv problem p others) (vars : Nat) (clauses : Query Nat) :
    SurfaceInv problem { p with
      solver := { vars := p.solver.vars + vars, clauses := p.solver.clauses ++ clauses } }
      (others ++ clauses) := by
  refine ⟨h.knows, h.frames, h.sorted, fun clause => ?_⟩
  dsimp only
  rw [List.mem_append, h.clauses, List.mem_append, or_assoc, or_assoc, or_comm (a := clause ∈ clauses)]

/-! ## Solvers over their life -/

/-- Every surface is sorted and has the symbols of the one before. -/
def Grows : List Nat → List SurfaceStep → Prop
  | _, [] => True
  | surface, .extend wider :: steps =>
    wider.Pairwise (· < ·) ∧ (∀ s ∈ surface, s ∈ wider) ∧ Grows wider steps
  | surface, .encode _ _ :: steps => Grows surface steps

def lastSurface : List Nat → List SurfaceStep → List Nat
  | surface, [] => surface
  | _, .extend wider :: steps => lastSurface wider steps
  | surface, .encode _ _ :: steps => lastSurface surface steps

/-- The clauses that do not come from the relations. -/
def ownClauses : List SurfaceStep → Query Nat
  | [] => []
  | .extend _ :: steps => ownClauses steps
  | .encode _ clauses :: steps => clauses ++ ownClauses steps

theorem SurfaceInv.run (h : SurfaceInv problem p others) {steps : List SurfaceStep}
    (hgrows : Grows p.solverSymbols steps) :
    ∃ p', steps.foldlM (step (.build problem)) p = .ok p' ∧
      p'.solverSymbols = lastSurface p.solverSymbols steps ∧
      SurfaceInv problem p' (others ++ ownClauses steps) := by
  induction steps generalizing p others with
  | nil =>
    refine ⟨p, rfl, rfl, ?_⟩
    rw [ownClauses, List.append_nil]
    exact h
  | cons first steps ih =>
    cases first with
    | extend wider =>
      obtain ⟨hsorted, hwider, hrest⟩ := hgrows
      obtain ⟨q, hq, hsurface, hinv⟩ := h.extend hsorted hwider
      subst hsurface
      obtain ⟨p', hp', hlast, hinv'⟩ := ih hinv hrest
      refine ⟨p', ?_, hlast, hinv'⟩
      rw [List.foldlM_cons, step, hq]
      exact hp'
    | encode vars clauses =>
      obtain ⟨p', hp', hlast, hinv'⟩ := ih (h.encode vars clauses) hgrows
      refine ⟨p', hp', hlast, ?_⟩
      rw [ownClauses, ← List.append_assoc]
      exact hinv'

end SurfaceSolver

/-- The index closes a set under the pairs, both paths of `addClauses` emit the same clauses,
and a solver whose surface grew has the same relation clauses, up to the numbers of its
variables, as a solver built on its last surface. -/
theorem relationIndex_exact (problem : KInductionProblem) (pairs : List (Nat × Nat)) :
    (∀ symbols t, t ∈ (OrderedStateRelationIndex.build pairs).addPartnerClosure symbols ↔
      ∃ s ∈ symbols, Connected pairs s t) ∧
    (∀ solver symbols numFrames kind, ∃ dense sparse,
      (OrderedStateRelationIndex.build pairs).addClausesDense
          (FrameVariableStore.create solver symbols numFrames).1 kind numFrames
          (FrameVariableStore.create solver symbols numFrames).2 = .ok dense ∧
        (OrderedStateRelationIndex.build pairs).addClausesSparse
          (FrameVariableStore.create solver symbols numFrames).1 symbols kind numFrames
          (FrameVariableStore.create solver symbols numFrames).2 = .ok sparse ∧
        ∀ clause, clause ∈ dense.clauses ↔ clause ∈ sparse.clauses) ∧
    ∀ (solver solver' : SolverState) (surface : List Nat) (steps : List SurfaceStep),
      surface.Pairwise (· < ·) → SurfaceSolver.Grows surface steps →
      ∃ first grown direct,
        SurfaceSolver.create (.build problem) solver surface = .ok first ∧
        steps.foldlM (SurfaceSolver.step (.build problem)) first = .ok grown ∧
        SurfaceSolver.create (.build problem) solver'
          (SurfaceSolver.lastSurface surface steps) = .ok direct ∧
        (∀ clause, clause ∈ grown.solver.clauses ↔
          clause ∈ solver.clauses ++ SurfaceSolver.ownClauses steps ∨
            ∃ c, SurfaceClause problem (SurfaceSolver.lastSurface surface steps) 1 c ∧
              clause = grown.frameVariables.renameClause c) ∧
        ∀ clause, clause ∈ direct.solver.clauses ↔ clause ∈ solver'.clauses ∨
          ∃ c, SurfaceClause problem (SurfaceSolver.lastSurface surface steps) 1 c ∧
            clause = direct.frameVariables.renameClause c := by
  refine ⟨OrderedStateRelationIndex.mem_addPartnerClosure, ?_, ?_⟩
  · intro solver symbols numFrames kind
    obtain ⟨hknows, -⟩ := FrameVariableStore.create_knows solver symbols numFrames
    obtain ⟨dense, hdense, hmem⟩ := OrderedStateRelationIndex.addClausesDense_adds pairs
      hknows kind (FrameVariableStore.create solver symbols numFrames).2
    obtain ⟨sparse, hsparse, hmem'⟩ := OrderedStateRelationIndex.addClausesSparse_adds
      pairs hknows kind (FrameVariableStore.create solver symbols numFrames).2
    exact ⟨dense, sparse, hdense, hsparse, fun clause => (hmem clause).trans (hmem' clause).symm⟩
  · intro solver solver' surface steps hsorted hgrows
    obtain ⟨first, hfirst, hsurface, hinv⟩ := SurfaceSolver.create_inv problem solver hsorted
    subst hsurface
    obtain ⟨grown, hgrown, hlast, hinv'⟩ := hinv.run hgrows
    obtain ⟨direct, hdirect, hsurface', hdinv⟩ :=
      SurfaceSolver.create_inv problem solver' (hlast ▸ hinv'.sorted)
    refine ⟨first, grown, direct, hfirst, hgrown, hdirect, ?_, ?_⟩
    · rw [← hlast]
      exact hinv'.clauses
    · rw [← hsurface']
      exact hdinv.clauses

/-- Two complementary states. -/
def complementProblem : KInductionProblem where
  state0Symbols := [6, 7]
  complementedStatePairs0 := [(6, 7)]
  property := .var 1
  bad := .var 0

/-- The second state of a complement arrives with an extension. -/
theorem relationIndex_extends :
    ∃ first grown direct,
      SurfaceSolver.create (.build complementProblem) ⟨0, []⟩ [6] = .ok first ∧
      [SurfaceStep.extend [6, 7]].foldlM (SurfaceSolver.step (.build complementProblem)) first
        = .ok grown ∧
      SurfaceSolver.create (.build complementProblem) ⟨0, []⟩ [6, 7] = .ok direct ∧
      (∀ clause, clause ∈ grown.solver.clauses ↔ clause ∈ ([] : Query Nat) ++ [] ∨
        ∃ c, SurfaceClause complementProblem [6, 7] 1 c ∧
          clause = grown.frameVariables.renameClause c) ∧
      ∀ clause, clause ∈ direct.solver.clauses ↔ clause ∈ ([] : Query Nat) ∨
        ∃ c, SurfaceClause complementProblem [6, 7] 1 c ∧
          clause = direct.frameVariables.renameClause c :=
  (relationIndex_exact complementProblem [(6, 7)]).2.2 ⟨0, []⟩ ⟨0, []⟩ [6] [.extend [6, 7]]
    (by decide) ⟨by decide, by decide, trivial⟩

end KeplerFormal
