import Mathlib.Data.Finset.Union
import KeplerFormal.L1Formula.BoolExpr

/-!
# The SEC problem (`src/sec/kinduction/KInductionProblem.h`)

`KInductionProblem` is the transition system of the two designs with its startup
facts, the relations that hold between state symbols and the observed outputs.
`transitionAt`, `contains` and `transitionSupport` are the three answers of
`TransitionExprResolver` that the proof engines use.

The problem carries four facts about its own symbols: ids 0 and 1 stay reserved
for the constants, only state symbols have a transition, a complemented symbol is
a state symbol, and a reset control is not.
-/
namespace KeplerFormal

structure DualRailSymbolPair where
  mayBeOne : Nat
  mayBeZero : Nat
  deriving DecidableEq, Repr

/-- The next-state expression of a lazy transition after remapping into the
shared symbol space, and the support the resolver reports for it: for a
dual-rail source both rails of every state the source reads.
mirrors src/sec/proof/TransitionExprResolver.cpp:326-372, 443-486 -/
structure LazyTransition where
  expr : BoolExpr
  support : Finset Nat
  covers : ∀ s ∈ expr.getSupportVars, 2 ≤ s → s ∈ support

/-- mirrors src/sec/kinduction/KInductionProblem.h:66-99 (`sourceByStateSymbol`,
already remapped) -/
abbrev LazyTransitionStore := List (Nat × LazyTransition)

/-- mirrors src/sec/kinduction/KInductionProblem.h:152-219. Pointers that every
engine dereferences (`property`, `bad`) are plain fields, the others are `Option`. -/
structure KInductionProblem where
  originalObservedOutputCount : Nat := 0
  resetBootstrapCycles : Nat := 0
  resetBootstrapInputs : List (Nat × Bool) := []
  initialStateAssignments : List (Nat × Bool) := []
  bootstrapStateAssignments : List (Nat × Bool) := []
  state0Symbols : List Nat := []
  state1Symbols : List Nat := []
  auxiliaryStateSymbols : List Nat := []
  allSymbols : List Nat := []
  complementedStatePairs0 : List (Nat × Nat) := []
  complementedStatePairs1 : List (Nat × Nat) := []
  sameFrameStateEqualityPairs0 : List (Nat × Nat) := []
  sameFrameStateEqualityPairs1 : List (Nat × Nat) := []
  dualRailStatePairs : List DualRailSymbolPair := []
  observedOutputExprs0 : List BoolExpr := []
  observedOutputExprs1 : List BoolExpr := []
  dualRailOutputSkipReasons : List String := []
  transitions0 : List (Nat × BoolExpr) := []
  transitions1 : List (Nat × BoolExpr) := []
  auxiliaryTransitions : List (Nat × BoolExpr) := []
  lazyTransitions : Option LazyTransitionStore := none
  initialCondition : Option BoolExpr := none
  initializedStateCount : Nat := 0
  totalStateCount : Nat := 0
  property : BoolExpr
  bad : BoolExpr
  inductionProperty : Option BoolExpr := none
  inductionBad : Option BoolExpr := none
  usesDualRailStateEncoding : Bool := false
  deferBaseCaseChecks : Bool := false
  /-- ids 0 and 1 are the constants of `BoolExpr` -/
  reserved : ∀ s ∈ state0Symbols ++ state1Symbols ++ auxiliaryStateSymbols, 2 ≤ s := by decide
  /-- next-state expressions belong to state symbols -/
  transitions_state :
    ∀ s ∈ (transitions0 ++ transitions1 ++ auxiliaryTransitions).map Prod.fst ++
        (lazyTransitions.getD []).map Prod.fst,
      s ∈ state0Symbols ++ state1Symbols ++ auxiliaryStateSymbols := by decide
  complements_state :
    ∀ s ∈ (complementedStatePairs0 ++ complementedStatePairs1).map Prod.snd,
      s ∈ state0Symbols ++ state1Symbols ++ auxiliaryStateSymbols := by decide
  resets_input :
    ∀ s ∈ resetBootstrapInputs.map Prod.fst,
      s ∉ state0Symbols ++ state1Symbols ++ auxiliaryStateSymbols := by decide

/-- A problem without states; there is nothing its symbols have to satisfy. -/
def KInductionProblem.stateless (property bad : BoolExpr) : KInductionProblem where
  property := property
  bad := bad

theorem mem_of_lookup {α β : Type} [BEq α] [LawfulBEq α] {l : List (α × β)} {s : α} {b : β}
    (h : l.lookup s = some b) : (s, b) ∈ l := by
  obtain ⟨l₁, l₂, rfl, _⟩ := List.lookup_eq_some_iff.mp h
  simp

theorem mem_map_fst_of_lookup {β : Type} {l : List (Nat × β)} {s : Nat} {b : β}
    (h : l.lookup s = some b) : s ∈ l.map Prod.fst :=
  List.mem_map_of_mem (mem_of_lookup h)

namespace KInductionProblem
variable (p : KInductionProblem)

/-! ## The problem's own predicates -/

/-- mirrors src/sec/kinduction/KInductionProblem.h:221-224 -/
def hasSequentialState : Bool :=
  !p.state0Symbols.isEmpty || !p.state1Symbols.isEmpty || !p.auxiliaryStateSymbols.isEmpty

def hasExplicitInitialState : Bool := p.initializedStateCount != 0

def hasCompleteInitialState : Bool :=
  p.initializedStateCount != 0 && p.initializedStateCount == p.totalStateCount

def hasResetBootstrap : Bool := !p.resetBootstrapInputs.isEmpty

/-- mirrors src/sec/kinduction/KInductionProblem.h:238-242 -/
def effectiveTotalStateCount : Nat :=
  if p.totalStateCount ≠ 0 then p.totalStateCount
  else p.state0Symbols.length + p.state1Symbols.length + p.auxiliaryStateSymbols.length

def hasCompleteBootstrapStateAssignments : Bool :=
  p.effectiveTotalStateCount != 0 &&
    decide (p.effectiveTotalStateCount ≤ p.bootstrapStateAssignments.length)

/-- mirrors src/sec/kinduction/KInductionProblem.h:249-257 (`property` is not null) -/
def usesResetBootstrapObservationFrontier : Bool :=
  !p.usesDualRailStateEncoding && p.hasSequentialState && p.hasResetBootstrap &&
    p.resetBootstrapCycles != 0 && !p.hasCompleteBootstrapStateAssignments

def combinedStateSymbols : List Nat :=
  p.state0Symbols ++ p.state1Symbols ++ p.auxiliaryStateSymbols

def complementedStatePairs : List (Nat × Nat) :=
  p.complementedStatePairs0 ++ p.complementedStatePairs1

def sameFrameStateEqualityPairs : List (Nat × Nat) :=
  p.sameFrameStateEqualityPairs0 ++ p.sameFrameStateEqualityPairs1

def railPairs : List (Nat × Nat) := p.dualRailStatePairs.map fun r => (r.mayBeOne, r.mayBeZero)

/-! ## Transitions -/

/-- The first equation of a symbol wins, as in `emplace`.
mirrors src/sec/proof/TransitionExprResolver.cpp:307-322 -/
def eagerTransitions : List (Nat × BoolExpr) :=
  p.transitions0 ++ p.transitions1 ++ p.auxiliaryTransitions

def lazyTransitionAt (s : Nat) : Option LazyTransition :=
  p.lazyTransitions.bind fun store => store.lookup s

/-- mirrors src/sec/proof/TransitionExprResolver.cpp:333-386 -/
def transitionAt (s : Nat) : Option BoolExpr :=
  match p.eagerTransitions.lookup s with
  | some e => some e
  | none => (p.lazyTransitionAt s).map (·.expr)

/-- mirrors src/sec/proof/TransitionExprResolver.cpp:324-331 -/
def contains (s : Nat) : Bool := (p.transitionAt s).isSome

/-- The symbols of one target that `collectSupportForTargets` reports.
mirrors src/sec/proof/TransitionExprResolver.cpp:502-616 -/
def transitionSupport (s : Nat) : Finset Nat :=
  match p.eagerTransitions.lookup s with
  | some e => e.getSupportVars.filter (2 ≤ ·)
  | none => match p.lazyTransitionAt s with
    | some t => t.support.filter (2 ≤ ·)
    | none => ∅

/-- The first pair of a complemented symbol wins.
mirrors src/sec/kinduction/BaseCaseSolver.cpp:372-387 -/
def primaryByComplement (s : Nat) : Option Nat :=
  (p.complementedStatePairs.find? (·.2 == s)).map (·.1)

theorem transitionSupport_covers {p : KInductionProblem} {s x : Nat} {e : BoolExpr}
    (he : p.transitionAt s = some e) (hx : x ∈ e.getSupportVars) (h2 : 2 ≤ x) :
    x ∈ p.transitionSupport s := by
  unfold transitionAt at he
  unfold transitionSupport
  cases heager : p.eagerTransitions.lookup s with
  | some e' =>
    rw [heager] at he
    simp only [Option.some.injEq] at he
    subst he
    exact Finset.mem_filter.mpr ⟨hx, h2⟩
  | none =>
    rw [heager] at he
    cases hlazy : p.lazyTransitionAt s with
    | none => simp [hlazy] at he
    | some t =>
      simp only [hlazy, Option.map_some, Option.some.injEq] at he
      subst he
      exact Finset.mem_filter.mpr ⟨t.covers x hx h2, h2⟩

/-- Only state symbols have a transition. -/
theorem mem_combinedStateSymbols_of_contains {p : KInductionProblem} {s : Nat}
    (h : p.contains s = true) : s ∈ p.combinedStateSymbols := by
  refine p.transitions_state s ?_
  rw [List.mem_append]
  unfold contains transitionAt at h
  cases heager : p.eagerTransitions.lookup s with
  | some e => exact .inl (mem_map_fst_of_lookup heager)
  | none =>
    simp only [heager, Option.isSome_map] at h
    obtain ⟨t, ht⟩ := Option.isSome_iff_exists.mp h
    unfold lazyTransitionAt at ht
    obtain ⟨store, hstore, hlookup⟩ := Option.bind_eq_some_iff.mp ht
    refine .inr ?_
    rw [hstore]
    exact mem_map_fst_of_lookup hlookup

theorem two_le_of_contains {p : KInductionProblem} {s : Nat} (h : p.contains s = true) : 2 ≤ s :=
  p.reserved s (mem_combinedStateSymbols_of_contains h)

theorem contains_iff {p : KInductionProblem} {s : Nat} :
    p.contains s = true ↔ ∃ e, p.transitionAt s = some e := Option.isSome_iff_exists

end KInductionProblem
end KeplerFormal
