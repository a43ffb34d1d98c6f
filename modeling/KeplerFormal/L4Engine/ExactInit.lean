import KeplerFormal.Core.Naming
import KeplerFormal.L1Formula.Substitution
import KeplerFormal.L3Query.FrontierPaths

/-!
# The exact start formula of PDR (`src/sec/pdr/PDREngine.cpp`)

PDR starts from a formula `F[0]` over the symbols of one frame. Behind a reset prefix
it is the conjunction of an unrolling of the prefix: the frontier frame keeps the
model's symbols, every earlier frame gets fresh history symbols.

* `mappedSymbol`, `remapAtFrame`, `initTerms`, `buildExactPdrInit`: the builder, with its
  reserved symbols, next fresh symbol and frame maps passed along.
* `view`: the trace that values of model and history symbols stand for.
* `TermBuilder.Says`: what the terms of one builder step assert about that trace;
  `says_initTerms`: what all of them assert.
* `exists_view`: every trace is the view of some values.
-/
namespace KeplerFormal

open Core

/-! ## The builder -/

/-- mirrors src/sec/common/BoolExprUtils.cpp:61-166 -/
def BoolExpr.remapBoolExprVariables (varMap : Nat → Option Nat) : BoolExpr → Except String BoolExpr
  | .var id =>
    if id < 2 then .ok (.var id)
    else match varMap id with
      | none => .error s!"Missing BoolExpr remap for variable {id}"
      | some mapped => .ok (.var mapped)
  | .not a => do
    let left ← a.remapBoolExprVariables varMap
    return if left = a then .not a else BoolExpr.Not left
  | .and a b => do
    let left ← a.remapBoolExprVariables varMap
    let right ← b.remapBoolExprVariables varMap
    return BoolExpr.rebuilt .and BoolExpr.And a b left right
  | .or a b => do
    let left ← a.remapBoolExprVariables varMap
    let right ← b.remapBoolExprVariables varMap
    return BoolExpr.rebuilt .or BoolExpr.Or a b left right
  | .xor a b => do
    let left ← a.remapBoolExprVariables varMap
    let right ← b.remapBoolExprVariables varMap
    return BoolExpr.rebuilt .xor BoolExpr.Xor a b left right

/-- One round of `makeBalancedConjunction`. -/
def conjoinPairs : List BoolExpr → List BoolExpr
  | a :: b :: terms => BoolExpr.And a b :: conjoinPairs terms
  | terms => terms

def conjoinRounds : Nat → List BoolExpr → BoolExpr
  | _, [] => BoolExpr.createTrue
  | _, [term] => term
  | 0, term :: _ => term
  | rounds + 1, terms => conjoinRounds rounds (conjoinPairs terms)

/-- Each round halves the terms, so as many rounds as terms are enough.
mirrors src/sec/pdr/PDREngine.cpp:7546-7560 -/
def makeBalancedConjunction (terms : List BoolExpr) : BoolExpr := conjoinRounds terms.length terms

def assignmentTerm (symbol : Nat) (value : Bool) : BoolExpr :=
  if value then .var symbol else BoolExpr.Not (.var symbol)

/-- mirrors src/sec/pdr/PDREngine.cpp:7534-7544 -/
def appendAssignmentFormula (formula : BoolExpr) (assignments : List (Nat × Bool)) : BoolExpr :=
  assignments.foldl (fun formula a => BoolExpr.And formula (assignmentTerm a.1 a.2)) formula

/-- `reservedSymbols_`, `nextFreshSymbol_` and `symbolAtFrame_` of
`ExactPdrBootstrapInitBuilder`; a key is a frame and a symbol. -/
abbrev InitBuilder := Naming (Nat × Nat)

/-- mirrors src/sec/pdr/PDREngine.cpp:7668-7678 -/
def mappedSymbol (frame symbol : Nat) (b : InitBuilder) : Nat × InitBuilder := b.name (frame, symbol)

/-- mirrors src/sec/pdr/PDREngine.cpp:7680-7690 -/
def remapAtFrame (formula : BoolExpr) (frame : Nat) (support : Finset Nat) (b : InitBuilder) :
    Except String (BoolExpr × InitBuilder) :=
  let b := (sortedSymbols support).foldl
    (fun b symbol => if 2 ≤ symbol then (mappedSymbol frame symbol b).2 else b) b
  (formula.remapBoolExprVariables fun symbol => b.nameOf (frame, symbol)).map (·, b)

/-- A member function that appends to `terms`. -/
abbrev TermBuilder := InitBuilder → Except String (List BoolExpr × InitBuilder)

def appendTerms : List TermBuilder → TermBuilder
  | [], b => .ok ([], b)
  | step :: steps, b => do
    let (terms, b) ← step b
    let (rest, b) ← appendTerms steps b
    return (terms ++ rest, b)

def assignmentBuilder (frame symbol : Nat) (value : Bool) : TermBuilder := fun b =>
  let (mapped, b) := mappedSymbol frame symbol b
  .ok ([assignmentTerm mapped value], b)

/-- One term over two symbols of a frame. -/
def relationBuilder (relation : BoolExpr → BoolExpr → BoolExpr) (frame first second : Nat) :
    TermBuilder := fun b =>
  let (mappedFirst, b) := mappedSymbol frame first b
  let (mappedSecond, b) := mappedSymbol frame second b
  .ok ([relation (.var mappedFirst) (.var mappedSecond)], b)

/-- mirrors src/sec/pdr/PDREngine.cpp:7712-7721 -/
def addComplementRelations (frame : Nat) (pairs : List (Nat × Nat)) : TermBuilder :=
  appendTerms (pairs.map fun pr =>
    relationBuilder (fun complement primary =>
      BoolExpr.makeEqualityExpr complement (BoolExpr.Not primary)) frame pr.2 pr.1)

/-- mirrors src/sec/pdr/PDREngine.cpp:7723-7732 -/
def addEqualityRelations (frame : Nat) (pairs : List (Nat × Nat)) : TermBuilder :=
  appendTerms (pairs.map fun pr => relationBuilder BoolExpr.makeEqualityExpr frame pr.1 pr.2)

/-- mirrors src/sec/pdr/PDREngine.cpp:7734-7743 -/
def addDualRailValidity (frame : Nat) (pairs : List DualRailSymbolPair) : TermBuilder :=
  appendTerms (pairs.map fun rails => relationBuilder BoolExpr.Or frame rails.mayBeOne rails.mayBeZero)

namespace KInductionProblem
variable (p : KInductionProblem)

/-- `stateSymbols_`: sorted, without repetition. -/
def sortedStateSymbols : List Nat := sortedSymbols p.combinedStateSymbols.toFinset

/-- `transitions_` of `collectReservedSymbolsAndTransitions`. -/
def stateTransitions : List (Nat × BoolExpr) :=
  p.sortedStateSymbols.filterMap fun s => (p.transitionAt s).map (s, ·)

/-- mirrors src/sec/pdr/PDREngine.cpp:7624-7646 -/
def reservedSymbols : Finset Nat :=
  p.allSymbols.toFinset ∪ p.combinedStateSymbols.toFinset ∪
    (p.resetBootstrapInputs.map Prod.fst).toFinset ∪
    (p.initialStateAssignments.map Prod.fst).toFinset ∪
    p.property.getSupportVars ∪ p.bad.getSupportVars ∪
    p.stateTransitions.foldr (fun t X => p.transitionSupport t.1 ∪ X) ∅

/-- The frontier frame keeps the symbol, an earlier frame gets a fresh one. -/
def initializeStateSymbol (frame : Nat) (b : InitBuilder) (symbol : Nat) : InitBuilder :=
  if frame = p.resetBootstrapCycles then b.bind (frame, symbol) symbol
  else b.allocate.2.bind (frame, symbol) b.allocate.1

/-- mirrors src/sec/pdr/PDREngine.cpp:7655-7666 -/
def initializeStateSymbols (b : InitBuilder) : InitBuilder :=
  (List.range (p.resetBootstrapCycles + 1)).foldl
    (fun b frame => p.sortedStateSymbols.foldl (p.initializeStateSymbol frame) b) b

/-- mirrors src/sec/pdr/PDREngine.cpp:7692-7697 -/
def addInitAssignments : TermBuilder :=
  appendTerms (p.initialStateAssignments.map fun a => assignmentBuilder 0 a.1 a.2)

/-- mirrors src/sec/pdr/PDREngine.cpp:7699-7710 -/
def addResetInputAssignments (frame : Nat) (asserted : Bool) : TermBuilder :=
  appendTerms (p.resetBootstrapInputs.map fun r =>
    let value := if asserted then r.2 else !r.2
    if frame = p.resetBootstrapCycles then fun b => .ok ([assignmentTerm r.1 value], b)
    else assignmentBuilder frame r.1 value)

/-- mirrors src/sec/pdr/PDREngine.cpp:7745-7752 -/
def addStateDomainRelations (frame : Nat) : TermBuilder :=
  appendTerms [addComplementRelations frame p.complementedStatePairs0,
    addComplementRelations frame p.complementedStatePairs1,
    addEqualityRelations frame p.sameFrameStateEqualityPairs0,
    addEqualityRelations frame p.sameFrameStateEqualityPairs1,
    addDualRailValidity frame p.dualRailStatePairs]

/-- mirrors src/sec/pdr/PDREngine.cpp:7754-7762 -/
def addInitTransitionRelation (frame : Nat) : TermBuilder :=
  appendTerms (p.stateTransitions.map fun t b => do
    let (next, b) := mappedSymbol (frame + 1) t.1 b
    let (formula, b) ← remapAtFrame t.2 frame (p.transitionSupport t.1) b
    return ([BoolExpr.makeEqualityExpr (.var next) formula], b))

def addFrontierObservation : TermBuilder := fun b =>
  .ok (if p.usesResetBootstrapObservationFrontier then [p.property] else [], b)

def addPrefixFrame (frame : Nat) : TermBuilder :=
  appendTerms [p.addResetInputAssignments frame true, p.addStateDomainRelations frame,
    p.addInitTransitionRelation frame]

def initTerms : TermBuilder :=
  appendTerms [p.addInitAssignments,
    appendTerms ((List.range p.resetBootstrapCycles).map p.addPrefixFrame),
    p.addStateDomainRelations p.resetBootstrapCycles,
    p.addResetInputAssignments p.resetBootstrapCycles false,
    p.addFrontierObservation]

/-- `ExactPdrBootstrapInitBuilder::build`, with the builder it ends in.
mirrors src/sec/pdr/PDREngine.cpp:7576-7602 -/
def buildExactPdrInit : Except String (BoolExpr × InitBuilder) := do
  let (terms, b) ← p.initTerms (p.initializeStateSymbols (.start p.reservedSymbols 2))
  return (makeBalancedConjunction terms, b)

/-- mirrors src/sec/pdr/PDREngine.cpp:7771-7805 (no shared cache) -/
def buildExactPdrInitFormula : Except String BoolExpr :=
  if p.resetBootstrapCycles ≠ 0 then p.buildExactPdrInit.map Prod.fst
  else .ok (appendAssignmentFormula (p.initialCondition.getD BoolExpr.createTrue)
    p.initialStateAssignments).simplify

end KInductionProblem

/-! ## Values of the parts -/

@[simp] theorem eval_assignmentTerm (σ : Valuation) (symbol : Nat) (value : Bool) :
    (assignmentTerm symbol value).eval σ = true ↔ lit σ symbol = value := by
  unfold assignmentTerm
  split <;> simp_all

theorem eval_appendAssignmentFormula (σ : Valuation) (formula : BoolExpr)
    (assignments : List (Nat × Bool)) :
    (appendAssignmentFormula formula assignments).eval σ = true ↔
      formula.eval σ = true ∧ ∀ a ∈ assignments, lit σ a.1 = a.2 := by
  induction assignments generalizing formula with
  | nil => simp [appendAssignmentFormula]
  | cons a assignments ih =>
    have hstep := ih (BoolExpr.And formula (assignmentTerm a.1 a.2))
    simp only [appendAssignmentFormula, List.foldl_cons] at hstep ⊢
    rw [hstep, BoolExpr.eval_And, Bool.and_eq_true, eval_assignmentTerm]
    simp [and_assoc]

theorem eval_conjoinPairs (σ : Valuation) (terms : List BoolExpr) :
    (∀ t ∈ conjoinPairs terms, t.eval σ = true) ↔ ∀ t ∈ terms, t.eval σ = true := by
  induction terms using conjoinPairs.induct with
  | case1 a b terms ih => simp [conjoinPairs, ih, and_assoc]
  | case2 terms hshort =>
    rw [conjoinPairs]
    exact hshort

theorem length_conjoinPairs (terms : List BoolExpr) :
    (conjoinPairs terms).length = (terms.length + 1) / 2 := by
  induction terms using conjoinPairs.induct with
  | case1 a b terms ih =>
    simp only [conjoinPairs, List.length_cons, ih]
    omega
  | case2 terms hshort =>
    match terms, hshort with
    | [], _ => rfl
    | [_], _ => simp [conjoinPairs]
    | a :: b :: terms, hshort => exact absurd rfl (hshort a b terms)

theorem eval_conjoinRounds (σ : Valuation) (rounds : Nat) (terms : List BoolExpr)
    (h : terms.length ≤ rounds + 1) :
    (conjoinRounds rounds terms).eval σ = true ↔ ∀ t ∈ terms, t.eval σ = true := by
  induction rounds generalizing terms with
  | zero =>
    match terms, h with
    | [], _ => simp [conjoinRounds]
    | [t], _ => simp [conjoinRounds]
  | succ rounds ih =>
    match terms, h with
    | [], _ => simp [conjoinRounds]
    | [t], _ => simp [conjoinRounds]
    | a :: b :: terms, h =>
      have hlength := length_conjoinPairs (a :: b :: terms)
      simp only [List.length_cons] at h hlength
      rw [conjoinRounds.eq_def]
      simp only
      rw [ih _ (by omega), eval_conjoinPairs]

theorem eval_makeBalancedConjunction (σ : Valuation) (terms : List BoolExpr) :
    (makeBalancedConjunction terms).eval σ = true ↔ ∀ t ∈ terms, t.eval σ = true :=
  eval_conjoinRounds σ _ _ (Nat.le_succ _)

/-- A remapping that covers the support succeeds, and the result has under `σ` the value
the formula has under the renamed values. -/
theorem eval_remapBoolExprVariables {varMap : Nat → Option Nat} (σ υ : Valuation) (e : BoolExpr)
    (h : ∀ s ∈ e.getSupportVars, 2 ≤ s → ∃ t, varMap s = some t ∧ lit σ t = lit υ s) :
    ∃ r, e.remapBoolExprVariables varMap = .ok r ∧ r.eval σ = e.eval υ := by
  induction e with
  | var id =>
    unfold BoolExpr.remapBoolExprVariables
    split
    · rename_i hconst
      exact ⟨_, rfl, lit_of_lt_two σ υ hconst⟩
    · rename_i hvar
      obtain ⟨t, ht, hlit⟩ := h id (Finset.mem_singleton_self id) (by omega)
      rw [ht]
      exact ⟨_, rfl, hlit⟩
  | not a ih =>
    obtain ⟨left, hleft, heval⟩ := ih h
    refine ⟨if left = a then .not a else BoolExpr.Not left, ?_, ?_⟩
    · simp only [BoolExpr.remapBoolExprVariables, hleft]
      rfl
    · split
      · rename_i hsame
        subst hsame
        simp [BoolExpr.eval, heval]
      · simp [BoolExpr.eval, heval]
  | and a b iha ihb =>
    obtain ⟨left, hleft, hevall⟩ := iha fun s hs => h s (Finset.mem_union_left _ hs)
    obtain ⟨right, hright, hevalr⟩ := ihb fun s hs => h s (Finset.mem_union_right _ hs)
    refine ⟨BoolExpr.rebuilt .and BoolExpr.And a b left right, ?_, ?_⟩
    · simp only [BoolExpr.remapBoolExprVariables, hleft, hright]
      rfl
    · rw [BoolExpr.eval_rebuilt (BoolExpr.eval_And σ) (fun _ _ => rfl), hevall, hevalr]
      rfl
  | or a b iha ihb =>
    obtain ⟨left, hleft, hevall⟩ := iha fun s hs => h s (Finset.mem_union_left _ hs)
    obtain ⟨right, hright, hevalr⟩ := ihb fun s hs => h s (Finset.mem_union_right _ hs)
    refine ⟨BoolExpr.rebuilt .or BoolExpr.Or a b left right, ?_, ?_⟩
    · simp only [BoolExpr.remapBoolExprVariables, hleft, hright]
      rfl
    · rw [BoolExpr.eval_rebuilt (BoolExpr.eval_Or σ) (fun _ _ => rfl), hevall, hevalr]
      rfl
  | xor a b iha ihb =>
    obtain ⟨left, hleft, hevall⟩ := iha fun s hs => h s (Finset.mem_union_left _ hs)
    obtain ⟨right, hright, hevalr⟩ := ihb fun s hs => h s (Finset.mem_union_right _ hs)
    refine ⟨BoolExpr.rebuilt .xor BoolExpr.Xor a b left right, ?_, ?_⟩
    · simp only [BoolExpr.remapBoolExprVariables, hleft, hright]
      rfl
    · rw [BoolExpr.eval_rebuilt (BoolExpr.eval_Xor σ) (fun _ _ => rfl), hevall, hevalr]
      rfl

namespace KInductionProblem
variable {p : KInductionProblem}

/-! ## Views -/

/-- The keys with a history symbol: those of the frames before the frontier. -/
def HistoryKey (p : KInductionProblem) (k : Nat × Nat) : Prop := k.1 < p.resetBootstrapCycles

/-- The builder's invariant: history symbols are new and pairwise different, and the
frontier frame keeps the state symbols. -/
structure WellNamed (p : KInductionProblem) (b : InitBuilder) : Prop where
  fresh : b.FreshOn p.reservedSymbols p.HistoryKey
  frontier : ∀ s ∈ p.combinedStateSymbols, b.nameOf (p.resetBootstrapCycles, s) = some s

open Classical in
/-- The trace that a valuation of model and history symbols stands for: earlier frames
are read through their history symbols, the frontier frame is the valuation itself.
Where nothing is named the trace is `τ`. -/
noncomputable def view (p : KInductionProblem) (b : InitBuilder) (σ : Valuation) (τ : Trace) : Trace :=
  fun frame s =>
    if frame < p.resetBootstrapCycles then
      match b.nameOf (frame, s) with
      | some t => σ t
      | none => τ frame s
    else if frame = p.resetBootstrapCycles ∧ ¬ b.IsName p.HistoryKey s then σ s
    else τ frame s

/-- A symbol of a frame that the builder may ask for. -/
def Mappable (p : KInductionProblem) (frame s : Nat) : Prop :=
  2 ≤ s ∧ (frame < p.resetBootstrapCycles ∨
    (frame = p.resetBootstrapCycles ∧ s ∈ p.combinedStateSymbols))

theorem WellNamed.of_extends {b b' : InitBuilder} (h : p.WellNamed b) (hext : b.Extends b')
    (hfresh : b'.FreshOn p.reservedSymbols p.HistoryKey) : p.WellNamed b' where
  fresh := hfresh
  frontier s hs := hext _ _ (h.frontier s hs)

theorem view_frontier {b : InitBuilder} (h : p.WellNamed b) (σ : Valuation) (τ : Trace) {s : Nat}
    (hs : s ∈ p.reservedSymbols) : p.view b σ τ p.resetBootstrapCycles s = σ s := by
  unfold view
  rw [if_neg (Nat.lt_irrefl _), if_pos ⟨rfl, h.fresh.not_isName hs⟩]

theorem lit_view_frontier {b : InitBuilder} (h : p.WellNamed b) (σ : Valuation) (τ : Trace) {s : Nat}
    (hs : s ∈ p.reservedSymbols) : lit (p.view b σ τ p.resetBootstrapCycles) s = lit σ s := by
  rcases Nat.lt_or_ge s 2 with h2 | h2
  · exact lit_of_lt_two _ _ h2
  · rw [lit_of_two_le _ h2, lit_of_two_le _ h2, view_frontier h σ τ hs]

theorem mem_reservedSymbols_of_state {s : Nat} (hs : s ∈ p.combinedStateSymbols) :
    s ∈ p.reservedSymbols := by
  simp [reservedSymbols, hs]

/-- A named symbol is read through its name. -/
theorem lit_view {b : InitBuilder} (h : p.WellNamed b) {frame s t : Nat} (hs : p.Mappable frame s)
    (hname : b.nameOf (frame, s) = some t) (σ : Valuation) (τ : Trace) :
    lit σ t = lit (p.view b σ τ frame) s := by
  obtain ⟨h2, hframe | ⟨rfl, hstate⟩⟩ := hs
  · rw [lit_of_two_le _ (h.fresh.two_le (frame, s) t hframe hname), lit_of_two_le _ h2]
    unfold view
    rw [if_pos hframe, hname]
  · rw [h.frontier s hstate, Option.some.injEq] at hname
    subst hname
    rw [lit_view_frontier h σ τ (mem_reservedSymbols_of_state hstate)]

/-- Every trace is the view of some values, and the model's symbols have there the
values of its frontier frame. -/
theorem exists_view {b : InitBuilder} (h : p.WellNamed b) (τ : Trace) :
    ∃ σ, p.view b σ τ = τ ∧ ∀ s ∈ p.reservedSymbols, σ s = τ p.resetBootstrapCycles s := by
  obtain ⟨σ, hnamed, hother⟩ :=
    h.fresh.realise (fun k => τ k.1 k.2) (τ p.resetBootstrapCycles)
  refine ⟨σ, ?_, fun s hs => hother s (h.fresh.not_isName hs)⟩
  funext frame s
  unfold view
  split
  · rename_i hframe
    cases hname : b.nameOf (frame, s) with
    | none => rfl
    | some t => exact hnamed (frame, s) t hframe hname
  · split
    · rename_i hkeep
      rw [hother s hkeep.2, hkeep.1]
    · rfl

/-! ## What a step asserts -/

/-- The step succeeds on every well-named builder, and its terms hold under a valuation
exactly when `P` holds of the trace that the valuation stands for. -/
def Says (p : KInductionProblem) (step : TermBuilder) (P : Trace → Prop) : Prop :=
  ∀ b, p.WellNamed b → ∃ terms b', step b = .ok (terms, b') ∧ b.Extends b' ∧ p.WellNamed b' ∧
    ∀ N, p.WellNamed N → b'.Extends N → ∀ σ τ,
      (∀ t ∈ terms, t.eval σ = true) ↔ P (p.view N σ τ)

theorem Says.congr {step : TermBuilder} {P Q : Trace → Prop} (h : p.Says step P)
    (hiff : ∀ τ, P τ ↔ Q τ) : p.Says step Q := by
  intro b hb
  obtain ⟨terms, b', hstep, hext, hb', hterms⟩ := h b hb
  exact ⟨terms, b', hstep, hext, hb', fun N hN hN' σ τ =>
    (hterms N hN hN' σ τ).trans (hiff _)⟩

theorem says_nil : p.Says (appendTerms []) fun _ => True := fun b hb =>
  ⟨[], b, rfl, .refl b, hb, fun _ _ _ _ _ => by simp⟩

theorem says_cons {step : TermBuilder} {steps : List TermBuilder} {P Q : Trace → Prop}
    (hstep : p.Says step P) (hsteps : p.Says (appendTerms steps) Q) :
    p.Says (appendTerms (step :: steps)) fun τ => P τ ∧ Q τ := by
  intro b hb
  obtain ⟨terms, b₁, hrun₁, hext₁, hb₁, hterms⟩ := hstep b hb
  obtain ⟨rest, b₂, hrun₂, hext₂, hb₂, hrest⟩ := hsteps b₁ hb₁
  refine ⟨terms ++ rest, b₂, ?_, hext₁.trans hext₂, hb₂, fun N hN hN' σ τ => ?_⟩
  · simp only [appendTerms, hrun₁, hrun₂, bind, Except.bind, pure, Except.pure]
  · exact List.forall_mem_append.trans
      (and_congr (hterms N hN (hext₂.trans hN') σ τ) (hrest N hN hN' σ τ))

theorem says_map {α : Type} {step : α → TermBuilder} {P : α → Trace → Prop} (as : List α)
    (h : ∀ a ∈ as, p.Says (step a) (P a)) :
    p.Says (appendTerms (as.map step)) fun τ => ∀ a ∈ as, P a τ := by
  induction as with
  | nil => exact says_nil.congr (by simp)
  | cons a as ih =>
    refine (says_cons (h a List.mem_cons_self) (ih fun a' ha' =>
      h a' (List.mem_cons_of_mem _ ha'))).congr fun τ => ?_
    simp

theorem wellNamed_mappedSymbol {b : InitBuilder} (h : p.WellNamed b) (frame s : Nat) :
    p.WellNamed (mappedSymbol frame s b).2 :=
  h.of_extends (Naming.extends_name b _) (h.fresh.name _)

/-- Later names keep the value of an earlier one. -/
theorem lit_mappedSymbol {b N : InitBuilder} {frame s : Nat} (hs : p.Mappable frame s)
    (hext : (mappedSymbol frame s b).2.Extends N) (hN : p.WellNamed N) (σ : Valuation) (τ : Trace) :
    lit σ (mappedSymbol frame s b).1 = lit (p.view N σ τ frame) s :=
  lit_view hN hs (hext _ _ (Naming.nameOf_name b _)) σ τ

theorem says_assignmentBuilder {frame s : Nat} (value : Bool) (hs : p.Mappable frame s) :
    p.Says (assignmentBuilder frame s value) fun τ => lit (τ frame) s = value := by
  intro b hb
  refine ⟨[assignmentTerm (mappedSymbol frame s b).1 value], (mappedSymbol frame s b).2, rfl,
    Naming.extends_name b _, wellNamed_mappedSymbol hb frame s, fun N hN hN' σ τ => ?_⟩
  have hlit := lit_mappedSymbol hs hN' hN σ τ
  simp [← hlit]

theorem says_relationBuilder {relation : BoolExpr → BoolExpr → BoolExpr} (op : Bool → Bool → Prop)
    (hrelation : ∀ σ x y, (relation (.var x) (.var y)).eval σ = true ↔ op (lit σ x) (lit σ y))
    {frame first second : Nat} (hfirst : p.Mappable frame first)
    (hsecond : p.Mappable frame second) :
    p.Says (relationBuilder relation frame first second) fun τ =>
      op (lit (τ frame) first) (lit (τ frame) second) := by
  intro b hb
  have hb₁ := wellNamed_mappedSymbol hb frame first
  have hext₁ : b.Extends (mappedSymbol frame first b).2 := Naming.extends_name b _
  generalize hfirstName : mappedSymbol frame first b = m at hb₁ hext₁
  obtain ⟨x, b₁⟩ := m
  have hext₂ : b₁.Extends (mappedSymbol frame second b₁).2 := Naming.extends_name b₁ _
  refine ⟨[relation (.var x) (.var (mappedSymbol frame second b₁).1)],
    (mappedSymbol frame second b₁).2, ?_, hext₁.trans hext₂,
    wellNamed_mappedSymbol hb₁ frame second, fun N hN hN' σ τ => ?_⟩
  · simp only [relationBuilder, hfirstName]
  have hlit₁ := lit_mappedSymbol (b := b) hfirst (N := N)
    (by rw [hfirstName]; exact hext₂.trans hN') hN σ τ
  rw [hfirstName] at hlit₁
  have hlit₂ := lit_mappedSymbol hsecond hN' hN σ τ
  simp [hrelation, ← hlit₁, ← hlit₂]

/-! ## The steps of the builder -/

/-- The symbols the startup facts and relations are about: two constants are never
renamed, and a relation is between state symbols. -/
structure NamesStates (p : KInductionProblem) : Prop extends p.RelatesStates where
  resets : ∀ r ∈ p.resetBootstrapInputs, 2 ≤ r.1
  assignments : ∀ a ∈ p.initialStateAssignments, 2 ≤ a.1

theorem mappable_of_state {frame s : Nat} (hframe : frame ≤ p.resetBootstrapCycles)
    (hs : s ∈ p.combinedStateSymbols) : p.Mappable frame s :=
  ⟨p.reserved s hs, (Nat.lt_or_eq_of_le hframe).imp_right fun h => ⟨h, hs⟩⟩

theorem mappable_of_lt {frame s : Nat} (hframe : frame < p.resetBootstrapCycles) (h2 : 2 ≤ s) :
    p.Mappable frame s := ⟨h2, .inl hframe⟩

theorem says_addInitAssignments (hnames : p.NamesStates) (hcycles : p.resetBootstrapCycles ≠ 0) :
    p.Says p.addInitAssignments fun τ => ∀ a ∈ p.initialStateAssignments, lit (τ 0) a.1 = a.2 :=
  says_map _ fun a ha => says_assignmentBuilder a.2
    (mappable_of_lt (Nat.pos_of_ne_zero hcycles) (hnames.assignments a ha))

theorem says_addResetInputAssignments (hnames : p.NamesStates) {frame : Nat} (asserted : Bool)
    (hframe : frame ≤ p.resetBootstrapCycles) :
    p.Says (p.addResetInputAssignments frame asserted) fun τ => ∀ r ∈ p.resetBootstrapInputs,
      lit (τ frame) r.1 = (if asserted then r.2 else !r.2) := by
  refine says_map _ fun r hr => ?_
  have hreserved : r.1 ∈ p.reservedSymbols := by
    have hmem : r.1 ∈ (p.resetBootstrapInputs.map Prod.fst).toFinset :=
      List.mem_toFinset.mpr (List.mem_map.mpr ⟨r, hr, rfl⟩)
    simp only [reservedSymbols, Finset.mem_union]
    simp [hmem]
  simp only
  split
  · rename_i hfinal
    intro b hb
    refine ⟨_, b, rfl, .refl b, hb, fun N hN _ σ τ => ?_⟩
    have hlit := lit_view_frontier hN σ τ hreserved
    rw [← hfinal] at hlit
    simp [hlit]
  · rename_i hprefixRun
    exact says_assignmentBuilder _ (mappable_of_lt (by omega) (hnames.resets r hr))

theorem says_addStateDomainRelations (hnames : p.NamesStates) {frame : Nat}
    (hframe : frame ≤ p.resetBootstrapCycles) :
    p.Says (p.addStateDomainRelations frame) fun τ => p.DomainValid (τ frame) := by
  have hcomplements : ∀ pairs : List (Nat × Nat), (∀ pr ∈ pairs, pr ∈ p.complementedStatePairs) →
      p.Says (addComplementRelations frame pairs) fun τ => ∀ pr ∈ pairs,
        lit (τ frame) pr.2 = !lit (τ frame) pr.1 := by
    intro pairs hpairs
    refine says_map _ fun pr hpr => ?_
    refine says_relationBuilder (fun x y => x = !y) (fun σ x y => by simp) ?_ ?_
    · exact mappable_of_state hframe
        (p.complements_state _ (List.mem_map.mpr ⟨pr, hpairs pr hpr, rfl⟩))
    · exact mappable_of_state hframe (hnames.complements pr (hpairs pr hpr))
  have hequalities : ∀ pairs : List (Nat × Nat),
      (∀ pr ∈ pairs, pr ∈ p.sameFrameStateEqualityPairs) →
      p.Says (addEqualityRelations frame pairs) fun τ => ∀ pr ∈ pairs,
        lit (τ frame) pr.1 = lit (τ frame) pr.2 := by
    intro pairs hpairs
    refine says_map _ fun pr hpr => ?_
    obtain ⟨hlhs, hrhs⟩ := hnames.equalities pr (hpairs pr hpr)
    exact says_relationBuilder (fun x y => x = y) (fun σ x y => by simp)
      (mappable_of_state hframe hlhs) (mappable_of_state hframe hrhs)
  have hrails : p.Says (addDualRailValidity frame p.dualRailStatePairs) fun τ =>
      ∀ r ∈ p.dualRailStatePairs,
        (lit (τ frame) r.mayBeOne || lit (τ frame) r.mayBeZero) = true := by
    refine says_map _ fun r hr => ?_
    obtain ⟨hone, hzero⟩ := hnames.rails r hr
    exact says_relationBuilder (fun x y => (x || y) = true) (fun σ x y => by simp)
      (mappable_of_state hframe hone) (mappable_of_state hframe hzero)
  have hc0 := hcomplements p.complementedStatePairs0 fun pr h => List.mem_append_left _ h
  have hc1 := hcomplements p.complementedStatePairs1 fun pr h => List.mem_append_right _ h
  have he0 := hequalities p.sameFrameStateEqualityPairs0 fun pr h => List.mem_append_left _ h
  have he1 := hequalities p.sameFrameStateEqualityPairs1 fun pr h => List.mem_append_right _ h
  refine (says_cons hc0 (says_cons hc1 (says_cons he0 (says_cons he1
    (says_cons hrails says_nil))))).congr fun τ => ?_
  constructor
  · rintro ⟨hc0, hc1, he0, he1, hrails, _⟩
    exact ⟨fun pr hpr => (List.mem_append.mp hpr).elim (hc0 pr) (hc1 pr),
      fun pr hpr => (List.mem_append.mp hpr).elim (he0 pr) (he1 pr), hrails⟩
  · intro hvalid
    exact ⟨fun pr hpr => hvalid.complemented pr (List.mem_append_left _ hpr),
      fun pr hpr => hvalid.complemented pr (List.mem_append_right _ hpr),
      fun pr hpr => hvalid.equal pr (List.mem_append_left _ hpr),
      fun pr hpr => hvalid.equal pr (List.mem_append_right _ hpr), hvalid.rails, trivial⟩

theorem mem_stateTransitions {t : Nat × BoolExpr} :
    t ∈ p.stateTransitions ↔ p.transitionAt t.1 = some t.2 := by
  unfold stateTransitions
  simp only [List.mem_filterMap, Option.map_eq_some_iff, sortedStateSymbols, mem_sortedSymbols,
    List.mem_toFinset]
  constructor
  · rintro ⟨s, _, e, he, rfl⟩
    exact he
  · intro he
    exact ⟨t.1, mem_combinedStateSymbols_of_contains (contains_iff.mpr ⟨_, he⟩), t.2, he, rfl⟩

/-- Naming a list of symbols of a frame. -/
theorem mapped_foldl (frame : Nat) (symbols : List Nat) {b : InitBuilder} (hb : p.WellNamed b) :
    let b' := symbols.foldl
      (fun b symbol => if 2 ≤ symbol then (mappedSymbol frame symbol b).2 else b) b
    p.WellNamed b' ∧ b.Extends b' ∧
      ∀ s ∈ symbols, 2 ≤ s → ∃ t, b'.nameOf (frame, s) = some t := by
  induction symbols generalizing b with
  | nil => exact ⟨hb, .refl b, fun s hs => by cases hs⟩
  | cons s symbols ih =>
    simp only [List.foldl_cons]
    by_cases h2 : 2 ≤ s
    · rw [if_pos h2]
      obtain ⟨hwell, hext, hnamed⟩ := ih (wellNamed_mappedSymbol hb frame s)
      refine ⟨hwell, (Naming.extends_name b _).trans hext, fun s' hs' h2' => ?_⟩
      cases hs' with
      | head => exact ⟨_, hext _ _ (Naming.nameOf_name b _)⟩
      | tail _ hs' => exact hnamed s' hs' h2'
    · rw [if_neg h2]
      obtain ⟨hwell, hext, hnamed⟩ := ih hb
      refine ⟨hwell, hext, fun s' hs' h2' => ?_⟩
      cases hs' with
      | head => exact absurd h2' h2
      | tail _ hs' => exact hnamed s' hs' h2'

/-- A formula of a prefix frame is remapped to one with its value in that frame. -/
theorem remapAtFrame_spec {frame s : Nat} {e : BoolExpr} (hframe : frame < p.resetBootstrapCycles)
    (he : p.transitionAt s = some e) {b : InitBuilder} (hb : p.WellNamed b) :
    ∃ r b', remapAtFrame e frame (p.transitionSupport s) b = .ok (r, b') ∧ b.Extends b' ∧
      p.WellNamed b' ∧ ∀ N, p.WellNamed N → b'.Extends N → ∀ σ τ,
        r.eval σ = e.eval (p.view N σ τ frame) := by
  obtain ⟨hwell, hext, hnamed⟩ :=
    mapped_foldl frame (sortedSymbols (p.transitionSupport s)) hb
  unfold remapAtFrame
  generalize (sortedSymbols (p.transitionSupport s)).foldl
    (fun b symbol => if 2 ≤ symbol then (mappedSymbol frame symbol b).2 else b) b = b' at *
  have hvar : ∀ x ∈ e.getSupportVars, 2 ≤ x → ∃ t, b'.nameOf (frame, x) = some t := fun x hx h2 =>
    hnamed x (mem_sortedSymbols.mpr (transitionSupport_covers he hx h2)) h2
  have hremap : ∃ r, e.remapBoolExprVariables (fun x => b'.nameOf (frame, x)) = .ok r := by
    obtain ⟨r, hr, _⟩ := eval_remapBoolExprVariables (fun _ => false)
      (p.view b' (fun _ => false) (fun _ _ => false) frame) e fun x hx h2 => by
        obtain ⟨t, ht⟩ := hvar x hx h2
        exact ⟨t, ht, lit_view hwell (mappable_of_lt hframe h2) ht _ _⟩
    exact ⟨r, hr⟩
  obtain ⟨r, hr⟩ := hremap
  refine ⟨r, b', by simp only [hr]; rfl, hext, hwell, fun N hN hN' σ τ => ?_⟩
  obtain ⟨r', hr', heval⟩ := eval_remapBoolExprVariables σ (p.view N σ τ frame) e fun x hx h2 => by
    obtain ⟨t, ht⟩ := hvar x hx h2
    exact ⟨t, ht, lit_view hN (mappable_of_lt hframe h2) (hN' _ _ ht) σ τ⟩
  rw [hr, Except.ok.injEq] at hr'
  rw [hr']
  exact heval

theorem says_addInitTransitionRelation {frame : Nat} (hframe : frame < p.resetBootstrapCycles) :
    p.Says (p.addInitTransitionRelation frame) fun τ => ∀ s e, p.transitionAt s = some e →
      lit (τ (frame + 1)) s = e.eval (τ frame) := by
  refine (says_map (P := fun t τ => lit (τ (frame + 1)) t.1 = t.2.eval (τ frame)) _
    fun t ht b hb => ?_).congr fun τ => ?_
  · have he := mem_stateTransitions.mp ht
    have hstate := mem_combinedStateSymbols_of_contains (contains_iff.mpr ⟨_, he⟩)
    obtain ⟨r, b', hremap, hext, hwell, heval⟩ :=
      remapAtFrame_spec hframe he (wellNamed_mappedSymbol hb (frame + 1) t.1)
    refine ⟨_, b', by simp only [hremap]; rfl, (Naming.extends_name b _).trans hext, hwell,
      fun N hN hN' σ τ => ?_⟩
    have hlit := lit_mappedSymbol (mappable_of_state (show frame + 1 ≤ _ by omega) hstate)
      (hext.trans hN') hN σ τ
    simp [← hlit, heval N hN hN' σ τ]
  · constructor
    · exact fun h s e he => h (s, e) (mem_stateTransitions.mpr he)
    · exact fun h t ht => h t.1 t.2 (mem_stateTransitions.mp ht)

theorem says_addFrontierObservation :
    p.Says p.addFrontierObservation fun τ => p.usesResetBootstrapObservationFrontier = true →
      p.property.eval (τ p.resetBootstrapCycles) = true := by
  intro b hb
  refine ⟨_, b, rfl, .refl b, hb, fun N hN _ σ τ => ?_⟩
  have heval : p.property.eval (p.view N σ τ p.resetBootstrapCycles) = p.property.eval σ :=
    BoolExpr.eval_congr fun s hs _ => view_frontier hN σ τ (by simp [reservedSymbols, hs])
  simp only [heval]
  cases p.usesResetBootstrapObservationFrontier <;> simp

/-! ## The whole formula -/

/-- A trace whose first frames are a reset prefix and whose frame after it is where
the search starts. -/
structure ResetPrefix (p : KInductionProblem) (τ : Trace) : Prop where
  assignments : ∀ a ∈ p.initialStateAssignments, lit (τ 0) a.1 = a.2
  domain : ∀ f ≤ p.resetBootstrapCycles, p.DomainValid (τ f)
  transitions : ∀ f < p.resetBootstrapCycles, ∀ s e, p.transitionAt s = some e →
    lit (τ (f + 1)) s = e.eval (τ f)
  asserted : ∀ f < p.resetBootstrapCycles, p.ResetAsserted (τ f)
  deasserted : p.ResetDeasserted (τ p.resetBootstrapCycles)
  observation : p.usesResetBootstrapObservationFrontier = true →
    p.property.eval (τ p.resetBootstrapCycles) = true

theorem says_initTerms (hnames : p.NamesStates) (hcycles : p.resetBootstrapCycles ≠ 0) :
    p.Says p.initTerms p.ResetPrefix := by
  have hframes : p.Says (appendTerms ((List.range p.resetBootstrapCycles).map p.addPrefixFrame))
      fun τ => ∀ f ∈ List.range p.resetBootstrapCycles, p.ResetAsserted (τ f) ∧
        p.DomainValid (τ f) ∧ (∀ s e, p.transitionAt s = some e →
          lit (τ (f + 1)) s = e.eval (τ f)) ∧ True :=
    says_map _ fun f hf => by
      have hlt := List.mem_range.mp hf
      exact says_cons (says_addResetInputAssignments hnames true hlt.le)
        (says_cons (says_addStateDomainRelations hnames hlt.le)
          (says_cons (says_addInitTransitionRelation hlt) says_nil))
  refine (says_cons (says_addInitAssignments hnames hcycles) (says_cons hframes
    (says_cons (says_addStateDomainRelations hnames (Nat.le_refl _))
      (says_cons (says_addResetInputAssignments hnames false (Nat.le_refl _))
        (says_cons says_addFrontierObservation says_nil))))).congr fun τ => ?_
  simp only [List.mem_range, and_true]
  constructor
  · rintro ⟨hassign, hframes, hfinal, hreset, hobs⟩
    refine ⟨hassign, fun f hf => ?_, fun f hf => (hframes f hf).2.2, fun f hf => (hframes f hf).1,
      hreset, hobs⟩
    rcases Nat.lt_or_eq_of_le hf with hlt | rfl
    · exact (hframes f hlt).2.1
    · exact hfinal
  · intro h
    exact ⟨h.assignments, fun f hf => ⟨h.asserted f hf, h.domain f hf.le, h.transitions f hf⟩,
      h.domain _ (Nat.le_refl _), h.deasserted, h.observation⟩

/-- What `initializeStateSymbols` keeps while it runs. -/
structure Initializing (p : KInductionProblem) (b : InitBuilder) : Prop where
  fresh : b.FreshOn p.reservedSymbols p.HistoryKey
  frontier : ∀ s t, b.nameOf (p.resetBootstrapCycles, s) = some t → t = s

theorem Initializing.step {b : InitBuilder} (h : p.Initializing b) (frame : Nat) {s : Nat}
    (hs : s ∈ p.combinedStateSymbols) : p.Initializing (p.initializeStateSymbol frame b s) := by
  unfold initializeStateSymbol
  split
  · rename_i hfinal
    subst hfinal
    refine ⟨h.fresh.bind (h.fresh.fixed_reserved (mem_reservedSymbols_of_state hs))
      (fun hkey => absurd hkey (Nat.lt_irrefl _)), fun s' t ht => ?_⟩
    rcases Naming.nameOf_bind_eq_some ht with hold | ⟨hkey, rfl⟩
    · exact h.frontier s' t hold
    · rw [Prod.mk.injEq] at hkey
      exact hkey.2.symm
  · rename_i hprefixRun
    refine ⟨h.fresh.bind_allocate _, fun s' t ht => ?_⟩
    rcases Naming.nameOf_bind_eq_some ht with hold | ⟨hkey, _⟩
    · exact h.frontier s' t hold
    · rw [Prod.mk.injEq] at hkey
      exact absurd hkey.1.symm hprefixRun

theorem Initializing.foldl {b : InitBuilder} (h : p.Initializing b) (frame : Nat)
    (symbols : List Nat) (hsymbols : ∀ s ∈ symbols, s ∈ p.combinedStateSymbols) :
    p.Initializing (symbols.foldl (p.initializeStateSymbol frame) b) := by
  induction symbols generalizing b with
  | nil => exact h
  | cons s symbols ih =>
    exact ih (h.step frame (hsymbols s List.mem_cons_self)) fun s' hs' =>
      hsymbols s' (List.mem_cons_of_mem _ hs')

theorem extends_initializeStateSymbol (frame : Nat) (b : InitBuilder) (s : Nat) :
    b.Extends (p.initializeStateSymbol frame b s) := by
  unfold initializeStateSymbol
  split
  · exact Naming.extends_bind
  · exact (Naming.extends_allocate b).trans Naming.extends_bind

theorem extends_foldl_initializeStateSymbol (frame : Nat) (symbols : List Nat) (b : InitBuilder) :
    b.Extends (symbols.foldl (p.initializeStateSymbol frame) b) := by
  induction symbols generalizing b with
  | nil => exact .refl b
  | cons s symbols ih => exact (extends_initializeStateSymbol frame b s).trans (ih _)

/-- The frontier frame names every listed symbol. -/
theorem nameOf_foldl_frontier {symbols : List Nat} {b : InitBuilder} {s : Nat}
    (hs : s ∈ symbols) : ∃ t, (symbols.foldl (p.initializeStateSymbol p.resetBootstrapCycles)
      b).nameOf (p.resetBootstrapCycles, s) = some t := by
  induction symbols generalizing b with
  | nil => cases hs
  | cons s' symbols ih =>
    cases hs with
    | head =>
      have hnamed : ∃ t, (p.initializeStateSymbol p.resetBootstrapCycles b s).nameOf
          (p.resetBootstrapCycles, s) = some t := by
        rw [initializeStateSymbol, if_pos rfl]
        cases hname : b.nameOf (p.resetBootstrapCycles, s) with
        | some t => exact ⟨t, Naming.extends_bind _ _ hname⟩
        | none => exact ⟨s, Naming.nameOf_bind_self hname⟩
      obtain ⟨t, ht⟩ := hnamed
      exact ⟨t, extends_foldl_initializeStateSymbol _ symbols _ _ _ ht⟩
    | tail _ hs => exact ih hs

theorem wellNamed_initializeStateSymbols :
    p.WellNamed (p.initializeStateSymbols (.start p.reservedSymbols 2)) := by
  have hstates : ∀ s, s ∈ p.sortedStateSymbols ↔ s ∈ p.combinedStateSymbols := fun s => by
    simp [sortedStateSymbols]
  have hframes : ∀ frames : List Nat, p.Initializing (frames.foldl
      (fun b frame => p.sortedStateSymbols.foldl (p.initializeStateSymbol frame) b)
      (.start p.reservedSymbols 2)) := by
    intro frames
    induction frames using List.reverseRecOn with
    | nil => exact ⟨Naming.freshOn_start (Nat.le_refl _), fun s t h => by cases h⟩
    | append_singleton frames frame ih =>
      rw [List.foldl_append]
      exact ih.foldl frame _ fun s hs => (hstates s).mp hs
  refine ⟨(hframes _).fresh, fun s hs => ?_⟩
  have hname : ∃ t, (p.initializeStateSymbols (.start p.reservedSymbols 2)).nameOf
      (p.resetBootstrapCycles, s) = some t := by
    rw [initializeStateSymbols, List.range_succ, List.foldl_append]
    exact nameOf_foldl_frontier ((hstates s).mpr hs)
  obtain ⟨t, ht⟩ := hname
  rw [ht, (hframes _).frontier s t ht]

/-- The builder succeeds, and its formula holds exactly of the values that stand for a
reset prefix. -/
theorem eval_buildExactPdrInit (hnames : p.NamesStates) (hcycles : p.resetBootstrapCycles ≠ 0) :
    ∃ init b, p.buildExactPdrInit = .ok (init, b) ∧ p.WellNamed b ∧
      ∀ σ τ, init.eval σ = true ↔ p.ResetPrefix (p.view b σ τ) := by
  obtain ⟨terms, b, hterms, _, hb, hsays⟩ :=
    says_initTerms hnames hcycles _ wellNamed_initializeStateSymbols
  refine ⟨makeBalancedConjunction terms, b, ?_, hb, fun σ τ => ?_⟩
  · simp only [buildExactPdrInit, hterms]
    rfl
  · rw [eval_makeBalancedConjunction]
    exact hsays b hb (.refl b) σ τ

/-- Without a reset prefix the formula is the initial condition with the initial
assignments. -/
theorem eval_buildExactPdrInitFormula_of_no_prefix (hcycles : p.resetBootstrapCycles = 0) :
    ∃ init, p.buildExactPdrInitFormula = .ok init ∧ ∀ σ, init.eval σ = true ↔
      (∀ e, p.initialCondition = some e → e.eval σ = true) ∧
      ∀ a ∈ p.initialStateAssignments, lit σ a.1 = a.2 := by
  refine ⟨_, by rw [buildExactPdrInitFormula, if_neg (not_not.mpr hcycles)], fun σ => ?_⟩
  rw [BoolExpr.eval_simplify, eval_appendAssignmentFormula]
  cases p.initialCondition <;> simp

end KInductionProblem
end KeplerFormal
