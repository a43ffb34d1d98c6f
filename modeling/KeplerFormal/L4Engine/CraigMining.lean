import Mathlib.Data.Finset.Sort
import KeplerFormal.Core.Pruning
import KeplerFormal.L2Problem.Bootstrap
import KeplerFormal.L3Query.CraigModels

/-!
# Auxiliary state invariants (`src/sec/imc/CraigInterpolatingModelChecker.cpp`)

Constants and equalities of the bootstrap assignments are candidates; the ones that a
transition may break are pruned until the rest is inductive. A first pass ranges over
the whole problem, later ones over the support of one Craig query and on top of the
invariants already found.

* `transitionPreservesStateConstant`, `transitionPreservesStateEquality`: the two
  preservation checks.
* `deriveAuxiliaryStateInvariants`, `deriveLocalAuxiliaryStateInvariants`,
  `mergeAuxiliaryStateInvariants`, `helperAuxiliaryStateInvariantsFromOptions`.
* `foldl_closeComplementPair_induction`, `closed_foldl_closeComplementPair`: what one
  pass over the complement pairs adds, and that it is closed when no symbol is in two
  pairs (`SeparateComplements`).
-/
namespace KeplerFormal

open Core

namespace KInductionProblem

def kAuxiliaryInvariantSupportLimit : Nat := 256
def kAuxiliaryInvariantCandidateLimit : Nat := 10000
def kLocalAuxiliaryInvariantCandidateLimit : Nat := 4096
def kLocalAuxiliaryInvariantLargeCandidateThreshold : Nat := 8192
def kLocalAuxiliaryInvariantLargeCandidateLimit : Nat := 1024
def kLocalAuxiliaryInvariantSupportMiningLimit : Nat := 65536
def kAuxiliaryEqualityCandidateLimit : Nat := 1024
def kCraigHelperAuxiliaryCarryLimit : Nat := 4096

/-! ## Maps of constants -/

abbrev Constants := List (Nat × Bool)

def symbols (cs : Constants) : List Nat := cs.map Prod.fst

/-- `constants[symbol] = value` -/
def assignConstant (cs : Constants) (c : Nat × Bool) : Constants :=
  cs.filter (·.1 != c.1) ++ [c]

/-- `constants.emplace(symbol, value)` -/
def emplaceConstant (cs : Constants) (c : Nat × Bool) : Constants :=
  if (symbols cs).contains c.1 then cs else cs ++ [c]

variable (p : KInductionProblem)

/-- mirrors src/sec/imc/CraigInterpolatingModelChecker.cpp:649-656 -/
def stateSymbolSet : List Nat := p.state0Symbols ++ p.state1Symbols

/-- mirrors src/sec/imc/CraigInterpolatingModelChecker.cpp:1466-1480 -/
def bootstrapAssignmentsForSymbols (assignments : Constants) (syms : List Nat) : Constants :=
  (assignments.filter fun a => syms.contains a.1).foldl assignConstant []

/-- mirrors src/sec/imc/CraigInterpolatingModelChecker.cpp:1414-1425 -/
def bootstrapStateConstants : Constants :=
  bootstrapAssignmentsForSymbols p.bootstrapStateAssignments p.stateSymbolSet

/-- mirrors src/sec/imc/CraigInterpolatingModelChecker.cpp:1427-1441 -/
def closeComplementPair (cs : Constants) (pr : Nat × Nat) : Constants :=
  match cs.lookup pr.1, cs.lookup pr.2 with
  | some v, none => cs ++ [(pr.2, !v)]
  | none, some v => cs ++ [(pr.1, !v)]
  | _, _ => cs

/-- mirrors src/sec/imc/CraigInterpolatingModelChecker.cpp:1443-1451 -/
def closeComplementStateConstants (cs : Constants) : Constants :=
  p.complementedStatePairs.foldl closeComplementPair cs

/-- mirrors src/sec/imc/CraigInterpolatingModelChecker.cpp:1453-1464 -/
def closeAuxiliaryInvariantConstantComplements (X : AuxiliaryStateInvariants) :
    AuxiliaryStateInvariants :=
  { X with constants := p.closeComplementStateConstants (X.constants.foldl emplaceConstant []) }

/-! ## Preservation checks -/

/-- mirrors src/sec/imc/CraigInterpolatingModelChecker.cpp:1482-1487 -/
def constantBoolExprValue : BoolExpr → Option Bool
  | .var 0 => some false
  | .var 1 => some true
  | _ => none

/-- mirrors src/sec/imc/CraigInterpolatingModelChecker.cpp:1489-1506 -/
def evaluateBoolExprWithKnownSupport (e : BoolExpr) (support : List Nat) (cs : Constants) :
    Option Bool :=
  if support.all ((symbols cs).contains ·) then some (e.eval fun s => (cs.lookup s).getD false)
  else none

/-- mirrors src/sec/imc/CraigInterpolatingModelChecker.cpp:1508-1524 -/
def transitionConstantTargetFor (symbol : Nat) (value : Bool) : Option (Nat × Bool) :=
  if p.contains symbol then some (symbol, value)
  else match p.primaryByComplement symbol with
    | some a => if p.contains a then some (a, !value) else none
    | none => none

def supportList (s : Nat) : List Nat := (p.transitionSupport s).sort (· ≤ ·)

/-- The relations and assumptions both preservation queries make about the current
frame.
mirrors src/sec/imc/CraigInterpolatingModelChecker.cpp:1613-1628, 1771-1785 -/
def preservationAssumptions (leaves : List Nat) (X : AuxiliaryStateInvariants) : CraigQuery :=
  addStateSemantics p (.frame 0) leaves ++ addAuxiliaryStateInvariants (.frame 0) leaves X

variable {σ : Type} (S : CraigSatSolver σ) (fresh : σ)

/-- The cache of the source holds answers of this function for the same constants.
mirrors src/sec/imc/CraigInterpolatingModelChecker.cpp:1559-1638 -/
def transitionPreservesStateConstant (symbol : Nat) (value : Bool) (cs : Constants) : Bool :=
  match p.transitionConstantTargetFor symbol value with
  | none => false
  | some (target, targetValue) =>
    match p.transitionAt target with
    | none => false
    | some e =>
      match constantBoolExprValue e with
      | some v => v == targetValue
      | none =>
        match evaluateBoolExprWithKnownSupport e (p.supportList target) cs with
        | some v => v == targetValue
        | none =>
          if kAuxiliaryInvariantSupportLimit < (p.supportList target).length then false
          else answersUnsat S fresh
            (p.preservationAssumptions (p.supportList target) { constants := cs } ++
              [[⟨.formula (.frame 0) e, !targetValue⟩]])

/-- mirrors src/sec/imc/CraigInterpolatingModelChecker.cpp:1640-1657, 1744-1792 -/
def transitionPreservesStateEquality (lhs rhs : Nat) (X : AuxiliaryStateInvariants) : Bool :=
  if lhs = rhs then true
  else match p.transitionAt lhs, p.transitionAt rhs with
    | some e, some f =>
      if kAuxiliaryInvariantSupportLimit < (p.transitionSupport lhs ∪ p.transitionSupport rhs).card
      then false
      else answersUnsat S fresh
        (p.preservationAssumptions ((p.transitionSupport lhs ∪ p.transitionSupport rhs).sort (· ≤ ·))
            X ++
          [[formulaLit (.frame 0) e, formulaLit (.frame 0) f],
            [(formulaLit (.frame 0) e).neg, (formulaLit (.frame 0) f).neg]])
    | _, _ => false

/-! ## Equality candidates -/

/-- mirrors src/sec/imc/CraigInterpolatingModelChecker.cpp:1659-1661 -/
def canonicalStateEqualityPair (e : Nat × Nat) : Nat × Nat := if e.1 < e.2 then e else (e.2, e.1)

/-- mirrors src/sec/imc/CraigInterpolatingModelChecker.cpp:1663-1671 -/
def bothStatesHaveSameConstant (cs : Constants) (lhs rhs : Nat) : Bool :=
  match cs.lookup lhs, cs.lookup rhs with
  | some v, some w => v == w
  | _, _ => false

/-- The states of one design with the same next-state function and the same bootstrap
value, each paired with the first of its kind.
mirrors src/sec/imc/CraigInterpolatingModelChecker.cpp:1673-1723 -/
def auxiliaryEqualityCandidatesForDesign (designStates : List Nat) (eligible : Option (List Nat))
    (bootstrapValues cs : Constants) : List (Nat × Nat) :=
  let bucketed := (designStates.filter fun s =>
    (match eligible with
      | some syms => syms.contains s
      | none => true) && (bootstrapValues.lookup s).isSome && p.contains s &&
      decide ((p.transitionSupport s).card ≤ kAuxiliaryInvariantSupportLimit)).insertionSort (· ≤ ·)
  bucketed.filterMap fun s =>
    match bucketed.find? fun a =>
      decide (p.transitionAt a = p.transitionAt s) && bootstrapValues.lookup a == bootstrapValues.lookup s with
    | some anchor =>
      if anchor = s ∨ bothStatesHaveSameConstant cs anchor s = true then none
      else some (canonicalStateEqualityPair (anchor, s))
    | none => none

/-- mirrors src/sec/imc/CraigInterpolatingModelChecker.cpp:1725-1742 -/
def auxiliaryEqualityCandidates (eligible : Option (List Nat)) (bootstrapValues cs : Constants) :
    List (Nat × Nat) :=
  ((p.auxiliaryEqualityCandidatesForDesign p.state0Symbols eligible bootstrapValues cs ++
    p.auxiliaryEqualityCandidatesForDesign p.state1Symbols eligible bootstrapValues cs).take
      kAuxiliaryEqualityCandidateLimit).dedup

/-! ## Mining -/

/-- `enabled` is the option or the environment switch. The lists keep the order of
discovery; the source sorts them.
mirrors src/sec/imc/CraigInterpolatingModelChecker.cpp:1794-1887 -/
def deriveAuxiliaryStateInvariants (enabled : Bool) : AuxiliaryStateInvariants :=
  if enabled = false ∨ p.bootstrapStateAssignments = [] then {}
  else if kAuxiliaryInvariantCandidateLimit < p.bootstrapStateAssignments.length then {}
  else
    let candidates := p.closeComplementStateConstants p.bootstrapStateConstants
    let constants := prune (fun cs c => p.transitionPreservesStateConstant S fresh c.1 c.2 cs)
      (candidates.length + 1) candidates
    let equalityCandidates := p.auxiliaryEqualityCandidates none p.bootstrapStateConstants constants
    let equalities := prune (fun es e => p.transitionPreservesStateEquality S fresh e.1 e.2
      { constants := constants, equalities := es }) (equalityCandidates.length + 1) equalityCandidates
    p.closeAuxiliaryInvariantConstantComplements { constants := constants, equalities := equalities }

/-- The symbols a local pass looks at and, above the limit, the ones its score keeps. -/
structure MiningChoice where
  candidateSymbols : List Nat := []
  keep : Nat → Bool := fun _ => true

/-- mirrors src/sec/imc/CraigInterpolatingModelChecker.cpp:242-250 -/
def localAuxiliaryCandidateLimit (candidateCount : Nat) : Nat :=
  if kLocalAuxiliaryInvariantLargeCandidateThreshold < candidateCount then
    kLocalAuxiliaryInvariantLargeCandidateLimit
  else kLocalAuxiliaryInvariantCandidateLimit

/-- mirrors src/sec/imc/CraigInterpolatingModelChecker.cpp:1889-2008 -/
def localAuxiliaryCandidateConstants (choice : MiningChoice) (existing : AuxiliaryStateInvariants) :
    Constants :=
  let constants := (p.bootstrapStateAssignments.filter fun a =>
    choice.candidateSymbols.contains a.1 && !(symbols existing.constants).contains a.1).foldl
      emplaceConstant []
  p.closeComplementStateConstants
    (if constants.length ≤ localAuxiliaryCandidateLimit constants.length then constants
      else constants.filter fun c => choice.keep c.1)

/-- The assumptions without the candidates that have been dropped. -/
def keptAssumptions (candidates assumptions kept : Constants) : Constants :=
  assumptions.filter fun a => !(symbols candidates).contains a.1 || kept.contains a

/-- mirrors src/sec/imc/CraigInterpolatingModelChecker.cpp:2010-2175 -/
def deriveLocalAuxiliaryStateInvariants (choice : MiningChoice)
    (existing : AuxiliaryStateInvariants) : AuxiliaryStateInvariants :=
  if kLocalAuxiliaryInvariantSupportMiningLimit < choice.candidateSymbols.length then {}
  else
    let candidates := p.localAuxiliaryCandidateConstants choice existing
    if candidates = [] then {}
    else
      let assumptions := p.closeComplementStateConstants
        (candidates.foldl assignConstant (existing.constants.foldl assignConstant []))
      let constants := prune (fun cs c => p.transitionPreservesStateConstant S fresh c.1 c.2
        (keptAssumptions candidates assumptions cs)) (candidates.length + 1) candidates
      let equalityCandidates := (p.auxiliaryEqualityCandidates (some (symbols candidates))
        (bootstrapAssignmentsForSymbols p.bootstrapStateAssignments (symbols candidates))
        (keptAssumptions candidates assumptions constants)).filter fun e =>
          !(existing.equalities.map canonicalStateEqualityPair).contains e
      let equalities := prune (fun es e => p.transitionPreservesStateEquality S fresh e.1 e.2
        { constants := keptAssumptions candidates assumptions constants
          equalities := existing.equalities ++ es }) (equalityCandidates.length + 1) equalityCandidates
      p.closeAuxiliaryInvariantConstantComplements
        { constants := constants, equalities := equalities }

/-- mirrors src/sec/imc/CraigInterpolatingModelChecker.cpp:2177-2209 -/
def mergeAuxiliaryStateInvariants (target additions : AuxiliaryStateInvariants) :
    AuxiliaryStateInvariants where
  constants := additions.constants.foldl emplaceConstant target.constants
  equalities := additions.equalities.foldl (fun es e =>
    if (es.map canonicalStateEqualityPair).contains (canonicalStateEqualityPair e) then es
    else es ++ [canonicalStateEqualityPair e]) target.equalities

/-- mirrors src/sec/imc/CraigInterpolatingModelChecker.cpp:2233-2274 -/
def helperAuxiliaryStateInvariantsFromOptions (helper : AuxiliaryStateInvariants) :
    AuxiliaryStateInvariants :=
  if kCraigHelperAuxiliaryCarryLimit < helper.constants.length + helper.equalities.length then {}
  else
    let closed := p.closeAuxiliaryInvariantConstantComplements helper
    let normalized : AuxiliaryStateInvariants :=
      { constants := closed.constants.dedup, equalities := closed.equalities.dedup }
    if kCraigHelperAuxiliaryCarryLimit < normalized.constants.length + normalized.equalities.length
    then {}
    else normalized

/-! ## What the maps contain -/

section Maps
variable {cs ds : Constants} {c : Nat × Bool}

theorem mem_foldl_assignConstant (h : c ∈ ds.foldl assignConstant cs) :
    c ∈ ds ∨ c ∈ cs ∧ c.1 ∉ symbols ds := by
  induction ds generalizing cs with
  | nil => exact .inr ⟨h, by simp [symbols]⟩
  | cons d ds ih =>
    rcases ih h with hd | ⟨hc, hds⟩
    · exact .inl (List.mem_cons_of_mem d hd)
    · rcases List.mem_append.mp hc with hc | hc
      · obtain ⟨hmem, hne⟩ := List.mem_filter.mp hc
        refine .inr ⟨hmem, ?_⟩
        simp only [symbols, List.map_cons, List.mem_cons, not_or]
        exact ⟨by simpa using hne, hds⟩
      · exact .inl (by simp [List.mem_singleton.mp hc])

theorem mem_symbols_foldl_assignConstant {s : Nat} (h : s ∈ symbols cs) :
    s ∈ symbols (ds.foldl assignConstant cs) := by
  induction ds generalizing cs with
  | nil => exact h
  | cons d ds ih =>
    refine ih ?_
    obtain ⟨c, hc, rfl⟩ := List.mem_map.mp h
    by_cases hd : c.1 = d.1
    · exact List.mem_map.mpr ⟨d, by simp [assignConstant], hd.symm⟩
    · exact List.mem_map.mpr ⟨c, by simp [assignConstant, hc, hd], rfl⟩

theorem symbols_subset_foldl_assignConstant {s : Nat} (h : s ∈ symbols ds) :
    s ∈ symbols (ds.foldl assignConstant cs) := by
  induction ds generalizing cs with
  | nil => cases h
  | cons d ds ih =>
    rw [List.foldl_cons]
    rcases List.mem_cons.mp h with rfl | h
    · have hd : d.1 ∈ symbols (assignConstant cs d) :=
        List.mem_map.mpr ⟨d, List.mem_append_right _ (List.mem_singleton.mpr rfl), rfl⟩
      exact mem_symbols_foldl_assignConstant hd
    · exact ih h

theorem mem_foldl_emplaceConstant (h : c ∈ ds.foldl emplaceConstant cs) : c ∈ cs ∨ c ∈ ds := by
  induction ds generalizing cs with
  | nil => exact .inl h
  | cons d ds ih =>
    rcases ih h with hc | hd
    · unfold emplaceConstant at hc
      split at hc
      · exact .inl hc
      · rcases List.mem_append.mp hc with hc | hc
        · exact .inl hc
        · exact .inr (by simp [List.mem_singleton.mp hc])
    · exact .inr (List.mem_cons_of_mem d hd)

theorem not_mem_symbols_of_lookup {s : Nat} (h : cs.lookup s = none) : s ∉ symbols cs := by
  intro hmem
  obtain ⟨c, hc, rfl⟩ := List.mem_map.mp hmem
  have := List.lookup_eq_none_iff.mp h c hc
  simp at this

theorem exists_lookup_of_mem_symbols {s : Nat} (h : s ∈ symbols cs) : ∃ v, cs.lookup s = some v := by
  cases hlookup : cs.lookup s with
  | some v => exact ⟨v, rfl⟩
  | none => exact absurd h (not_mem_symbols_of_lookup hlookup)

end Maps

/-! ## Closing over complement pairs -/

section Complements
variable {p}

/-- What a pair adds to a map. -/
theorem closeComplementPair_cases (cs : Constants) (pr : Nat × Nat) :
    closeComplementPair cs pr = cs ∨
    (∃ v, (pr.1, v) ∈ cs ∧ pr.2 ∉ symbols cs ∧ closeComplementPair cs pr = cs ++ [(pr.2, !v)]) ∨
    ∃ v, (pr.2, v) ∈ cs ∧ pr.1 ∉ symbols cs ∧ closeComplementPair cs pr = cs ++ [(pr.1, !v)] := by
  unfold closeComplementPair
  cases h₁ : cs.lookup pr.1 with
  | some v =>
    cases h₂ : cs.lookup pr.2 with
    | some w => exact .inl rfl
    | none => exact .inr (.inl ⟨v, mem_of_lookup h₁, not_mem_symbols_of_lookup h₂, rfl⟩)
  | none =>
    cases h₂ : cs.lookup pr.2 with
    | some w => exact .inr (.inr ⟨w, mem_of_lookup h₂, not_mem_symbols_of_lookup h₁, rfl⟩)
    | none => exact .inl rfl

theorem subset_foldl_closeComplementPair (pairs : List (Nat × Nat)) (cs : Constants) :
    cs ⊆ pairs.foldl closeComplementPair cs := by
  induction pairs generalizing cs with
  | nil => exact List.Subset.refl cs
  | cons pr pairs ih =>
    refine List.Subset.trans ?_ (ih _)
    rcases closeComplementPair_cases cs pr with h | ⟨_, _, _, h⟩ | ⟨_, _, _, h⟩
    · rw [h]
      exact List.Subset.refl cs
    · rw [h]
      exact List.subset_append_left _ _
    · rw [h]
      exact List.subset_append_left _ _

theorem subset_closeComplement (cs : Constants) : cs ⊆ p.closeComplementStateConstants cs :=
  subset_foldl_closeComplementPair _ cs

theorem symbols_subset {cs ds : Constants} (h : cs ⊆ ds) {s : Nat} (hs : s ∈ symbols cs) :
    s ∈ symbols ds := by
  obtain ⟨c, hc, rfl⟩ := List.mem_map.mp hs
  exact List.mem_map.mpr ⟨c, h hc, rfl⟩

/-- What the closure adds follows from what is there through pairs whose other symbol
was not given. -/
theorem foldl_closeComplementPair_induction {P : Nat × Bool → Prop} {known : Nat → Prop}
    {pairs : List (Nat × Nat)} {cs : Constants} (hcs : ∀ c ∈ cs, P c)
    (hknown : ∀ s, known s → s ∈ symbols cs)
    (hright : ∀ pr ∈ pairs, ∀ v, P (pr.1, v) → ¬ known pr.2 → P (pr.2, !v))
    (hleft : ∀ pr ∈ pairs, ∀ v, P (pr.2, v) → ¬ known pr.1 → P (pr.1, !v)) :
    ∀ c ∈ pairs.foldl closeComplementPair cs, P c := by
  induction pairs generalizing cs with
  | nil => exact hcs
  | cons pr pairs ih =>
    have hstep : ∀ c ∈ closeComplementPair cs pr, P c := by
      rcases closeComplementPair_cases cs pr with h | ⟨v, hv, hnew, h⟩ | ⟨v, hv, hnew, h⟩
      · rw [h]
        exact hcs
      · rw [h]
        intro c hc
        rcases List.mem_append.mp hc with hc | hc
        · exact hcs c hc
        · rw [List.mem_singleton.mp hc]
          exact hright pr (by simp) v (hcs _ hv) fun hk => hnew (hknown _ hk)
      · rw [h]
        intro c hc
        rcases List.mem_append.mp hc with hc | hc
        · exact hcs c hc
        · rw [List.mem_singleton.mp hc]
          exact hleft pr (by simp) v (hcs _ hv) fun hk => hnew (hknown _ hk)
    have hgrow : cs ⊆ closeComplementPair cs pr := subset_foldl_closeComplementPair [pr] cs
    exact ih hstep (fun s hs => symbols_subset hgrow (hknown s hs))
      (fun q hq => hright q (by simp [hq])) fun q hq => hleft q (by simp [hq])

/-- Complements of true constants are true. -/
theorem constantsHold_closeComplement {cs : Constants} {σ : Valuation} (hσ : p.DomainValid σ)
    (h : ConstantsHold cs σ) : ConstantsHold (p.closeComplementStateConstants cs) σ := by
  refine @foldl_closeComplementPair_induction (fun c => lit σ c.1 = c.2) (fun _ => False) _ _ h (fun s hs => hs.elim) (fun pr hpr v hv _ => ?_)
    fun pr hpr v hv _ => ?_
  · exact (hσ.complemented pr hpr).trans (congrArg _ hv)
  · have hpair := hσ.complemented pr hpr
    rw [show lit σ pr.2 = v from hv] at hpair
    simp [hpair]

theorem hold_closeAuxiliary {X : AuxiliaryStateInvariants} {σ : Valuation} (hσ : p.DomainValid σ)
    (h : X.Hold σ) : (p.closeAuxiliaryInvariantConstantComplements X).Hold σ where
  constants := by
    refine constantsHold_closeComplement hσ fun c hc => h.constants c ?_
    simpa using mem_foldl_emplaceConstant hc
  equalities := h.equalities

/-- No symbol is in two complement pairs: a state has at most one complement. -/
def SeparateComplements (p : KInductionProblem) : Prop :=
  p.complementedStatePairs.Pairwise fun pr qr =>
    pr.1 ≠ qr.1 ∧ pr.1 ≠ qr.2 ∧ pr.2 ≠ qr.1 ∧ pr.2 ≠ qr.2

/-- The symbols of a pair that no later pair mentions are settled. -/
theorem mem_symbols_foldl_of_disjoint {pairs : List (Nat × Nat)} {cs : Constants} {s : Nat}
    (hs : ∀ qr ∈ pairs, s ≠ qr.1 ∧ s ≠ qr.2) :
    s ∈ symbols (pairs.foldl closeComplementPair cs) ↔ s ∈ symbols cs := by
  induction pairs generalizing cs with
  | nil => exact Iff.rfl
  | cons pr pairs ih =>
    rw [List.foldl_cons, ih fun qr hqr => hs qr (by simp [hqr])]
    obtain ⟨hne₁, hne₂⟩ := hs pr (by simp)
    rcases closeComplementPair_cases cs pr with h | ⟨_, _, _, h⟩ | ⟨_, _, _, h⟩
    · rw [h]
    · rw [h]
      simp [symbols, hne₂]
    · rw [h]
      simp [symbols, hne₁]

theorem closed_foldl_closeComplementPair {pairs : List (Nat × Nat)} (cs : Constants)
    (hpairs : pairs.Pairwise fun pr qr =>
      pr.1 ≠ qr.1 ∧ pr.1 ≠ qr.2 ∧ pr.2 ≠ qr.1 ∧ pr.2 ≠ qr.2) :
    ∀ pr ∈ pairs, pr.1 ∈ symbols (pairs.foldl closeComplementPair cs) ↔
      pr.2 ∈ symbols (pairs.foldl closeComplementPair cs) := by
  induction pairs generalizing cs with
  | nil => simp
  | cons pr pairs ih =>
    obtain ⟨hhead, htail⟩ := List.pairwise_cons.mp hpairs
    intro qr hqr
    rcases List.mem_cons.mp hqr with rfl | hqr
    · rw [List.foldl_cons, mem_symbols_foldl_of_disjoint fun q hq => ⟨(hhead q hq).1, (hhead q hq).2.1⟩,
        mem_symbols_foldl_of_disjoint fun q hq => ⟨(hhead q hq).2.2.1, (hhead q hq).2.2.2⟩]
      unfold closeComplementPair
      cases h₁ : cs.lookup qr.1 with
      | some v =>
        have hmem₁ : qr.1 ∈ symbols cs := List.mem_map.mpr ⟨_, mem_of_lookup h₁, rfl⟩
        cases h₂ : cs.lookup qr.2 with
        | some w => exact iff_of_true hmem₁ (List.mem_map.mpr ⟨_, mem_of_lookup h₂, rfl⟩)
        | none =>
          exact iff_of_true (by simp only [symbols, List.map_append]; exact List.mem_append_left _ hmem₁)
            (by simp [symbols])
      | none =>
        cases h₂ : cs.lookup qr.2 with
        | some w =>
          have hmem₂ : qr.2 ∈ symbols cs := List.mem_map.mpr ⟨_, mem_of_lookup h₂, rfl⟩
          exact iff_of_true (by simp [symbols])
            (by simp only [symbols, List.map_append]; exact List.mem_append_left _ hmem₂)
        | none => exact iff_of_false (not_mem_symbols_of_lookup h₁) (not_mem_symbols_of_lookup h₂)
    · exact ih _ htail qr hqr

end Complements

end KInductionProblem

end KeplerFormal
