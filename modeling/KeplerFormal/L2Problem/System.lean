import KeplerFormal.Core.PairClosure
import KeplerFormal.L1Formula.FrameQuery
import KeplerFormal.L2Problem.Problem

/-!
# The transition system of a problem

What the queries of the proof engines talk about: frames are valuations, a step
gives every symbol with a transition its next value (a complemented symbol
without one follows its primary), and the relation pairs of the problem are
meant to hold in every frame.

* `Advance`, `successor`: one step, and the step under chosen input values.
* `DomainValid`, `PreservesDomain`: the relations of one frame, and that a step
  keeps them.
* `Path`, `spliced`: finite runs, and the run that skips the frames between two
  that agree.
* `InitialStates`, `InitialStates.Run`: start states that do not look at inputs and
  whose runs keep the relations.
-/
namespace KeplerFormal

/-- The value a frame gives to a symbol's literal. -/
def lit (σ : Valuation) (s : Nat) : Bool := (BoolExpr.var s).eval σ

@[simp] theorem eval_var_eq_lit (σ : Valuation) (s : Nat) : (BoolExpr.var s).eval σ = lit σ s := rfl

theorem lit_of_two_le {s : Nat} (σ : Valuation) (h : 2 ≤ s) : lit σ s = σ s :=
  BoolExpr.eval_var σ h

theorem lit_of_lt_two {s : Nat} (σ τ : Valuation) (h : s < 2) : lit σ s = lit τ s := by
  match s with
  | 0 => rfl
  | 1 => rfl
  | n + 2 => omega

/-- The value depends only on the literals of the support. -/
theorem BoolExpr.eval_congr_lit {σ τ : Valuation} {e : BoolExpr}
    (h : ∀ s ∈ e.getSupportVars, 2 ≤ s → lit σ s = lit τ s) : e.eval σ = e.eval τ :=
  BoolExpr.eval_congr fun s hs h2 => by
    rw [← lit_of_two_le σ h2, ← lit_of_two_le τ h2]
    exact h s hs h2

namespace KInductionProblem
variable (p : KInductionProblem)

/-! ## One step -/

/-- The value the transitions force on a symbol in the next frame. -/
def nextStateOf (σ : Valuation) (s : Nat) : Option Bool :=
  match p.transitionAt s with
  | some e => some (e.eval σ)
  | none => match p.primaryByComplement s with
    | some a => (p.transitionAt a).map fun e => !e.eval σ
    | none => none

def Advance (σ σ' : Valuation) : Prop := ∀ s v, p.nextStateOf σ s = some v → lit σ' s = v

/-- The next frame in which every free symbol takes its value from `u`. -/
def successor (σ u : Valuation) : Valuation := fun s => (p.nextStateOf σ s).getD (u s)

/-! ## Relations of one frame -/

/-- mirrors src/sec/kinduction/BaseCaseSolver.cpp:1066-1146 with every symbol in scope -/
structure DomainValid (σ : Valuation) : Prop where
  complemented : ∀ pr ∈ p.complementedStatePairs, lit σ pr.2 = !lit σ pr.1
  equal : ∀ pr ∈ p.sameFrameStateEqualityPairs, lit σ pr.1 = lit σ pr.2
  rails : ∀ r ∈ p.dualRailStatePairs, (lit σ r.mayBeOne || lit σ r.mayBeZero) = true

/-- "the encoded transition preserves legality" (BaseCaseSolver.cpp:1137-1141),
for all three kinds of relation. -/
def PreservesDomain : Prop :=
  ∀ σ σ', p.DomainValid σ → p.Advance σ σ' → p.DomainValid σ'

/-- The relation pairs are between state symbols; a complemented symbol always is one. -/
structure RelatesStates : Prop where
  complements : ∀ pr ∈ p.complementedStatePairs, pr.1 ∈ p.combinedStateSymbols
  equalities : ∀ pr ∈ p.sameFrameStateEqualityPairs,
    pr.1 ∈ p.combinedStateSymbols ∧ pr.2 ∈ p.combinedStateSymbols
  rails : ∀ r ∈ p.dualRailStatePairs,
    r.mayBeOne ∈ p.combinedStateSymbols ∧ r.mayBeZero ∈ p.combinedStateSymbols

/-- The reset controls carry the value that leaves reset. -/
def ResetDeasserted (σ : Valuation) : Prop :=
  ∀ r ∈ p.resetBootstrapInputs, lit σ r.1 = !r.2

def ResetAsserted (σ : Valuation) : Prop :=
  ∀ r ∈ p.resetBootstrapInputs, lit σ r.1 = r.2

variable {p}

theorem nextStateOf_of_transition {σ : Valuation} {s : Nat} {e : BoolExpr}
    (h : p.transitionAt s = some e) : p.nextStateOf σ s = some (e.eval σ) := by
  simp only [nextStateOf, h]

theorem nextStateOf_of_primary {σ : Valuation} {s a : Nat} {e : BoolExpr}
    (h : p.transitionAt s = none) (hp : p.primaryByComplement s = some a)
    (ha : p.transitionAt a = some e) : p.nextStateOf σ s = some (!e.eval σ) := by
  simp only [nextStateOf, h, hp, ha, Option.map_some]

/-- Where a forced next value comes from. -/
theorem nextStateOf_eq_some {σ : Valuation} {s : Nat} {v : Bool}
    (h : p.nextStateOf σ s = some v) :
    (∃ e, p.transitionAt s = some e ∧ v = e.eval σ) ∨
    (∃ a e, p.transitionAt s = none ∧ p.primaryByComplement s = some a ∧
      p.transitionAt a = some e ∧ v = !e.eval σ) := by
  unfold nextStateOf at h
  cases hs : p.transitionAt s with
  | some e =>
    simp only [hs, Option.some.injEq] at h
    exact .inl ⟨e, rfl, h.symm⟩
  | none =>
    cases hp : p.primaryByComplement s with
    | none => simp [hs, hp] at h
    | some a =>
      simp only [hs, hp] at h
      obtain ⟨e, he, hv⟩ := Option.map_eq_some_iff.mp h
      exact .inr ⟨a, e, rfl, rfl, he, hv.symm⟩

theorem mem_of_primaryByComplement {s a : Nat} (h : p.primaryByComplement s = some a) :
    (a, s) ∈ p.complementedStatePairs := by
  unfold primaryByComplement at h
  obtain ⟨pr, hfind, ha⟩ := Option.map_eq_some_iff.mp h
  have hmem := List.mem_of_find?_eq_some hfind
  have hs : pr.2 = s := by simpa using List.find?_some hfind
  rw [← ha, ← hs]
  exact hmem

/-- Equations and the relations of the next frame are all a step has to meet. -/
theorem advance_of_transitions {σ σ' : Valuation} (hdom : p.DomainValid σ')
    (h : ∀ s e, p.transitionAt s = some e → lit σ' s = e.eval σ) : p.Advance σ σ' := by
  intro s v hv
  rcases nextStateOf_eq_some hv with ⟨e, he, rfl⟩ | ⟨a, e, _, hp, ha, rfl⟩
  · exact h s e he
  · rw [hdom.complemented _ (mem_of_primaryByComplement hp), h a e ha]

theorem Advance.transition {σ σ' : Valuation} (h : p.Advance σ σ') {s : Nat} {e : BoolExpr}
    (he : p.transitionAt s = some e) : lit σ' s = e.eval σ :=
  h s _ (nextStateOf_of_transition he)

/-- Driven symbols are state symbols. -/
theorem mem_combinedStateSymbols_of_nextStateOf {σ : Valuation} {s : Nat} {v : Bool}
    (h : p.nextStateOf σ s = some v) : s ∈ p.combinedStateSymbols := by
  rcases nextStateOf_eq_some h with ⟨e, he, _⟩ | ⟨a, _, _, hp, _, _⟩
  · exact mem_combinedStateSymbols_of_contains (contains_iff.mpr ⟨e, he⟩)
  · exact p.complements_state s (List.mem_map.mpr ⟨_, mem_of_primaryByComplement hp, rfl⟩)

theorem two_le_of_nextStateOf {σ : Valuation} {s : Nat} {v : Bool}
    (h : p.nextStateOf σ s = some v) : 2 ≤ s :=
  p.reserved s (mem_combinedStateSymbols_of_nextStateOf h)

theorem lit_successor_of_some {σ u : Valuation} {s : Nat} {v : Bool}
    (h : p.nextStateOf σ s = some v) : lit (p.successor σ u) s = v := by
  rw [lit_of_two_le _ (two_le_of_nextStateOf h), successor, h, Option.getD_some]

theorem lit_successor_of_none {σ u : Valuation} {s : Nat} (h : p.nextStateOf σ s = none) :
    lit (p.successor σ u) s = lit u s := by
  rcases Nat.lt_or_ge s 2 with h2 | h2
  · exact lit_of_lt_two _ _ h2
  · rw [lit_of_two_le _ h2, lit_of_two_le _ h2, successor, h, Option.getD_none]

theorem advance_successor (σ u : Valuation) : p.Advance σ (p.successor σ u) :=
  fun _ _ h => lit_successor_of_some h

/-! ## Runs -/

/-- Steps `0 .. n-1` of the trace are steps of the problem. -/
def Path (p : KInductionProblem) (τ : Trace) (n : Nat) : Prop :=
  ∀ i < n, p.Advance (τ i) (τ (i + 1))

/-- State symbols from `σ`, everything else from `u`. -/
def withInputs (p : KInductionProblem) (σ u : Valuation) : Valuation :=
  fun s => if s ∈ p.combinedStateSymbols then σ s else u s

/-- The trace that leaves `τ` at frame `a`, as if frame `a + d` had come then, and
from there repeats the inputs of `τ` shifted by `d`. -/
def spliced (p : KInductionProblem) (τ : Trace) (a d : Nat) : Trace
  | 0 => if 0 < a then τ 0 else p.withInputs (τ 0) (τ d)
  | j + 1 =>
    if j + 1 < a then τ (j + 1)
    else if j + 1 = a then p.withInputs (τ a) (τ (a + d))
    else p.successor (spliced p τ a d j) (τ (j + 1 + d))

theorem lit_withInputs_of_mem {σ u : Valuation} {s : Nat} (h : s ∈ p.combinedStateSymbols) :
    lit (p.withInputs σ u) s = lit σ s := by
  have h2 := p.reserved s h
  rw [lit_of_two_le _ h2, lit_of_two_le _ h2, withInputs, if_pos h]

theorem lit_withInputs_of_not_mem {σ u : Valuation} {s : Nat} (h : s ∉ p.combinedStateSymbols) :
    lit (p.withInputs σ u) s = lit u s := by
  rcases Nat.lt_or_ge s 2 with h2 | h2
  · exact lit_of_lt_two _ _ h2
  · rw [lit_of_two_le _ h2, lit_of_two_le _ h2, withInputs, if_neg h]

/-- Relations between states do not look at inputs. -/
theorem DomainValid.withInputs {σ : Valuation} (h : p.DomainValid σ) (hrelates : p.RelatesStates)
    (u : Valuation) : p.DomainValid (p.withInputs σ u) where
  complemented pr hpr := by
    rw [lit_withInputs_of_mem (p.complements_state _ (List.mem_map.mpr ⟨pr, hpr, rfl⟩)),
      lit_withInputs_of_mem (hrelates.complements pr hpr)]
    exact h.complemented pr hpr
  equal pr hpr := by
    obtain ⟨hlhs, hrhs⟩ := hrelates.equalities pr hpr
    rw [lit_withInputs_of_mem hlhs, lit_withInputs_of_mem hrhs]
    exact h.equal pr hpr
  rails r hr := by
    obtain ⟨hone, hzero⟩ := hrelates.rails r hr
    rw [lit_withInputs_of_mem hone, lit_withInputs_of_mem hzero]
    exact h.rails r hr

theorem Advance.withInputs {σ σ' : Valuation} (h : p.Advance σ σ') (u : Valuation) :
    p.Advance σ (p.withInputs σ' u) := by
  intro s v hv
  rw [lit_withInputs_of_mem (mem_combinedStateSymbols_of_nextStateOf hv)]
  exact h s v hv

theorem spliced_of_lt {τ : Trace} {a d i : Nat} (h : i < a) : p.spliced τ a d i = τ i := by
  cases i with
  | zero => simp only [spliced, h, if_true]
  | succ i => simp only [spliced, h, if_true]

theorem spliced_at (τ : Trace) (a d : Nat) :
    p.spliced τ a d a = p.withInputs (τ a) (τ (a + d)) := by
  cases a with
  | zero => simp [spliced]
  | succ a => simp [spliced]

theorem spliced_after {τ : Trace} {a d j : Nat} (h : a ≤ j) :
    p.spliced τ a d (j + 1) = p.successor (p.spliced τ a d j) (τ (j + 1 + d)) := by
  have h1 : ¬ j + 1 < a := by omega
  have h2 : j + 1 ≠ a := by omega
  simp only [spliced, h1, h2, if_false]

theorem path_spliced {τ : Trace} {a d n : Nat} (hpath : p.Path τ n) (ha : a ≤ n) (m : Nat) :
    p.Path (p.spliced τ a d) m := by
  intro i _
  rcases Nat.lt_trichotomy (i + 1) a with h | h | h
  · rw [spliced_of_lt (show i < a by omega), spliced_of_lt h]
    exact hpath i (by omega)
  · rw [spliced_of_lt (show i < a by omega)]
    subst h
    rw [spliced_at]
    exact (hpath i (by omega)).withInputs _
  · rw [spliced_after (show a ≤ i by omega)]
    exact advance_successor _ _

/-- From frame `a` on, a non-state symbol carries the shifted inputs. -/
theorem lit_spliced_input {τ : Trace} {a d j s : Nat} (h : a ≤ j)
    (hs : s ∉ p.combinedStateSymbols) : lit (p.spliced τ a d j) s = lit (τ (j + d)) s := by
  rcases Nat.eq_or_lt_of_le h with rfl | hlt
  · rw [spliced_at, lit_withInputs_of_not_mem hs]
  · obtain ⟨i, rfl⟩ : ∃ i, j = i + 1 := ⟨j - 1, by omega⟩
    rw [spliced_after (show a ≤ i by omega)]
    refine lit_successor_of_none ?_
    cases hv : p.nextStateOf (p.spliced τ a d i) s with
    | none => rfl
    | some v => exact absurd (mem_combinedStateSymbols_of_nextStateOf hv) hs

/-- Reset controls are inputs, so the spliced run keeps them where the original
run does. -/
theorem resetDeasserted_spliced {τ : Trace} {a d n : Nat} (ha : a + d ≤ n)
    (h : ∀ i ≤ n, p.ResetDeasserted (τ i)) : ∀ j ≤ n - d, p.ResetDeasserted (p.spliced τ a d j) := by
  intro j hj r hr
  have hinput : r.1 ∉ p.combinedStateSymbols :=
    p.resets_input r.1 (List.mem_map.mpr ⟨r, hr, rfl⟩)
  rcases Nat.lt_or_ge j a with hlt | hge
  · rw [spliced_of_lt hlt]
    exact h j (by omega) r hr
  · rw [lit_spliced_input hge hinput]
    exact h (j + d) (by omega) r hr

/-! ## Start states -/

/-- A set of start states of the post-reset system. It looks at state symbols
only, and the relations hold in every frame of every run from it
(KInductionProblem.h:171-176). -/
structure InitialStates (p : KInductionProblem) where
  start : Valuation → Prop
  start_state : ∀ σ υ, (∀ s ∈ p.combinedStateSymbols, lit υ s = lit σ s) → start σ → start υ
  domain : ∀ τ n, start (τ 0) → p.Path τ n →
    (p.resetBootstrapCycles ≠ 0 → ∀ i ≤ n, p.ResetDeasserted (τ i)) →
    ∀ i ≤ n, p.DomainValid (τ i)

/-- A run of `n` steps from a start state, with the reset controls released. -/
structure InitialStates.Run (I : InitialStates p) (τ : Trace) (n : Nat) : Prop where
  start : I.start (τ 0)
  path : p.Path τ n
  reset : p.resetBootstrapCycles ≠ 0 → ∀ i ≤ n, p.ResetDeasserted (τ i)

theorem InitialStates.Run.take {I : InitialStates p} {τ : Trace} {m n : Nat} (h : I.Run τ n)
    (hm : m ≤ n) : I.Run τ m where
  start := h.start
  path i hi := h.path i (by omega)
  reset hc i hi := h.reset hc i (by omega)

theorem InitialStates.Run.spliced {I : InitialStates p} {τ : Trace} {a d n : Nat}
    (h : I.Run τ n) (ha : a + d ≤ n) : I.Run (p.spliced τ a d) (n - d) where
  start := by
    rcases Nat.eq_zero_or_pos a with rfl | hpos
    · rw [spliced_at]
      exact I.start_state (τ 0) _ (fun s hs => lit_withInputs_of_mem hs) h.start
    · rw [spliced_of_lt hpos]
      exact h.start
  path := path_spliced h.path (by omega) _
  reset hc := resetDeasserted_spliced ha (h.reset hc)

end KInductionProblem
end KeplerFormal
