import Mathlib.Data.List.Nodup
import Mathlib.Data.List.Pairwise
import KeplerFormal.L4Engine.InternalRelations

/-!
# Replay of a counterexample (`src/sec/proof/InternalRelations.cpp`)

A pattern is one bit of every word. In a valid pattern of the start all active relations hold and
rails are valid, also where solver values meet random rails; a step of the transitions keeps both
for a set of candidates that is one-step inductive, while the other registers stay frozen.

* `RelatesValues`, `WellFormed`: candidates relate complete values.
* `copyPairs_rails`: overwriting right-hand registers keeps what holds of both rails.
* `railsValid_start`: the start patterns have valid rails.
* `refuteBySimulation_keeps`: no member of an inductive set is refuted.
-/
namespace KeplerFormal
namespace InternalRelations

open KInductionProblem (two_le_of_contains contains_iff)

variable {p : KInductionProblem}

/-! ## Complete values -/

def railSymbols (p : KInductionProblem) : List Nat :=
  p.dualRailStatePairs.flatMap fun v => [v.mayBeOne, v.mayBeZero]

/-- "A candidate relates complete values, never independently matched X rails."
mirrors src/sec/proof/InternalRelations.cpp:339-354 -/
inductive RelatesValues (c : InternalRelationCandidate p) : Prop
  | rails (u v : DualRailSymbolPair) (hu : u ∈ p.dualRailStatePairs)
      (hv : v ∈ p.dualRailStatePairs)
      (hequal : c.equalities = [(u.mayBeOne, v.mayBeOne), (u.mayBeZero, v.mayBeZero)])
      (hvalues : c.values = [u, v])
  | bits (lhs rhs : Nat) (hlhs : lhs ∉ railSymbols p) (hrhs : rhs ∉ railSymbols p)
      (hequal : c.equalities = [(lhs, rhs)]) (hvalues : c.values = [])

theorem RelatesValues.complete {c : InternalRelationCandidate p} (h : RelatesValues c) :
    c.Complete := by
  intro w hw
  cases h with
  | rails u v hu hv _ hvalues =>
    rw [hvalues] at hw
    rcases List.mem_pair.mp hw with rfl | rfl
    · exact hu
    · exact hv
  | bits _ _ _ _ _ hvalues =>
    rw [hvalues] at hw
    cases hw

/-- Registers have words, and no symbol is a rail twice. -/
structure WellFormed (p : KInductionProblem) (candidates : Candidates p) : Prop where
  relates : ∀ c ∈ candidates, RelatesValues c
  known : ∀ c ∈ candidates, ∀ pr ∈ c.equalities, pr.1 ∈ p.allSymbols ∧ pr.2 ∈ p.allSymbols
  reserved : ∀ s ∈ railSymbols p, 2 ≤ s
  nodup : (railSymbols p).Nodup

/-- "the encoded transition preserves legality" (BaseCaseSolver.cpp:1137-1141). -/
def PreservesRails (p : KInductionProblem) : Prop :=
  ∀ σ σ', RailsValid p σ → FollowsTransitions p σ σ' → RailsValid p σ'

theorem WellFormed.subset {candidates active : Candidates p} (h : WellFormed p candidates)
    (hsub : ∀ c ∈ active, c ∈ candidates) : WellFormed p active :=
  ⟨fun c hc => h.relates c (hsub c hc), fun c hc => h.known c (hsub c hc), h.reserved, h.nodup⟩

theorem one_mem_railSymbols {v : DualRailSymbolPair} (h : v ∈ p.dualRailStatePairs) :
    v.mayBeOne ∈ railSymbols p := List.mem_flatMap.mpr ⟨v, h, by simp⟩

theorem zero_mem_railSymbols {v : DualRailSymbolPair} (h : v ∈ p.dualRailStatePairs) :
    v.mayBeZero ∈ railSymbols p := List.mem_flatMap.mpr ⟨v, h, by simp⟩

theorem mem_railSymbols_iff {s : Nat} : s ∈ railSymbols p ↔
    ∃ v ∈ p.dualRailStatePairs, s = v.mayBeOne ∨ s = v.mayBeZero := by
  unfold railSymbols
  simp

/-- Two rail pairs that share a symbol are one pair, and share it on the same side. -/
theorem rails_distinct (h : (railSymbols p).Nodup) {u v : DualRailSymbolPair}
    (hu : u ∈ p.dualRailStatePairs) (hv : v ∈ p.dualRailStatePairs) :
    (u.mayBeOne = v.mayBeOne → u = v) ∧ (u.mayBeZero = v.mayBeZero → u = v) ∧
      u.mayBeOne ≠ v.mayBeZero := by
  obtain ⟨hown, hpairs⟩ := List.nodup_flatMap.mp h
  by_cases hsame : u = v
  · subst hsame
    have hne := hown u hu
    exact ⟨fun _ => rfl, fun _ => rfl, by simpa using hne⟩
  · have hsymm : Std.Symm (Function.onFun List.Disjoint fun v : DualRailSymbolPair =>
        [v.mayBeOne, v.mayBeZero]) := ⟨fun _ _ h => h.symm⟩
    have hdisjoint := hpairs.forall hu hv hsame
    have hnot : ∀ s, s ∈ [u.mayBeOne, u.mayBeZero] → s ∈ [v.mayBeOne, v.mayBeZero] → False :=
      fun s hs hs' => hdisjoint hs hs'
    refine ⟨fun heq => (hnot u.mayBeOne (by simp) (by simp [heq])).elim,
      fun heq => (hnot u.mayBeZero (by simp) (by simp [heq])).elim,
      fun heq => hnot u.mayBeOne (by simp) (by simp [heq])⟩

/-! ## Overwriting right-hand registers -/

/-- Each right-hand register takes the value of the left-hand one, in order. -/
def copyPairs {α : Type} (prs : List (Nat × Nat)) (f : Nat → α) : Nat → α :=
  prs.foldl (fun f pr => Function.update f pr.2 (f pr.1)) f

def copyActive {α : Type} (active : Candidates p) (f : Nat → α) : Nat → α :=
  active.foldl (fun f c => copyPairs c.equalities f) f

/-- What holds of the two values of every pair holds after a copy of complete values. -/
theorem copyPairs_rails {α : Type} {Q : α → α → Prop} {c : InternalRelationCandidate p}
    (hc : RelatesValues c) (hnodup : (railSymbols p).Nodup) {f : Nat → α}
    (h : ∀ v ∈ p.dualRailStatePairs, Q (f v.mayBeOne) (f v.mayBeZero)) :
    ∀ v ∈ p.dualRailStatePairs,
      Q (copyPairs c.equalities f v.mayBeOne) (copyPairs c.equalities f v.mayBeZero) := by
  intro w hw
  cases hc with
  | bits lhs rhs hlhs hrhs hequal =>
    have hone : w.mayBeOne ≠ rhs := fun hsame => hrhs (hsame ▸ one_mem_railSymbols hw)
    have hzero : w.mayBeZero ≠ rhs := fun hsame => hrhs (hsame ▸ zero_mem_railSymbols hw)
    simp only [copyPairs, hequal, List.foldl_cons, List.foldl_nil]
    rw [Function.update_of_ne hone, Function.update_of_ne hzero]
    exact h w hw
  | rails u v hu hv hequal =>
    simp only [copyPairs, hequal, List.foldl_cons, List.foldl_nil]
    have huv : u.mayBeZero ≠ v.mayBeOne := (rails_distinct hnodup hv hu).2.2.symm
    rw [Function.update_of_ne huv]
    have hone := (rails_distinct hnodup hw hv).2.2
    have hzero := (rails_distinct hnodup hv hw).2.2.symm
    rw [Function.update_of_ne hone]
    by_cases hsame : w = v
    · rw [hsame, Function.update_self, Function.update_self]
      exact h u hu
    · have hone' : w.mayBeOne ≠ v.mayBeOne := fun heq =>
        hsame ((rails_distinct hnodup hw hv).1 heq)
      have hzero' : w.mayBeZero ≠ v.mayBeZero := fun heq =>
        hsame ((rails_distinct hnodup hw hv).2.1 heq)
      rw [Function.update_of_ne hone', Function.update_of_ne hzero', Function.update_of_ne hzero]
      exact h w hw

/-- What holds of the values of the Boolean registers holds after a copy. -/
theorem copyPairs_bits {α : Type} {P : α → Prop} {c : InternalRelationCandidate p}
    (hc : RelatesValues c) {f : Nat → α} (h : ∀ s ∉ railSymbols p, P (f s)) :
    ∀ s ∉ railSymbols p, P (copyPairs c.equalities f s) := by
  intro s hs
  cases hc with
  | bits lhs rhs hlhs hrhs hequal =>
    simp only [copyPairs, hequal, List.foldl_cons, List.foldl_nil]
    by_cases hsame : s = rhs
    · rw [hsame, Function.update_self]
      exact h lhs hlhs
    · rw [Function.update_of_ne hsame]
      exact h s hs
  | rails u v hu hv hequal =>
    have hone : s ≠ v.mayBeOne := fun hsame => hs (hsame ▸ one_mem_railSymbols hv)
    have hzero : s ≠ v.mayBeZero := fun hsame => hs (hsame ▸ zero_mem_railSymbols hv)
    simp only [copyPairs, hequal, List.foldl_cons, List.foldl_nil]
    rw [Function.update_of_ne hzero, Function.update_of_ne hone]
    exact h s hs

theorem copyActive_rails {α : Type} {Q : α → α → Prop} {active : Candidates p}
    (hwf : WellFormed p active) {f : Nat → α}
    (h : ∀ v ∈ p.dualRailStatePairs, Q (f v.mayBeOne) (f v.mayBeZero)) :
    ∀ v ∈ p.dualRailStatePairs, Q (copyActive active f v.mayBeOne) (copyActive active f v.mayBeZero)
    := by
  induction active generalizing f with
  | nil => exact h
  | cons c active ih =>
    apply ih (hwf.subset fun d hd => List.mem_cons_of_mem c hd)
    exact copyPairs_rails (hwf.relates c List.mem_cons_self) hwf.nodup h

theorem copyActive_bits {α : Type} {P : α → Prop} {active : Candidates p}
    (hwf : WellFormed p active) {f : Nat → α} (h : ∀ s ∉ railSymbols p, P (f s)) :
    ∀ s ∉ railSymbols p, P (copyActive active f s) := by
  induction active generalizing f with
  | nil => exact h
  | cons c active ih =>
    apply ih (hwf.subset fun d hd => List.mem_cons_of_mem c hd)
    exact copyPairs_bits (hwf.relates c List.mem_cons_self) h

/-! ## Patterns -/

/-- One pattern of a word. -/
def bit (k : Nat) (w : UInt64) : Bool := w.toBitVec.getLsbD k

@[simp] theorem bit_and (k : Nat) (a b : UInt64) : bit k (a &&& b) = (bit k a && bit k b) := by
  simp [bit]

@[simp] theorem bit_or (k : Nat) (a b : UInt64) : bit k (a ||| b) = (bit k a || bit k b) := by
  simp [bit]

@[simp] theorem bit_xor (k : Nat) (a b : UInt64) : bit k (a ^^^ b) = (bit k a ^^ bit k b) := by
  simp [bit]

theorem bit_not {k : Nat} (hk : k < 64) (w : UInt64) : bit k (~~~w) = !bit k w := by
  simp [bit, hk]

@[simp] theorem bit_zero (k : Nat) : bit k 0 = false := by simp [bit]

theorem bit_one (k : Nat) : bit k 1 = decide (k = 0) := by simp [bit]

theorem eq_zero_of_bits {w : UInt64} (h : ∀ k < 64, bit k w = false) : w = 0 := by
  apply UInt64.eq_of_toBitVec_eq
  apply BitVec.eq_of_getLsbD_eq
  intro k hk
  exact (h k hk).trans (bit_zero k).symm

theorem bit_foldl_and {α : Type} (k : Nat) (f : α → UInt64) (xs : List α) (w : UInt64) :
    bit k (xs.foldl (fun w x => w &&& f x) w) = (bit k w && xs.all fun x => bit k (f x)) := by
  induction xs generalizing w with
  | nil => simp
  | cons x xs ih => rw [List.foldl_cons, ih, bit_and, List.all_cons, Bool.and_assoc]

theorem bit_evaluateWords {k : Nat} (hk : k < 64) (leaf : Nat → UInt64) (e : BoolExpr) :
    bit k (evaluateWords leaf e) = e.eval fun s => bit k (leaf s) := by
  induction e with
  | var id =>
    match id with
    | 0 => exact bit_zero k
    | 1 =>
      show bit k (~~~0) = true
      rw [bit_not hk, bit_zero]
      rfl
    | n + 2 => rfl
  | and a b iha ihb => rw [evaluateWords, bit_and, iha, ihb]; rfl
  | or a b iha ihb => rw [evaluateWords, bit_or, iha, ihb]; rfl
  | not a ih => rw [evaluateWords, bit_not hk, ih]; rfl
  | xor a b iha ihb => rw [evaluateWords, bit_xor, iha, ihb]; rfl

/-- The state that a pattern stores. -/
def patternOf (state : Words) (k : Nat) : Valuation := fun s => bit k ((state s).getD 0)

/-- The frame that a pattern simulates, with a drawn value for every symbol without a word. -/
def frameOf (state : Words) (input : Nat → UInt64) (k : Nat) : Valuation := fun s =>
  bit k ((state s).getD (input s))

@[simp] theorem patternOf_set (state : Words) (s : Nat) (w : UInt64) (k : Nat) :
    patternOf (state.set s w) k = Function.update (patternOf state k) s (bit k w) := by
  funext t
  unfold patternOf Words.set
  by_cases h : t = s
  · subst h
    simp
  · simp [h]

theorem lit_patternOf {s : Nat} (h : 2 ≤ s) (state : Words) (k : Nat) :
    lit (patternOf state k) s = bit k ((state s).getD 0) := lit_of_two_le _ h

/-! ## Relations of a pattern -/

def registers (c : InternalRelationCandidate p) : List Nat :=
  c.equalities.flatMap fun pr => [pr.1, pr.2]

theorem mem_registers {c : InternalRelationCandidate p} {s : Nat} :
    s ∈ registers c ↔ ∃ pr ∈ c.equalities, s = pr.1 ∨ s = pr.2 := by
  unfold registers
  simp

theorem RelatesValues.values_mem {c : InternalRelationCandidate p} (hc : RelatesValues c) :
    ∀ v ∈ c.values, v.mayBeOne ∈ registers c ∧ v.mayBeZero ∈ registers c := by
  intro w hw
  cases hc with
  | rails u v hu hv hequal hvalues =>
    rw [hvalues] at hw
    simp only [mem_registers, hequal]
    rcases List.mem_pair.mp hw with rfl | rfl
    · simp
    · simp
  | bits lhs rhs hlhs hrhs hequal hvalues =>
    rw [hvalues] at hw
    cases hw

/-- A relation is about the registers of the candidate. -/
theorem RelationHolds.congr {c : InternalRelationCandidate p} {allowX : Bool} {σ τ : Valuation}
    (hc : RelatesValues c) (h : RelationHolds c allowX σ)
    (hsame : ∀ s ∈ registers c, lit σ s = lit τ s) : RelationHolds c allowX τ := by
  refine ⟨fun pr hpr => ?_, fun hx v hv => ?_⟩
  · rw [← hsame pr.1 (mem_registers.mpr ⟨pr, hpr, .inl rfl⟩),
      ← hsame pr.2 (mem_registers.mpr ⟨pr, hpr, .inr rfl⟩)]
    exact h.equal pr hpr
  · rw [← hsame _ (hc.values_mem v hv).1, ← hsame _ (hc.values_mem v hv).2]
    exact h.defined hx v hv

theorem bit_relationWord {c : InternalRelationCandidate p} (hc : RelatesValues c)
    (h2 : ∀ s ∈ registers c, 2 ≤ s) {k : Nat} (hk : k < 64) (state : Words) (allowX : Bool) :
    bit k (relationWord c state allowX) = true ↔ RelationHolds c allowX (patternOf state k) := by
  have hequal : (∀ pr ∈ c.equalities,
      bit k (~~~((state pr.1).getD 0 ^^^ (state pr.2).getD 0)) = true) ↔
      ∀ pr ∈ c.equalities, lit (patternOf state k) pr.1 = lit (patternOf state k) pr.2 := by
    refine forall_congr' fun pr => imp_congr_right fun hpr => ?_
    rw [lit_patternOf (h2 _ (mem_registers.mpr ⟨pr, hpr, .inl rfl⟩)),
      lit_patternOf (h2 _ (mem_registers.mpr ⟨pr, hpr, .inr rfl⟩)), bit_not hk, bit_xor]
    simp
  have hdefined : (∀ v ∈ c.values,
      bit k ((state v.mayBeOne).getD 0 ^^^ (state v.mayBeZero).getD 0) = true) ↔
      ∀ v ∈ c.values, lit (patternOf state k) v.mayBeOne ≠ lit (patternOf state k) v.mayBeZero := by
    refine forall_congr' fun v => imp_congr_right fun hv => ?_
    rw [lit_patternOf (h2 _ (hc.values_mem v hv).1), lit_patternOf (h2 _ (hc.values_mem v hv).2),
      bit_xor]
    simp
  have hfirst : bit k (~~~0) = true := by rw [bit_not hk, bit_zero]; rfl
  cases allowX with
  | true =>
    simp only [relationWord, if_true, bit_foldl_and, hfirst, Bool.true_and, List.all_eq_true]
    rw [hequal]
    exact ⟨fun h => ⟨h, fun hfalse => Bool.noConfusion hfalse⟩, fun h => h.equal⟩
  | false =>
    simp only [relationWord, Bool.false_eq_true, if_false, bit_foldl_and, hfirst, Bool.true_and,
      Bool.and_eq_true, List.all_eq_true]
    rw [hequal, hdefined]
    exact ⟨fun h => ⟨h.1, fun _ => h.2⟩, fun h => ⟨h.equal, h.defined rfl⟩⟩

theorem railsValid_iff (hreserved : ∀ s ∈ railSymbols p, 2 ≤ s) (σ : Valuation) :
    RailsValid p σ ↔ ∀ v ∈ p.dualRailStatePairs, (σ v.mayBeOne || σ v.mayBeZero) = true := by
  refine forall_congr' fun v => imp_congr_right fun hv => ?_
  rw [lit_of_two_le _ (hreserved _ (one_mem_railSymbols hv)),
    lit_of_two_le _ (hreserved _ (zero_mem_railSymbols hv))]

/-! ## The start -/

/-- Random rails are never both cleared. -/
theorem foldl_startRails (x : Nat → UInt64) {vs : List DualRailSymbolPair}
    (hnodup : (vs.flatMap fun v => [v.mayBeOne, v.mayBeZero]).Nodup) {k : Nat} (hk : k < 64)
    (state : Words) :
    (∀ v ∈ vs, (patternOf (vs.foldl (fun state v => state.set v.mayBeZero
        (~~~((state v.mayBeOne).getD 0) ||| x v.mayBeZero)) state) k v.mayBeOne ||
      patternOf (vs.foldl (fun state v => state.set v.mayBeZero
        (~~~((state v.mayBeOne).getD 0) ||| x v.mayBeZero)) state) k v.mayBeZero) = true) ∧
    ∀ s ∉ vs.flatMap fun v => [v.mayBeOne, v.mayBeZero],
      patternOf (vs.foldl (fun state v => state.set v.mayBeZero
        (~~~((state v.mayBeOne).getD 0) ||| x v.mayBeZero)) state) k s = patternOf state k s := by
  induction vs generalizing state with
  | nil => exact ⟨by simp, fun _ _ => rfl⟩
  | cons v vs ih =>
    rw [List.flatMap_cons, List.nodup_append] at hnodup
    obtain ⟨hown, hrest, hdisjoint⟩ := hnodup
    obtain ⟨hvalid, hframe⟩ := ih hrest (state.set v.mayBeZero
      (~~~((state v.mayBeOne).getD 0) ||| x v.mayBeZero))
    have hne : v.mayBeOne ≠ v.mayBeZero := by simpa using hown
    refine ⟨fun w hw => ?_, fun s hs => ?_⟩
    · rcases List.mem_cons.mp hw with rfl | hw
      · rw [List.foldl_cons, hframe _ fun h => hdisjoint _ (by simp) _ h rfl,
          hframe _ fun h => hdisjoint _ (by simp) _ h rfl, patternOf_set,
          Function.update_of_ne hne, Function.update_self, bit_or, bit_not hk]
        unfold patternOf
        cases bit k ((state w.mayBeOne).getD 0) <;> simp
      · exact hvalid w hw
    · rw [List.flatMap_cons, List.mem_append, not_or] at hs
      have hzero : s ≠ v.mayBeZero := fun h => hs.1 (by simp [h])
      rw [List.foldl_cons, hframe s hs.2, patternOf_set, Function.update_of_ne hzero]

/-- The counterexample is the first pattern. -/
theorem foldl_counterexample (leaves : List Nat) (f : Nat → Bool) {k : Nat} (hk : k < 64)
    (state : Words) (s : Nat) :
    patternOf ((leaves.map fun s => (s, f s)).foldl (fun state a =>
      state.set a.1 (((state a.1).getD 0 &&& ~~~1) ||| (if a.2 then 1 else 0))) state) k s =
      if k = 0 ∧ s ∈ leaves then f s else patternOf state k s := by
  induction leaves generalizing state with
  | nil => simp
  | cons first leaves ih =>
    rw [List.map_cons, List.foldl_cons, ih, patternOf_set]
    have hbit : bit k (((state first).getD 0 &&& ~~~1) ||| (if f first then 1 else 0)) =
        if k = 0 then f first else patternOf state k first := by
      rw [bit_or, bit_and, bit_not hk, bit_one]
      unfold patternOf
      by_cases hzero : k = 0
      · cases f first <;> simp [hzero, bit_one]
      · cases f first <;> simp [hzero, bit_one]
    by_cases hs : s = first
    · subst hs
      rw [Function.update_self, hbit]
      by_cases hzero : k = 0 <;> simp [hzero]
    · rw [Function.update_of_ne hs]
      simp [hs]

theorem patternOf_copyActive (active : Candidates p) (state : Words) (k : Nat) :
    patternOf (active.foldl (fun state c =>
      c.equalities.foldl (fun state pr => state.set pr.2 ((state pr.1).getD 0)) state) state) k =
      copyActive active (patternOf state k) := by
  have hpairs : ∀ (prs : List (Nat × Nat)) (state : Words),
      patternOf (prs.foldl (fun state pr => state.set pr.2 ((state pr.1).getD 0)) state) k =
        copyPairs prs (patternOf state k) := by
    intro prs
    induction prs with
    | nil => exact fun _ => rfl
    | cons pr prs ih =>
      intro state
      rw [List.foldl_cons, ih, patternOf_set]
      rfl
  induction active generalizing state with
  | nil => rfl
  | cons c active ih =>
    rw [List.foldl_cons, ih, hpairs]
    rfl

/-- In every start pattern the rails are valid, if solver values come in whole pairs. -/
theorem railsValid_start {active : Candidates p} (hwf : WellFormed p active) (allowX : Bool)
    (draws : SimulationDraws) {leaves : List Nat} {f : Nat → Bool}
    (hpairs : ∀ v ∈ p.dualRailStatePairs, (v.mayBeOne ∉ leaves ∧ v.mayBeZero ∉ leaves) ∨
      (v.mayBeOne ∈ leaves ∧ v.mayBeZero ∈ leaves ∧ (f v.mayBeOne || f v.mayBeZero) = true))
    {k : Nat} (hk : k < 64) :
    RailsValid p (patternOf (simulationStart active allowX draws
      (leaves.map fun s => (s, f s))) k) := by
  rw [railsValid_iff hwf.reserved]
  unfold simulationStart
  simp only [patternOf_copyActive]
  have hcopy := fun g : Nat → Bool =>
    @copyActive_rails p Bool (fun one zero => (one || zero) = true) active hwf g
  refine hcopy _ fun v hv => ?_
  rw [foldl_counterexample _ _ hk, foldl_counterexample _ _ hk]
  rcases hpairs v hv with ⟨hone, hzero⟩ | ⟨hone, hzero, hvalid⟩
  · rw [if_neg fun h => hone h.2, if_neg fun h => hzero h.2]
    exact (foldl_startRails (fun s => if allowX then draws.xRail s else 0) hwf.nodup hk _).1 v hv
  · by_cases hfirst : k = 0
    · rw [if_pos ⟨hfirst, hone⟩, if_pos ⟨hfirst, hzero⟩]
      exact hvalid
    · rw [if_neg fun h => hfirst h.1, if_neg fun h => hfirst h.1]
      exact (foldl_startRails (fun s => if allowX then draws.xRail s else 0) hwf.nodup hk _).1 v hv

theorem isSome_set {state : Words} {s t : Nat} {w : UInt64} (h : (state s).isSome = true) :
    (state.set t w s).isSome = true := by
  unfold Words.set
  by_cases hs : s = t
  · subst hs
    rw [Function.update_self, Option.isSome_some]
  · rw [Function.update_of_ne hs]
    exact h

theorem isSome_start (active : Candidates p) (allowX : Bool) (draws : SimulationDraws)
    (counterexample : List (Nat × Bool)) {s : Nat} (hs : s ∈ p.allSymbols) :
    (simulationStart active allowX draws counterexample s).isSome = true := by
  have hkeep : ∀ {α : Type} (xs : List α) (step : Words → α → Words) (state : Words),
      (∀ (state : Words) x, (state s).isSome = true → (step state x s).isSome = true) →
      (state s).isSome = true → (xs.foldl step state s).isSome = true := fun xs step state hstep h =>
    List.foldlRecOn xs step h fun state hstate x _ => hstep state x hstate
  unfold simulationStart
  refine hkeep _ _ _ (fun state c h => hkeep _ _ _ (fun _ _ h => isSome_set h) h) ?_
  refine hkeep _ _ _ (fun _ _ h => isSome_set h) (hkeep _ _ _ (fun _ _ h => isSome_set h) ?_)
  obtain ⟨before, after, hsplit⟩ := List.append_of_mem hs
  rw [hsplit, List.foldl_append, List.foldl_cons]
  refine hkeep _ _ _ (fun _ _ h => isSome_set h) ?_
  simp [Words.set]

/-! ## One step -/

/-- Writing a register again gives it the same word. -/
theorem foldl_register {write : Words → Nat → Words} {s : Nat} {w : UInt64}
    (hself : ∀ next, write next s s = some w)
    (hother : ∀ next t, t ≠ s → write next t s = next s) {symbols : List Nat} {next : Words}
    (h : s ∈ symbols ∨ next s = some w) : symbols.foldl write next s = some w := by
  induction symbols generalizing next with
  | nil => exact h.resolve_left List.not_mem_nil
  | cons first symbols ih =>
    apply ih
    by_cases hfirst : first = s
    · subst hfirst
      exact .inr (hself next)
    · rw [hother next first hfirst]
      exact h.imp (fun hmem => (List.mem_cons.mp hmem).resolve_left (Ne.symm hfirst)) id

/-- The registers of active candidates follow their transitions. -/
theorem simulationNext_register {active : Candidates p} (draws : SimulationDraws) (step : Nat)
    (state : Words) {c : InternalRelationCandidate p} (hc : c ∈ active) {s : Nat}
    (hs : s ∈ registers c) {e : BoolExpr} (he : p.transitionAt s = some e) :
    simulationNext active draws step state s =
      some (evaluateWords (fun s => (state s).getD (draws.input step s)) e) := by
  unfold simulationNext
  simp only [← List.foldl_flatMap]
  refine foldl_register (fun next => ?_) (fun next t ht => ?_)
    (.inl (List.mem_flatMap.mpr ⟨c, hc, hs⟩))
  · simp [he, Words.set]
  · cases p.transitionAt t with
    | none => rfl
    | some e' => exact Function.update_of_ne ht.symm _ _

/-- The frame after a step of the transitions; undriven symbols are set. -/
def stepped (p : KInductionProblem) (σ : Valuation) : Valuation := fun s =>
  match p.transitionAt s with
  | some e => e.eval σ
  | none => true

theorem lit_stepped {σ : Valuation} {s : Nat} {e : BoolExpr} (he : p.transitionAt s = some e) :
    lit (stepped p σ) s = e.eval σ := by
  rw [lit_of_two_le _ (two_le_of_contains (contains_iff.mpr ⟨e, he⟩)), stepped, he]

theorem followsTransitions_stepped (σ : Valuation) : FollowsTransitions p σ (stepped p σ) :=
  fun _ _ he => lit_stepped he

/-- Candidates whose registers have transitions and words, and that keep one another along
every step. -/
structure SelfCertified (proved : Candidates p) (allowX : Bool) : Prop where
  driven : ∀ c ∈ proved, ∀ s ∈ registers c, p.contains s = true
  certified : ∀ c ∈ proved, Certified proved allowX c

/-- What holds of the valid patterns between the steps. -/
structure SimulationInv (proved : Candidates p) (allowX : Bool) (valid : UInt64) (state : Words) :
    Prop where
  known : ∀ c ∈ proved, ∀ s ∈ registers c, (state s).isSome = true
  rails : ∀ k < 64, bit k valid = true → RailsValid p (patternOf state k)
  holds : ∀ k < 64, bit k valid = true → ∀ c ∈ proved, RelationHolds c allowX (patternOf state k)

section
variable {proved active : Candidates p} {allowX : Bool} (hwf : WellFormed p active)
  (hsub : ∀ c ∈ proved, c ∈ active) (hproved : SelfCertified proved allowX)
  (hpreserves : PreservesRails p)
include hwf hsub hproved hpreserves

theorem SimulationInv.next {valid : UInt64} {state : Words}
    (h : SimulationInv proved allowX valid state) (draws : SimulationDraws) (step : Nat) :
    SimulationInv proved allowX
      (p.dualRailStatePairs.foldl (fun w v =>
        w &&& ((simulationNext active draws step state v.mayBeOne).getD 0 |||
          (simulationNext active draws step state v.mayBeZero).getD 0)) valid)
      (simulationNext active draws step state) := by
  have hregister : ∀ c ∈ proved, ∀ s ∈ registers c, ∃ e, p.transitionAt s = some e ∧
      simulationNext active draws step state s =
        some (evaluateWords (fun s => (state s).getD (draws.input step s)) e) := by
    intro c hc s hs
    obtain ⟨e, he⟩ := contains_iff.mp (hproved.driven c hc s hs)
    exact ⟨e, he, simulationNext_register draws step state (hsub c hc) hs he⟩
  refine ⟨fun c hc s hs => ?_, fun k hk hvalid => ?_, fun k hk hvalid c hc => ?_⟩
  · obtain ⟨e, -, hnext⟩ := hregister c hc s hs
    rw [hnext, Option.isSome_some]
  · rw [bit_foldl_and, Bool.and_eq_true, List.all_eq_true] at hvalid
    rw [railsValid_iff hwf.reserved]
    intro v hv
    have hbit := hvalid.2 v hv
    rw [bit_or] at hbit
    exact hbit
  · rw [bit_foldl_and, Bool.and_eq_true] at hvalid
    -- the simulated frame, in which inputs have their drawn values
    have hrails : RailsValid p (frameOf state (draws.input step) k) := by
      have hstored := (railsValid_iff hwf.reserved _).mp (h.rails k hk hvalid.1)
      rw [railsValid_iff hwf.reserved]
      have hset : ∀ s, patternOf state k s = true →
          frameOf state (draws.input step) k s = true := by
        intro s hs
        unfold patternOf at hs
        unfold frameOf
        cases hstate : state s with
        | none =>
          rw [hstate, Option.getD_none, bit_zero] at hs
          cases hs
        | some w =>
          rw [hstate, Option.getD_some] at hs
          exact hs
      intro v hv
      rcases Bool.or_eq_true_iff.mp (hstored v hv) with hone | hzero
      · rw [hset _ hone, Bool.true_or]
      · rw [hset _ hzero, Bool.or_true]
    have hnow : ∀ d ∈ proved, RelationHolds d allowX (frameOf state (draws.input step) k) := by
      intro d hd
      refine (h.holds k hk hvalid.1 d hd).congr (hwf.relates d (hsub d hd)) fun s hs => ?_
      have h2 := two_le_of_contains (hproved.driven d hd s hs)
      obtain ⟨w, hw⟩ := Option.isSome_iff_exists.mp (h.known d hd s hs)
      rw [lit_of_two_le _ h2, lit_of_two_le _ h2, patternOf, frameOf, hw]
      rfl
    have hfollows := followsTransitions_stepped (p := p) (frameOf state (draws.input step) k)
    have hnext := hproved.certified c hc _ _ hnow hrails (hpreserves _ _ hrails hfollows) hfollows
    refine hnext.congr (hwf.relates c (hsub c hc)) fun s hs => ?_
    obtain ⟨e, he, hword⟩ := hregister c hc s hs
    rw [lit_stepped he, lit_patternOf (two_le_of_contains (hproved.driven c hc s hs)), hword,
      Option.getD_some, bit_evaluateWords hk]
    rfl

/-- The replay refutes no member of a set that certifies itself. -/
theorem simulate_keeps (draws : SimulationDraws) {fuel step : Nat} {valid : UInt64} {state : Words}
    {refuted : Nat → Bool} (h : SimulationInv proved allowX valid state)
    (hrefuted : ∀ i c, active[i]? = some c → c ∈ proved → refuted i = false) :
    ∀ i c, active[i]? = some c → c ∈ proved →
      simulate active allowX draws fuel step valid state refuted i = false := by
  induction fuel generalizing step valid state refuted with
  | zero => exact hrefuted
  | succ fuel ih =>
    intro i c hi hc
    unfold simulate
    split
    · exact hrefuted i c hi hc
    · have hnext := h.next hwf hsub hproved hpreserves draws step
      dsimp only
      split
      · refine ih hnext (fun j d hj hd => ?_) i c hi hc
        have h2 : ∀ s ∈ registers d, 2 ≤ s := fun s hs =>
          two_le_of_contains (hproved.driven d hd s hs)
        have hword : ~~~(relationWord d (simulationNext active draws step state) allowX) &&&
            (p.dualRailStatePairs.foldl (fun w v =>
              w &&& ((simulationNext active draws step state v.mayBeOne).getD 0 |||
                (simulationNext active draws step state v.mayBeZero).getD 0)) valid) = 0 := by
          apply eq_zero_of_bits
          intro k hk
          rw [bit_and, bit_not hk]
          by_cases hvalid : bit k (p.dualRailStatePairs.foldl (fun w v =>
              w &&& ((simulationNext active draws step state v.mayBeOne).getD 0 |||
                (simulationNext active draws step state v.mayBeZero).getD 0)) valid) = true
          · have hholds := (bit_relationWord (hwf.relates d (hsub d hd)) h2 hk _ allowX).mpr
              (hnext.holds k hk hvalid d hd)
            rw [hholds, Bool.not_true, Bool.false_and]
          · rw [Bool.not_eq_true] at hvalid
            rw [hvalid, Bool.and_false]
        simp [hrefuted j d hj hd, hj, hword]
      · exact hrefuted i c hi hc

theorem refuteBySimulation_keeps (hknown : ∀ c ∈ active, ∀ s ∈ registers c, p.contains s = true)
    (draws : SimulationDraws) {leaves : List Nat} {f : Nat → Bool}
    (hpairs : ∀ v ∈ p.dualRailStatePairs, (v.mayBeOne ∉ leaves ∧ v.mayBeZero ∉ leaves) ∨
      (v.mayBeOne ∈ leaves ∧ v.mayBeZero ∈ leaves ∧ (f v.mayBeOne || f v.mayBeZero) = true))
    {refuted : Nat → Bool}
    (hrefuted : ∀ i c, active[i]? = some c → c ∈ proved → refuted i = false) :
    ∀ i c, active[i]? = some c → c ∈ proved →
      refuteBySimulation active allowX draws (leaves.map fun s => (s, f s)) refuted i = false := by
  unfold refuteBySimulation
  refine simulate_keeps hwf hsub hproved hpreserves draws ⟨?_, ?_, ?_⟩ hrefuted
  · intro c hc s hs
    apply isSome_start
    obtain ⟨pr, hpr, hside⟩ := mem_registers.mp hs
    have hmem := hwf.known c (hsub c hc) pr hpr
    rcases hside with rfl | rfl
    · exact hmem.1
    · exact hmem.2
  · intro k hk _
    exact railsValid_start hwf allowX draws hpairs hk
  · intro k hk hvalid c hc
    rw [bit_foldl_and, Bool.and_eq_true, List.all_eq_true] at hvalid
    have h2 : ∀ s ∈ registers c, 2 ≤ s := fun s hs =>
      two_le_of_contains (hknown c (hsub c hc) s hs)
    exact (bit_relationWord (hwf.relates c (hsub c hc)) h2 hk _ allowX).mp
      (hvalid.2 c (hsub c hc))

end

end InternalRelations
end KeplerFormal
