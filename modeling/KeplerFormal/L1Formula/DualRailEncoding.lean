import KeplerFormal.Core.Rails
import KeplerFormal.L1Formula.BoolExpr

/-!
# The dual-rail lift (`src/sec/proof/DualRailEncoding.cpp`)

An expression over signals that may be unknown becomes two expressions: when it may be one
and when it may be zero. The lift runs over the expression DAG and remembers every node
in a table that later lifts of the same design share.

* `buildDualRailBoolExpr`: the lift with its table.
* `evalRails`: the value of an expression over sets of possible values.
* `buildDualRailBoolExpr_lifts`: whatever the table holds from earlier lifts, the two
  expressions compute `evalRails`.
* `covers_evalRails`, `nonempty_evalRails`, `known_evalRails`: what `evalRails` says about
  the two-valued expression.
-/
namespace KeplerFormal

open Core

/-- mirrors src/sec/proof/DualRailEncoding.h:12-15 -/
structure DualRailBoolExpr where
  mayBeOne : BoolExpr
  mayBeZero : BoolExpr
  deriving DecidableEq, Repr

namespace DualRailBoolExpr

def rails (v : DualRailBoolExpr) (ρ : Valuation) : Rails :=
  ⟨v.mayBeOne.eval ρ, v.mayBeZero.eval ρ⟩

def supportVars (v : DualRailBoolExpr) : Finset Nat :=
  v.mayBeOne.getSupportVars ∪ v.mayBeZero.getSupportVars

end DualRailBoolExpr

/-- `DualRailVariableMapper::mapVariable`; it throws on a symbol without a meaning. -/
abbrev DualRailVariableMapper := Nat → Except String DualRailBoolExpr

abbrev DualRailMemo := List (BoolExpr × DualRailBoolExpr)

/-- The node's entry of the table, or a new one. -/
def DualRailMemo.remember (memo : DualRailMemo) (node : BoolExpr)
    (lift : DualRailMemo → Except String (DualRailBoolExpr × DualRailMemo)) :
    Except String (DualRailBoolExpr × DualRailMemo) :=
  match memo.lookup node with
  | some v => .ok (v, memo)
  | none =>
    match lift memo with
    | .error message => .error message
    | .ok (v, memo') => .ok (v, (node, v) :: memo')

/-- The operand lifted first is the left one.
mirrors src/sec/proof/DualRailEncoding.cpp:11-130 -/
def buildDualRailBoolExpr (mapVariable : DualRailVariableMapper) :
    BoolExpr → DualRailMemo → Except String (DualRailBoolExpr × DualRailMemo)
  | .var id, memo => memo.remember (.var id) fun memo =>
    match id with
    | 0 => .ok (⟨.createFalse, .createTrue⟩, memo)
    | 1 => .ok (⟨.createTrue, .createFalse⟩, memo)
    | n + 2 => (mapVariable (n + 2)).map fun v => (v, memo)
  | .not a, memo => memo.remember (.not a) fun memo => do
    let (operand, memo) ← buildDualRailBoolExpr mapVariable a memo
    return (⟨operand.mayBeZero, operand.mayBeOne⟩, memo)
  | .and a b, memo => memo.remember (.and a b) fun memo => do
    let (lhs, memo) ← buildDualRailBoolExpr mapVariable a memo
    let (rhs, memo) ← buildDualRailBoolExpr mapVariable b memo
    return (⟨.And lhs.mayBeOne rhs.mayBeOne, .Or lhs.mayBeZero rhs.mayBeZero⟩, memo)
  | .or a b, memo => memo.remember (.or a b) fun memo => do
    let (lhs, memo) ← buildDualRailBoolExpr mapVariable a memo
    let (rhs, memo) ← buildDualRailBoolExpr mapVariable b memo
    return (⟨.Or lhs.mayBeOne rhs.mayBeOne, .And lhs.mayBeZero rhs.mayBeZero⟩, memo)
  | .xor a b, memo => memo.remember (.xor a b) fun memo => do
    let (lhs, memo) ← buildDualRailBoolExpr mapVariable a memo
    let (rhs, memo) ← buildDualRailBoolExpr mapVariable b memo
    return (⟨.Or (.And lhs.mayBeOne rhs.mayBeZero) (.And lhs.mayBeZero rhs.mayBeOne),
      .Or (.And lhs.mayBeOne rhs.mayBeOne) (.And lhs.mayBeZero rhs.mayBeZero)⟩, memo)

/-- The expressions one after the other, with one table. -/
def buildDualRailBoolExprs (mapVariable : DualRailVariableMapper) :
    List BoolExpr → DualRailMemo → Except String (List DualRailBoolExpr × DualRailMemo)
  | [], memo => .ok ([], memo)
  | root :: roots, memo => do
    let (v, memo) ← buildDualRailBoolExpr mapVariable root memo
    let (vs, memo) ← buildDualRailBoolExprs mapVariable roots memo
    return (v :: vs, memo)

/-! ## Expressions over sets of values -/

/-- The value of an expression whose variables are sets of possible values. -/
def evalRails (leaf : Nat → Rails) : BoolExpr → Rails
  | .var 0 => .known false
  | .var 1 => .known true
  | .var (n + 2) => leaf (n + 2)
  | .and a b => (evalRails leaf a).and (evalRails leaf b)
  | .or a b => (evalRails leaf a).or (evalRails leaf b)
  | .not a => (evalRails leaf a).not
  | .xor a b => (evalRails leaf a).xor (evalRails leaf b)

theorem covers_evalRails {leaf : Nat → Rails} {σ : Valuation} {e : BoolExpr}
    (h : ∀ s ∈ e.getSupportVars, 2 ≤ s → (leaf s).Covers (σ s)) :
    (evalRails leaf e).Covers (e.eval σ) := by
  induction e with
  | var id =>
    match id with
    | 0 => rfl
    | 1 => rfl
    | n + 2 => exact h (n + 2) (by simp [BoolExpr.getSupportVars]) (by omega)
  | and a b iha ihb =>
    simp only [BoolExpr.getSupportVars, Finset.mem_union] at h
    exact (iha fun s hs => h s (.inl hs)).and (ihb fun s hs => h s (.inr hs))
  | or a b iha ihb =>
    simp only [BoolExpr.getSupportVars, Finset.mem_union] at h
    exact (iha fun s hs => h s (.inl hs)).or (ihb fun s hs => h s (.inr hs))
  | not a ih => exact (ih h).not
  | xor a b iha ihb =>
    simp only [BoolExpr.getSupportVars, Finset.mem_union] at h
    exact (iha fun s hs => h s (.inl hs)).xor (ihb fun s hs => h s (.inr hs))

/-- A nonempty set contains some value, so this is a case of covering. -/
theorem nonempty_evalRails {leaf : Nat → Rails} {e : BoolExpr}
    (h : ∀ s ∈ e.getSupportVars, 2 ≤ s → (leaf s).Nonempty) : (evalRails leaf e).Nonempty := by
  let σ : Valuation := fun s => (leaf s).mayBeOne
  refine (covers_evalRails (σ := σ) fun s hs h2 => ?_).nonempty
  have hsome := h s hs h2
  unfold Rails.Nonempty at hsome
  cases hone : (leaf s).mayBeOne with
  | true =>
    simp only [σ, hone]
    exact hone
  | false =>
    simp only [σ, hone]
    rw [hone, Bool.false_or] at hsome
    exact hsome

theorem known_evalRails {leaf : Nat → Rails} {σ : Valuation} {e : BoolExpr}
    (h : ∀ s ∈ e.getSupportVars, 2 ≤ s → leaf s = .known (σ s)) :
    evalRails leaf e = .known (e.eval σ) := by
  induction e with
  | var id =>
    match id with
    | 0 => rfl
    | 1 => rfl
    | n + 2 => exact h (n + 2) (by simp [BoolExpr.getSupportVars]) (by omega)
  | and a b iha ihb =>
    simp only [BoolExpr.getSupportVars, Finset.mem_union] at h
    simp only [evalRails, iha fun s hs => h s (.inl hs), ihb fun s hs => h s (.inr hs),
      Rails.and_known, BoolExpr.eval]
  | or a b iha ihb =>
    simp only [BoolExpr.getSupportVars, Finset.mem_union] at h
    simp only [evalRails, iha fun s hs => h s (.inl hs), ihb fun s hs => h s (.inr hs),
      Rails.or_known, BoolExpr.eval]
  | not a ih => simp only [evalRails, ih h, Rails.not_known, BoolExpr.eval]
  | xor a b iha ihb =>
    simp only [BoolExpr.getSupportVars, Finset.mem_union] at h
    simp only [evalRails, iha fun s hs => h s (.inl hs), ihb fun s hs => h s (.inr hs),
      Rails.xor_known, BoolExpr.eval]

/-! ## What the lift computes -/

/-- The rails that the mapper gives a variable. -/
def mapperRails (mapVariable : DualRailVariableMapper) (ρ : Valuation) (s : Nat) : Rails :=
  match mapVariable s with
  | .ok v => v.rails ρ
  | .error _ => .unknown

/-- `v` is the lift of `e`: every variable has a meaning, the rails of `v` are the value of
`e` over the rails of its variables, and `v` reads nothing but these. -/
structure Lifts (mapVariable : DualRailVariableMapper) (e : BoolExpr) (v : DualRailBoolExpr) :
    Prop where
  mapped : ∀ s ∈ e.getSupportVars, 2 ≤ s → ∃ w, mapVariable s = .ok w
  rails : ∀ ρ, v.rails ρ = evalRails (mapperRails mapVariable ρ) e
  support : ∀ x ∈ v.supportVars, 2 ≤ x →
    ∃ s ∈ e.getSupportVars, 2 ≤ s ∧ ∃ w, mapVariable s = .ok w ∧ x ∈ w.supportVars

/-- Every entry of the table is the lift of its node. -/
def DualRailMemo.Valid (mapVariable : DualRailVariableMapper) (memo : DualRailMemo) : Prop :=
  ∀ e v, memo.lookup e = some v → Lifts mapVariable e v

theorem DualRailMemo.valid_nil (mapVariable : DualRailVariableMapper) :
    DualRailMemo.Valid mapVariable [] := by
  intro e v h
  cases h

theorem Except.of_bind_ok {α β : Type} {x : Except String α} {f : α → Except String β} {b : β}
    (h : x >>= f = .ok b) : ∃ a, x = .ok a ∧ f a = .ok b := by
  cases x with
  | error message => cases h
  | ok a => exact ⟨a, rfl, h⟩

/-- A remembered node, or a new entry. -/
theorem DualRailMemo.remember_valid {mapVariable : DualRailVariableMapper}
    {memo memo' : DualRailMemo} {node : BoolExpr} {v : DualRailBoolExpr}
    {lift : DualRailMemo → Except String (DualRailBoolExpr × DualRailMemo)}
    (hmemo : memo.Valid mapVariable)
    (hlift : ∀ w memo'', lift memo = .ok (w, memo'') →
      Lifts mapVariable node w ∧ memo''.Valid mapVariable)
    (h : memo.remember node lift = .ok (v, memo')) :
    Lifts mapVariable node v ∧ memo'.Valid mapVariable := by
  unfold remember at h
  split at h
  · rename_i w hfound
    cases h
    exact ⟨hmemo _ _ hfound, hmemo⟩
  · split at h
    · cases h
    · rename_i w memo'' hrun
      cases h
      obtain ⟨hw, hmemo''⟩ := hlift _ _ hrun
      refine ⟨hw, fun e x he => ?_⟩
      rw [List.lookup_cons] at he
      split at he
      · rename_i hnode
        obtain rfl := eq_of_beq hnode
        cases he
        exact hw
      · exact hmemo'' e x he

theorem Lifts.constant (mapVariable : DualRailVariableMapper) (b : Bool) :
    Lifts mapVariable (if b then .createTrue else .createFalse)
      (if b then ⟨.createTrue, .createFalse⟩ else ⟨.createFalse, .createTrue⟩) := by
  refine ⟨fun s hs h2 => ?_, fun ρ => by cases b <;> rfl, fun x hx h2 => ?_⟩
  · cases b <;> simp [BoolExpr.getSupportVars, BoolExpr.createTrue, BoolExpr.createFalse] at hs <;>
      omega
  · cases b <;> simp [DualRailBoolExpr.supportVars, BoolExpr.getSupportVars, BoolExpr.createTrue,
      BoolExpr.createFalse] at hx <;> omega

/-- A node over two operands whose lift reads the rails of both. -/
theorem Lifts.binary {mapVariable : DualRailVariableMapper} {a b : BoolExpr}
    {lhs rhs v : DualRailBoolExpr} (node : BoolExpr → BoolExpr → BoolExpr)
    (op : Rails → Rails → Rails) (ha : Lifts mapVariable a lhs) (hb : Lifts mapVariable b rhs)
    (hnode : (node a b).getSupportVars = a.getSupportVars ∪ b.getSupportVars)
    (heval : ∀ leaf, evalRails leaf (node a b) = op (evalRails leaf a) (evalRails leaf b))
    (hrails : ∀ ρ, v.rails ρ = op (lhs.rails ρ) (rhs.rails ρ))
    (hsupport : ∀ x ∈ v.supportVars, 2 ≤ x → x ∈ lhs.supportVars ∨ x ∈ rhs.supportVars) :
    Lifts mapVariable (node a b) v where
  mapped s hs h2 := by
    rw [hnode, Finset.mem_union] at hs
    rcases hs with hs | hs
    · exact ha.mapped s hs h2
    · exact hb.mapped s hs h2
  rails ρ := by rw [hrails, ha.rails, hb.rails, heval]
  support x hx h2 := by
    rcases hsupport x hx h2 with hx | hx
    · obtain ⟨s, hs, hw⟩ := ha.support x hx h2
      exact ⟨s, by rw [hnode]; exact Finset.mem_union_left _ hs, hw⟩
    · obtain ⟨s, hs, hw⟩ := hb.support x hx h2
      exact ⟨s, by rw [hnode]; exact Finset.mem_union_right _ hs, hw⟩

/-- Whatever the table holds from earlier lifts, the lift of an expression computes its
value over sets, and leaves a table for the next one. -/
theorem buildDualRailBoolExpr_lifts {mapVariable : DualRailVariableMapper} {root : BoolExpr}
    {memo memo' : DualRailMemo} {v : DualRailBoolExpr} (hmemo : memo.Valid mapVariable)
    (h : buildDualRailBoolExpr mapVariable root memo = .ok (v, memo')) :
    Lifts mapVariable root v ∧ memo'.Valid mapVariable := by
  induction root generalizing memo memo' v with
  | var id =>
    refine DualRailMemo.remember_valid hmemo (fun w memo'' hrun => ?_) h
    match id with
    | 0 =>
      cases hrun
      exact ⟨Lifts.constant mapVariable false, hmemo⟩
    | 1 =>
      cases hrun
      exact ⟨Lifts.constant mapVariable true, hmemo⟩
    | n + 2 =>
      change (mapVariable (n + 2)).map (fun v => (v, memo)) = _ at hrun
      cases hmap : mapVariable (n + 2) with
      | error message =>
        rw [hmap] at hrun
        cases hrun
      | ok w' =>
        rw [hmap] at hrun
        cases hrun
        refine ⟨⟨fun s hs h2 => ?_, fun ρ => ?_, fun x hx h2 => ?_⟩, hmemo⟩
        · simp only [BoolExpr.getSupportVars, Finset.mem_singleton] at hs
          exact ⟨_, hs ▸ hmap⟩
        · show _ = mapperRails mapVariable ρ (n + 2)
          rw [mapperRails, hmap]
        · exact ⟨n + 2, by simp [BoolExpr.getSupportVars], by omega, _, hmap, hx⟩
  | not a ih =>
    refine DualRailMemo.remember_valid hmemo (fun w memo'' hrun => ?_) h
    obtain ⟨⟨operand, memo₁⟩, ha, hrun⟩ := Except.of_bind_ok hrun
    cases hrun
    obtain ⟨hlift, hmemo₁⟩ := ih hmemo ha
    refine ⟨⟨hlift.mapped, fun ρ => ?_, fun x hx h2 => hlift.support x ?_ h2⟩, hmemo₁⟩
    · show Rails.not (operand.rails ρ) = _
      rw [hlift.rails]
      rfl
    · rw [DualRailBoolExpr.supportVars, Finset.union_comm]
      exact hx
  | and a b iha ihb =>
    refine DualRailMemo.remember_valid hmemo (fun w memo'' hrun => ?_) h
    obtain ⟨⟨lhs, memo₁⟩, ha, hrun⟩ := Except.of_bind_ok hrun
    obtain ⟨⟨rhs, memo₂⟩, hb, hrun⟩ := Except.of_bind_ok hrun
    cases hrun
    obtain ⟨hlhs, hmemo₁⟩ := iha hmemo ha
    obtain ⟨hrhs, hmemo₂⟩ := ihb hmemo₁ hb
    refine ⟨hlhs.binary .and Rails.and hrhs rfl (fun _ => rfl) (fun ρ => ?_)
      fun x hx h2 => ?_, hmemo₂⟩
    · simp [DualRailBoolExpr.rails, Rails.and]
    · simp only [DualRailBoolExpr.supportVars, Finset.mem_union] at hx ⊢
      rcases hx with hx | hx
      · rcases BoolExpr.mem_support_And hx h2 with hx | hx <;> simp [hx]
      · rcases BoolExpr.mem_support_Or hx h2 with hx | hx <;> simp [hx]
  | or a b iha ihb =>
    refine DualRailMemo.remember_valid hmemo (fun w memo'' hrun => ?_) h
    obtain ⟨⟨lhs, memo₁⟩, ha, hrun⟩ := Except.of_bind_ok hrun
    obtain ⟨⟨rhs, memo₂⟩, hb, hrun⟩ := Except.of_bind_ok hrun
    cases hrun
    obtain ⟨hlhs, hmemo₁⟩ := iha hmemo ha
    obtain ⟨hrhs, hmemo₂⟩ := ihb hmemo₁ hb
    refine ⟨hlhs.binary .or Rails.or hrhs rfl (fun _ => rfl) (fun ρ => ?_)
      fun x hx h2 => ?_, hmemo₂⟩
    · simp [DualRailBoolExpr.rails, Rails.or]
    · simp only [DualRailBoolExpr.supportVars, Finset.mem_union] at hx ⊢
      rcases hx with hx | hx
      · rcases BoolExpr.mem_support_Or hx h2 with hx | hx <;> simp [hx]
      · rcases BoolExpr.mem_support_And hx h2 with hx | hx <;> simp [hx]
  | xor a b iha ihb =>
    refine DualRailMemo.remember_valid hmemo (fun w memo'' hrun => ?_) h
    obtain ⟨⟨lhs, memo₁⟩, ha, hrun⟩ := Except.of_bind_ok hrun
    obtain ⟨⟨rhs, memo₂⟩, hb, hrun⟩ := Except.of_bind_ok hrun
    cases hrun
    obtain ⟨hlhs, hmemo₁⟩ := iha hmemo ha
    obtain ⟨hrhs, hmemo₂⟩ := ihb hmemo₁ hb
    refine ⟨hlhs.binary .xor Rails.xor hrhs rfl (fun _ => rfl) (fun ρ => ?_)
      fun x hx h2 => ?_, hmemo₂⟩
    · simp [DualRailBoolExpr.rails, Rails.xor]
    · simp only [DualRailBoolExpr.supportVars, Finset.mem_union] at hx ⊢
      rcases hx with hx | hx <;> rcases BoolExpr.mem_support_Or hx h2 with hx | hx <;>
        rcases BoolExpr.mem_support_And hx h2 with hx | hx <;> simp [hx]

/-- A list of roots with one table. -/
theorem buildDualRailBoolExprs_lifts {mapVariable : DualRailVariableMapper}
    {roots : List BoolExpr} {memo memo' : DualRailMemo} {vs : List DualRailBoolExpr}
    (hmemo : memo.Valid mapVariable)
    (h : buildDualRailBoolExprs mapVariable roots memo = .ok (vs, memo')) :
    List.Forall₂ (Lifts mapVariable) roots vs ∧ memo'.Valid mapVariable := by
  induction roots generalizing memo vs with
  | nil =>
    cases h
    exact ⟨.nil, hmemo⟩
  | cons root roots ih =>
    obtain ⟨⟨v, memo₁⟩, hroot, h⟩ := Except.of_bind_ok h
    obtain ⟨⟨rest, memo₂⟩, hroots, h⟩ := Except.of_bind_ok h
    cases h
    obtain ⟨hlift, hmemo₁⟩ := buildDualRailBoolExpr_lifts hmemo hroot
    obtain ⟨hlifts, hmemo₂⟩ := ih hmemo₁ hroots
    exact ⟨.cons hlift hlifts, hmemo₂⟩

end KeplerFormal
