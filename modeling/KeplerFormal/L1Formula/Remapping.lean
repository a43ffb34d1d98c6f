import KeplerFormal.L1Formula.ExprTraversal

/-!
# Renaming and replacing variables (`src/sec/common/BoolExprUtils.cpp`)

Four passes rewrite the leaves of an expression, each with a memo of its own kind.

* `Renames`: an expression that stands for another one under a renaming; the two strict
  passes give one or fail at a variable without a name.
* `substituteShared_computes`: the recursion with a memo is `BoolExpr.substitute`.
* `SubstitutionLemma`: what all four passes owe to their callers.
* `substitutionLemma_iff`: it holds exactly when the replacements leave the constants alone.
-/
namespace KeplerFormal.Remapping

open Core

/-! ## Renaming -/

abbrev VarMap := List (Nat × Nat)

/-- One node of `remapBoolExprVariables`; a node whose operands are unchanged is kept.
mirrors src/sec/common/BoolExprUtils.cpp:96-173 -/
def remapNode (varMap : VarMap) (memo : ExprMemo) : BoolExpr → Except String BoolExpr
  | .var id =>
    if id < 2 then .ok (.var id)
    else
      match varMap.lookup id with
      | none => .error s!"Missing BoolExpr remap for variable {id}"
      | some mapped => .ok (.var mapped)
  | .not a => do .ok (BoolExpr.rebuiltNot a (← ExprMemo.at memo a))
  | .and a b => do
    .ok (BoolExpr.rebuilt .and .And a b (← ExprMemo.at memo a) (← ExprMemo.at memo b))
  | .or a b => do
    .ok (BoolExpr.rebuilt .or .Or a b (← ExprMemo.at memo a) (← ExprMemo.at memo b))
  | .xor a b => do
    .ok (BoolExpr.rebuilt .xor .Xor a b (← ExprMemo.at memo a) (← ExprMemo.at memo b))

/-- mirrors src/sec/common/BoolExprUtils.cpp:61-177 -/
def remapBoolExprVariables (varMap : VarMap) :
    BoolExpr → ExprMemo → Except String BoolExpr × ExprMemo :=
  memoCall true (remapNode varMap)

/-- One node of `remapSecFormulaStrict`, which rebuilds every node.
mirrors src/sec/strategy/SequentialEquivalenceStrategy.cpp:2338-2383 -/
def strictNode (symbolMap : VarMap) (memo : ExprMemo) : BoolExpr → Except String BoolExpr
  | .var id =>
    match symbolMap.lookup id with
    | none =>
      if 2 ≤ id then .error s!"SEC formula contains unpublished internal support v{id}"
      else .ok (.var id)
    | some mapped => .ok (.var (if id < 2 then id else mapped))
  | .not a => do .ok (.Not (← ExprMemo.at memo a))
  | .and a b => do .ok (.And (← ExprMemo.at memo a) (← ExprMemo.at memo b))
  | .or a b => do .ok (.Or (← ExprMemo.at memo a) (← ExprMemo.at memo b))
  | .xor a b => do .ok (.Xor (← ExprMemo.at memo a) (← ExprMemo.at memo b))

/-- mirrors src/sec/strategy/SequentialEquivalenceStrategy.cpp:2312-2387 -/
def remapSecFormulaStrict (symbolMap : VarMap) :
    BoolExpr → ExprMemo → Except String BoolExpr × ExprMemo :=
  memoCall false (strictNode symbolMap)

/-! ## Replacing -/

/-- The recursion of the two substitutions: the leaves are rewritten by `leaf`, all at once. -/
def substituteShared (leaf : Nat → BoolExpr) : BoolExpr → ExprMemo → BoolExpr × ExprMemo
  | .var id, memo => memo.remember (.var id) fun memo => (leaf id, memo)
  | .not a, memo => memo.remember (.not a) fun memo =>
    let left := substituteShared leaf a memo
    (BoolExpr.rebuiltNot a left.1, left.2)
  | .and a b, memo => memo.remember (.and a b) fun memo =>
    let left := substituteShared leaf a memo
    let right := substituteShared leaf b left.2
    (BoolExpr.rebuilt .and .And a b left.1 right.1, right.2)
  | .or a b, memo => memo.remember (.or a b) fun memo =>
    let left := substituteShared leaf a memo
    let right := substituteShared leaf b left.2
    (BoolExpr.rebuilt .or .Or a b left.1 right.1, right.2)
  | .xor a b, memo => memo.remember (.xor a b) fun memo =>
    let left := substituteShared leaf a memo
    let right := substituteShared leaf b left.2
    (BoolExpr.rebuilt .xor .Xor a b left.1 right.1, right.2)

/-- mirrors src/sec/common/BoolExprUtils.cpp:199-210 -/
def assignedLeaf (assignments : List (Nat × Bool)) (id : Nat) : BoolExpr :=
  if id < 2 then .var id
  else
    match assignments.lookup id with
    | none => .var id
    | some value => if value then .createTrue else .createFalse

/-- mirrors src/sec/common/BoolExprUtils.cpp:186-258 -/
def substituteBoolExprVariables (assignments : List (Nat × Bool)) :
    BoolExpr → ExprMemo → BoolExpr × ExprMemo :=
  substituteShared (assignedLeaf assignments)

/-- There is no check for the constants here.
mirrors src/clocks/SecClockModel.cpp:208-212 -/
def replacedLeaf (replacements : List (Nat × BoolExpr)) (id : Nat) : BoolExpr :=
  (replacements.lookup id).getD (.var id)

/-- mirrors src/clocks/SecClockModel.cpp:193-256 -/
def substituteBoolExprVariableExpressionsImpl (replacements : List (Nat × BoolExpr)) :
    BoolExpr → ExprMemo → BoolExpr × ExprMemo :=
  substituteShared (replacedLeaf replacements)

/-- mirrors src/clocks/SecClockModel.cpp:258-267 -/
def substituteBoolExprVariableExpressions (replacements : List (Nat × BoolExpr))
    (root : BoolExpr) : BoolExpr :=
  if replacements.isEmpty then root
  else
    BoolExpr.simplifyWhenChanged root
      (substituteBoolExprVariableExpressionsImpl replacements root []).1

/-! ## What a renaming owes -/

/-- The assignment read through the map; a name below 2 is a constant. -/
def through (varMap : VarMap) (σ : Valuation) : Valuation := fun s =>
  match varMap.lookup s with
  | some mapped => (BoolExpr.var mapped).eval σ
  | none => σ s

structure Renames (varMap : VarMap) (e r : BoolExpr) : Prop where
  mapped : ∀ s ∈ e.getSupportVars, 2 ≤ s → (varMap.lookup s).isSome
  eval : ∀ σ, r.eval σ = e.eval (through varMap σ)

def MissesName (varMap : VarMap) (e : BoolExpr) : Prop :=
  ∃ s ∈ e.getSupportVars, 2 ≤ s ∧ varMap.lookup s = none

/-- The outcome of a call: a failure exactly when a name is missing, else the value under
the composed assignment. -/
structure RenameOutcome (varMap : VarMap) (root : BoolExpr) (result : Except String BoolExpr) :
    Prop where
  fails : (∃ e, result = .error e) ↔ MissesName varMap root
  eval : ∀ r, result = .ok r → ∀ σ, r.eval σ = root.eval (through varMap σ)

variable {varMap : VarMap}

theorem Renames.constant {id : Nat} (h : id < 2) : Renames varMap (.var id) (.var id) := by
  refine ⟨fun s hs h2 => ?_, fun σ => ?_⟩
  · rw [Finset.mem_singleton.mp hs] at h2
    omega
  · match id, h with
    | 0, _ => rfl
    | 1, _ => rfl

theorem Renames.variable {id mapped : Nat} (h2 : 2 ≤ id) (h : varMap.lookup id = some mapped) :
    Renames varMap (.var id) (.var mapped) := by
  refine ⟨fun s hs _ => ?_, fun σ => ?_⟩
  · rw [Finset.mem_singleton.mp hs, h]
    rfl
  · rw [BoolExpr.eval_var _ h2, through, h]

theorem Renames.unary {a ra r : BoolExpr} (ha : Renames varMap a ra)
    (hr : ∀ σ, r.eval σ = !ra.eval σ) : Renames varMap (.not a) r :=
  ⟨ha.mapped, fun σ => by rw [hr, ha.eval, BoolExpr.eval]⟩

theorem Renames.binary {node : BoolExpr → BoolExpr → BoolExpr} {op : Bool → Bool → Bool}
    {a b ra rb r : BoolExpr} (hsupport : (node a b).getSupportVars = a.getSupportVars ∪
      b.getSupportVars) (hnode : ∀ σ, (node a b).eval σ = op (a.eval σ) (b.eval σ))
    (ha : Renames varMap a ra) (hb : Renames varMap b rb)
    (hr : ∀ σ, r.eval σ = op (ra.eval σ) (rb.eval σ)) : Renames varMap (node a b) r := by
  refine ⟨fun s hs h2 => ?_, fun σ => ?_⟩
  · rw [hsupport] at hs
    exact (Finset.mem_union.mp hs).elim (ha.mapped s · h2) (hb.mapped s · h2)
  · rw [hr, hnode, ha.eval, hb.eval]

/-- What each pass does with a node whose operands are renamed. -/
def NodeRenames (varMap : VarMap) (build : ExprMemo → BoolExpr → Except String BoolExpr) : Prop :=
  ∀ node memo, ExprMemo.All (Renames varMap) memo →
    (∀ c ∈ node.operands, ∃ r, ExprMemo.at memo c = .ok r ∧ Renames varMap c r) →
    (∃ r, build memo node = .ok r ∧ Renames varMap node r) ∨
    (∃ e, build memo node = .error e ∧ MissesName varMap node)

theorem remapNode_renames : NodeRenames varMap (remapNode varMap) := by
  intro node memo _ hoperands
  cases node with
  | var id =>
    by_cases hid : id < 2
    · exact .inl ⟨.var id, if_pos hid, .constant hid⟩
    · have h2 : 2 ≤ id := Nat.le_of_not_lt hid
      cases hlookup : varMap.lookup id with
      | none =>
        refine .inr ⟨s!"Missing BoolExpr remap for variable {id}", ?_, id,
          Finset.mem_singleton_self id, h2, hlookup⟩
        simp only [remapNode, if_neg hid, hlookup]
      | some mapped =>
        refine .inl ⟨.var mapped, ?_, .variable h2 hlookup⟩
        simp only [remapNode, if_neg hid, hlookup]
  | not a =>
    obtain ⟨ra, hra, ha⟩ := hoperands a (List.mem_singleton_self a)
    refine .inl ⟨_, ?_, ha.unary fun σ => BoolExpr.eval_rebuiltNot σ a ra⟩
    rw [remapNode, hra]
    rfl
  | and a b =>
    obtain ⟨ra, hra, ha⟩ := hoperands a (List.mem_cons_self ..)
    obtain ⟨rb, hrb, hb⟩ := hoperands b (List.mem_cons_of_mem _ (List.mem_singleton_self b))
    refine .inl ⟨_, ?_, .binary rfl (fun _ => rfl) ha hb
      fun σ => BoolExpr.eval_rebuilt_and σ a b ra rb⟩
    rw [remapNode, hra, hrb]
    rfl
  | or a b =>
    obtain ⟨ra, hra, ha⟩ := hoperands a (List.mem_cons_self ..)
    obtain ⟨rb, hrb, hb⟩ := hoperands b (List.mem_cons_of_mem _ (List.mem_singleton_self b))
    refine .inl ⟨_, ?_, .binary rfl (fun _ => rfl) ha hb
      fun σ => BoolExpr.eval_rebuilt_or σ a b ra rb⟩
    rw [remapNode, hra, hrb]
    rfl
  | xor a b =>
    obtain ⟨ra, hra, ha⟩ := hoperands a (List.mem_cons_self ..)
    obtain ⟨rb, hrb, hb⟩ := hoperands b (List.mem_cons_of_mem _ (List.mem_singleton_self b))
    refine .inl ⟨_, ?_, .binary rfl (fun _ => rfl) ha hb
      fun σ => BoolExpr.eval_rebuilt_xor σ a b ra rb⟩
    rw [remapNode, hra, hrb]
    rfl

theorem strictNode_renames : NodeRenames varMap (strictNode varMap) := by
  intro node memo _ hoperands
  cases node with
  | var id =>
    cases hlookup : varMap.lookup id with
    | none =>
      by_cases hid : 2 ≤ id
      · refine .inr ⟨s!"SEC formula contains unpublished internal support v{id}", ?_, id,
          Finset.mem_singleton_self id, hid, hlookup⟩
        simp only [strictNode, hlookup, if_pos hid]
      · refine .inl ⟨.var id, ?_, .constant (by omega)⟩
        simp only [strictNode, hlookup, if_neg hid]
    | some mapped =>
      by_cases hid : id < 2
      · refine .inl ⟨.var id, ?_, .constant hid⟩
        simp only [strictNode, hlookup, if_pos hid]
      · refine .inl ⟨.var mapped, ?_, .variable (by omega) hlookup⟩
        simp only [strictNode, hlookup, if_neg hid]
  | not a =>
    obtain ⟨ra, hra, ha⟩ := hoperands a (List.mem_singleton_self a)
    refine .inl ⟨_, ?_, ha.unary fun σ => BoolExpr.eval_Not σ ra⟩
    rw [strictNode, hra]
    rfl
  | and a b =>
    obtain ⟨ra, hra, ha⟩ := hoperands a (List.mem_cons_self ..)
    obtain ⟨rb, hrb, hb⟩ := hoperands b (List.mem_cons_of_mem _ (List.mem_singleton_self b))
    refine .inl ⟨_, ?_, .binary rfl (fun _ => rfl) ha hb fun σ => BoolExpr.eval_And σ ra rb⟩
    rw [strictNode, hra, hrb]
    rfl
  | or a b =>
    obtain ⟨ra, hra, ha⟩ := hoperands a (List.mem_cons_self ..)
    obtain ⟨rb, hrb, hb⟩ := hoperands b (List.mem_cons_of_mem _ (List.mem_singleton_self b))
    refine .inl ⟨_, ?_, .binary rfl (fun _ => rfl) ha hb fun σ => BoolExpr.eval_Or σ ra rb⟩
    rw [strictNode, hra, hrb]
    rfl
  | xor a b =>
    obtain ⟨ra, hra, ha⟩ := hoperands a (List.mem_cons_self ..)
    obtain ⟨rb, hrb, hb⟩ := hoperands b (List.mem_cons_of_mem _ (List.mem_singleton_self b))
    refine .inl ⟨_, ?_, .binary rfl (fun _ => rfl) ha hb fun σ => BoolExpr.eval_Xor σ ra rb⟩
    rw [strictNode, hra, hrb]
    rfl

/-- A call from any memo that earlier calls can leave. -/
theorem renames_call {skipDone : Bool} {build : ExprMemo → BoolExpr → Except String BoolExpr}
    (hbuild : NodeRenames varMap build) (root : BoolExpr) (memo : ExprMemo)
    (hmemo : ExprMemo.All (Renames varMap) memo) :
    RenameOutcome varMap root (memoCall skipDone build root memo).1 ∧
      ExprMemo.All (Renames varMap) (memoCall skipDone build root memo).2 := by
  obtain ⟨houtcome, hmemo'⟩ := @memoCall_spec _ skipDone _ _ _ hbuild root _ hmemo
  refine ⟨?_, hmemo'⟩
  rcases houtcome with ⟨r, hr, hrenames⟩ | ⟨e, n, herror, ⟨s, hs, h2, hnone⟩, hnode⟩
  · rw [hr]
    refine ⟨⟨fun ⟨e, he⟩ => (nomatch he), fun ⟨s, hs, h2, hnone⟩ => ?_⟩, fun r' hr' σ => ?_⟩
    · have hsome := hrenames.mapped s hs h2
      rw [hnone] at hsome
      exact absurd hsome Bool.false_ne_true
    · rw [← Except.ok.inj hr']
      exact hrenames.eval σ
  · rw [herror]
    exact ⟨⟨fun _ => ⟨s, BoolExpr.support_of_hasNode hnode hs, h2, hnone⟩, fun _ => ⟨e, rfl⟩⟩, fun r hr => (nomatch hr)⟩

theorem remap_calls (varMap : VarMap) (roots : List BoolExpr) :
    List.Forall₂ (RenameOutcome varMap) roots
      (memoCalls (remapBoolExprVariables varMap) roots []).1 :=
  memoCalls_spec (P := Renames varMap) (renames_call remapNode_renames) roots
    fun _ _ h => (nomatch h)

theorem strict_calls (varMap : VarMap) (roots : List BoolExpr) :
    List.Forall₂ (RenameOutcome varMap) roots
      (memoCalls (remapSecFormulaStrict varMap) roots []).1 :=
  memoCalls_spec (P := Renames varMap) (renames_call strictNode_renames) roots
    fun _ _ h => (nomatch h)

/-! ## What a replacement owes -/

/-- The recursion with a memo gives the plain substitution. -/
theorem substituteShared_computes (leaf : Nat → BoolExpr) (e : BoolExpr) (memo : ExprMemo)
    (h : memo.Valid (BoolExpr.substitute leaf)) :
    Memo.Computes (BoolExpr.substitute leaf) e (substituteShared leaf e memo) := by
  induction e generalizing memo with
  | var id => exact h.remember ⟨rfl, h⟩
  | not a ih =>
    obtain ⟨hleft, hmemo⟩ := ih memo h
    refine h.remember ⟨?_, hmemo⟩
    simp only [hleft, BoolExpr.substitute]
  | and a b iha ihb | or a b iha ihb | xor a b iha ihb =>
    obtain ⟨hleft, hmemo⟩ := iha memo h
    obtain ⟨hright, hmemo'⟩ := ihb _ hmemo
    refine h.remember ⟨?_, hmemo'⟩
    simp only [hleft, hright, BoolExpr.substitute]

/-- Calls of a substitution that share a memo. -/
def substituteCalls (call : BoolExpr → ExprMemo → BoolExpr × ExprMemo) :
    List BoolExpr → ExprMemo → List BoolExpr
  | [], _ => []
  | root :: roots, memo =>
    let first := call root memo
    first.1 :: substituteCalls call roots first.2

theorem substituteCalls_eq (leaf : Nat → BoolExpr) (roots : List BoolExpr) (memo : ExprMemo)
    (h : memo.Valid (BoolExpr.substitute leaf)) :
    substituteCalls (substituteShared leaf) roots memo = roots.map (BoolExpr.substitute leaf) := by
  induction roots generalizing memo with
  | nil => rfl
  | cons root roots ih =>
    obtain ⟨hfirst, hmemo⟩ := substituteShared_computes leaf root memo h
    rw [substituteCalls, hfirst, ih _ hmemo, List.map_cons]

/-- The assignment with some variables fixed. -/
def assigned (assignments : List (Nat × Bool)) (σ : Valuation) : Valuation := fun s =>
  (assignments.lookup s).getD (σ s)

/-- The assignment that reads a replaced variable through its expression. -/
def replaced (replacements : List (Nat × BoolExpr)) (σ : Valuation) : Valuation := fun s =>
  match replacements.lookup s with
  | some e => e.eval σ
  | none => σ s

theorem eval_assigned (assignments : List (Nat × Bool)) (root : BoolExpr) (σ : Valuation) :
    (root.substitute (assignedLeaf assignments)).eval σ = root.eval (assigned assignments σ) := by
  have hkeep : ∀ s < 2, assignedLeaf assignments s = .var s := fun s hs => if_pos hs
  rw [BoolExpr.eval_substitute hkeep]
  apply BoolExpr.eval_congr
  intro s _ h2
  rw [assignedLeaf, if_neg (Nat.not_lt.mpr h2), assigned]
  cases assignments.lookup s with
  | none => exact BoolExpr.eval_var σ h2
  | some value => cases value <;> rfl

/-- A replacement for a constant is that constant under every assignment. -/
def ConstantsKept (replacements : List (Nat × BoolExpr)) : Prop :=
  ∀ s < 2, ∀ e, replacements.lookup s = some e → ∀ σ, e.eval σ = (BoolExpr.var s).eval σ

theorem eval_expressions (replacements : List (Nat × BoolExpr)) (root : BoolExpr)
    (σ : Valuation) :
    (substituteBoolExprVariableExpressions replacements root).eval σ =
      (root.substitute (replacedLeaf replacements)).eval σ := by
  unfold substituteBoolExprVariableExpressions
  split
  · next hempty =>
    rw [BoolExpr.substitute_eq_self]
    intro s _
    rw [List.isEmpty_iff.mp hempty]
    rfl
  · rw [BoolExpr.eval_simplifyWhenChanged, substituteBoolExprVariableExpressionsImpl,
      (substituteShared_computes _ root [] (Memo.valid_nil _)).1]

/-! ## The four passes -/

/-- Every call of every pass, also with a memo of earlier calls, gives the value under the
composed assignment; the strict passes fail exactly when a name is missing. -/
structure SubstitutionLemma (varMap : VarMap) (assignments : List (Nat × Bool))
    (replacements : List (Nat × BoolExpr)) : Prop where
  remap : ∀ roots, List.Forall₂ (RenameOutcome varMap) roots
    (memoCalls (remapBoolExprVariables varMap) roots []).1
  strict : ∀ roots, List.Forall₂ (RenameOutcome varMap) roots
    (memoCalls (remapSecFormulaStrict varMap) roots []).1
  assign : ∀ roots, List.Forall₂
    (fun root r => ∀ σ, r.eval σ = root.eval (assigned assignments σ)) roots
    (substituteCalls (substituteBoolExprVariables assignments) roots [])
  expressions : ∀ root σ, (substituteBoolExprVariableExpressions replacements root).eval σ =
    root.eval (replaced replacements σ)

theorem assign_calls (assignments : List (Nat × Bool)) (roots : List BoolExpr) :
    List.Forall₂ (fun root r => ∀ σ, r.eval σ = root.eval (assigned assignments σ)) roots
      (substituteCalls (substituteBoolExprVariables assignments) roots []) := by
  rw [substituteBoolExprVariables, substituteCalls_eq _ _ _ (Memo.valid_nil _),
    List.forall₂_map_right_iff, List.forall₂_same]
  exact fun root _ σ => eval_assigned assignments root σ

theorem expressions_of_constantsKept {replacements : List (Nat × BoolExpr)}
    (h : ConstantsKept replacements) (root : BoolExpr) (σ : Valuation) :
    (substituteBoolExprVariableExpressions replacements root).eval σ =
      root.eval (replaced replacements σ) := by
  have hconst : ∀ s < 2, (replacedLeaf replacements s).eval σ = (BoolExpr.var s).eval σ := by
    intro s hs
    rw [replacedLeaf]
    cases hlookup : replacements.lookup s with
    | none => rfl
    | some e => exact h s hs e hlookup σ
  rw [eval_expressions, BoolExpr.eval_substitute_of_constants hconst]
  apply BoolExpr.eval_congr
  intro s _ h2
  rw [replacedLeaf, replaced]
  cases replacements.lookup s with
  | none => exact BoolExpr.eval_var σ h2
  | some e => rfl

theorem constantsKept_of_expressions {replacements : List (Nat × BoolExpr)}
    (h : ∀ root σ, (substituteBoolExprVariableExpressions replacements root).eval σ =
      root.eval (replaced replacements σ)) : ConstantsKept replacements := by
  intro s hs e hlookup σ
  have hroot := h (.var s) σ
  rw [eval_expressions, BoolExpr.substitute, replacedLeaf, hlookup, Option.getD_some] at hroot
  rw [hroot]
  rcases (by omega : s = 0 ∨ s = 1) with rfl | rfl <;> rfl

theorem substitutionLemma_iff (varMap : VarMap) (assignments : List (Nat × Bool))
    (replacements : List (Nat × BoolExpr)) :
    SubstitutionLemma varMap assignments replacements ↔ ConstantsKept replacements := by
  constructor
  · intro h
    exact constantsKept_of_expressions h.expressions
  · intro h
    exact ⟨remap_calls varMap, strict_calls varMap, assign_calls assignments,
      expressions_of_constantsKept h⟩

/-- A map with an entry for the constant false replaces the constant. -/
theorem substitutionLemma_fails_at_constant :
    ¬ SubstitutionLemma [] [] [(0, .var 2)] := by
  intro h
  have hroot := h.expressions .createFalse fun _ => true
  exact absurd hroot (by decide)

end KeplerFormal.Remapping
