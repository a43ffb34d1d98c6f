import KeplerFormal.Core.Postorder
import KeplerFormal.Core.Memo
import KeplerFormal.Core.Fallible
import KeplerFormal.L1Formula.Substitution

/-!
# Traversals of an expression

The passes over large expressions go through the nodes in postorder with a stack of their
own: the operands of a node, the left one first, then the node.

* `operands`, `weight`: what the stack is filled with, and a bound for it.
* `HasNode`: a node of the root's cone; `support_of_hasNode`: it reads only variables of the root.
* `memoTraversal`: a pass that remembers one result for each node.
* `plainly`: the same pass without a memo; `memoCall_plainly`: the memo changes no result.
-/
namespace KeplerFormal

open Core

namespace BoolExpr

def operands : BoolExpr → List BoolExpr
  | .var _ => []
  | .not a => [a]
  | .and a b => [a, b]
  | .or a b => [a, b]
  | .xor a b => [a, b]

def weight : BoolExpr → Nat
  | .var _ => 2
  | .not a => a.weight + 2
  | .and a b => a.weight + b.weight + 2
  | .or a b => a.weight + b.weight + 2
  | .xor a b => a.weight + b.weight + 2

theorem weight_operands (e : BoolExpr) : (e.operands.map weight).sum + 2 ≤ e.weight := by
  cases e <;> simp [operands, weight]

theorem support_operand {e c : BoolExpr} (hc : c ∈ e.operands) :
    c.getSupportVars ⊆ e.getSupportVars := by
  cases e with
  | var id => exact absurd hc List.not_mem_nil
  | not a =>
    rw [List.mem_singleton.mp hc]
    exact Finset.Subset.refl _
  | and a b | or a b | xor a b =>
    rcases List.mem_pair.mp hc with rfl | rfl
    · exact Finset.subset_union_left
    · exact Finset.subset_union_right

/-- A node of the cone of `root`. -/
def HasNode (root : BoolExpr) : BoolExpr → Prop :=
  Relation.ReflTransGen (fun n c => c ∈ n.operands) root

theorem support_of_hasNode {root n : BoolExpr} (h : HasNode root n) :
    n.getSupportVars ⊆ root.getSupportVars := by
  induction h with
  | refl => exact Finset.Subset.refl _
  | tail _ hc ih => exact (support_operand hc).trans ih

theorem mem_support_iff_hasNode {root : BoolExpr} {id : Nat} :
    id ∈ root.getSupportVars ↔ HasNode root (.var id) := by
  refine ⟨fun h => ?_, fun h => support_of_hasNode h (Finset.mem_singleton_self id)⟩
  induction root with
  | var i =>
    rw [Finset.mem_singleton.mp h]
    exact .refl
  | not a ih => exact .head (List.mem_singleton_self a) (ih h)
  | and a b iha ihb | or a b iha ihb | xor a b iha ihb =>
    rcases Finset.mem_union.mp h with h | h
    · exact .head List.mem_cons_self (iha h)
    · exact .head (List.mem_cons_of_mem _ (List.mem_singleton_self b)) (ihb h)

end BoolExpr

/-! ## Passes with one result for each node -/

abbrev ExprMemo := Memo BoolExpr BoolExpr

variable {R : Type}

/-- The entry of a node that has one.
mirrors `memo.at` -/
def ExprMemo.at (memo : Memo BoolExpr R) (node : BoolExpr) : Except String R :=
  match memo.lookup node with
  | some result => .ok result
  | none => .error "unordered_map::at"

/-- The traversal that stores what `build` makes of the results of the operands. -/
def memoTraversal (skipDone : Bool) (build : Memo BoolExpr R → BoolExpr → Except String R) :
    Traversal BoolExpr (Memo BoolExpr R) String where
  children := BoolExpr.operands
  done memo node := (memo.lookup node).isSome
  finish node memo :=
    match build memo node with
    | .ok result => .ok ((node, result) :: memo)
    | .error e => .error (e, memo)
  skipDone := skipDone
  weight := BoolExpr.weight
  weight_children := BoolExpr.weight_operands

/-- A call: the result, or the failure, and the memo as the call leaves it. -/
def memoCall (skipDone : Bool) (build : Memo BoolExpr R → BoolExpr → Except String R)
    (root : BoolExpr) (memo : Memo BoolExpr R) : Except String R × Memo BoolExpr R :=
  if (memo.lookup root).isSome then (ExprMemo.at memo root, memo)
  else
    match (memoTraversal skipDone build).visit root memo with
    | .ok memo => (ExprMemo.at memo root, memo)
    | .error (e, memo) => (.error e, memo)

/-- Calls that share a memo. -/
def memoCalls (call : BoolExpr → Memo BoolExpr R → Except String R × Memo BoolExpr R) :
    List BoolExpr → Memo BoolExpr R → List (Except String R) × Memo BoolExpr R
  | [], memo => ([], memo)
  | root :: roots, memo =>
    let first := call root memo
    let rest := memoCalls call roots first.2
    (first.1 :: rest.1, rest.2)

section Rule
variable {skipDone : Bool} {build : Memo BoolExpr R → BoolExpr → Except String R}

/-- Every remembered result satisfies `P`. -/
def ExprMemo.All (P : BoolExpr → R → Prop) (memo : Memo BoolExpr R) : Prop :=
  ∀ node result, memo.lookup node = some result → P node result

theorem ExprMemo.All.cons {P : BoolExpr → R → Prop} {memo : Memo BoolExpr R}
    (h : ExprMemo.All P memo) {node : BoolExpr} {result : R} (hnew : P node result) :
    ExprMemo.All P ((node, result) :: memo) := by
  intro other found hlookup
  rw [List.lookup_cons] at hlookup
  split at hlookup
  · rename_i hsame
    obtain rfl : other = node := eq_of_beq hsame
    cases hlookup
    exact hnew
  · exact h other found hlookup

/-- The entries that a finished node reads. -/
theorem ExprMemo.at_of_done {P : BoolExpr → R → Prop} {memo : Memo BoolExpr R}
    (h : ExprMemo.All P memo) {node : BoolExpr} (hdone : (memo.lookup node).isSome = true) :
    ∃ result, ExprMemo.at memo node = .ok result ∧ P node result := by
  obtain ⟨result, hresult⟩ := Option.isSome_iff_exists.mp hdone
  refine ⟨result, ?_, h node result hresult⟩
  rw [ExprMemo.at, hresult]

/-- A call gives a result that satisfies `P`, or fails at a node below the root; the memo
stays usable either way. -/
theorem memoCall_spec {P : BoolExpr → R → Prop} {Bad : BoolExpr → Prop}
    (hbuild : ∀ node memo, ExprMemo.All P memo →
      (∀ c ∈ node.operands, ∃ result, ExprMemo.at memo c = .ok result ∧ P c result) →
      (∃ result, build memo node = .ok result ∧ P node result) ∨
      (∃ e, build memo node = .error e ∧ Bad node))
    (root : BoolExpr) {memo : Memo BoolExpr R} (hmemo : ExprMemo.All P memo) :
    ((∃ result, (memoCall skipDone build root memo).1 = .ok result ∧ P root result) ∨
      (∃ e n, (memoCall skipDone build root memo).1 = .error e ∧ Bad n ∧ root.HasNode n)) ∧
    ExprMemo.All P (memoCall skipDone build root memo).2 := by
  unfold memoCall
  split
  · next hfound => exact ⟨.inl (ExprMemo.at_of_done hmemo hfound), hmemo⟩
  · have hvisit := @Traversal.visit_spec _ _ _ (memoTraversal skipDone build) (ExprMemo.All P)
      (fun n _ => Bad n) root ?_ memo hmemo
    · rcases hvisit with ⟨memo', hok, hall, hroot, -⟩ | ⟨e, memo', n, herror, hall, hbad, hreach⟩
      · rw [hok]
        exact ⟨.inl (ExprMemo.at_of_done hall hroot), hall⟩
      · rw [herror]
        exact ⟨.inr ⟨e, n, rfl, hbad, hreach⟩, hall⟩
    · intro node memo _ hall _ hoperands
      rcases hbuild node memo hall fun c hc => ExprMemo.at_of_done hall (hoperands c hc) with
        ⟨result, hok, hP⟩ | ⟨e, herror, hbad⟩
      · refine .inl ⟨(node, result) :: memo, ?_, hall.cons hP, ?_, fun x hx => ?_⟩
        · simp only [memoTraversal, hok]
        · simp [memoTraversal]
        · simp only [memoTraversal, List.lookup_cons] at hx ⊢
          split
          · rfl
          · exact hx
      · refine .inr ⟨e, memo, ?_, hall, hbad⟩
        simp only [memoTraversal, herror]

/-- A property of every call from an acceptable memo holds of all calls in a row. -/
theorem memoCalls_spec {call : BoolExpr → Memo BoolExpr R → Except String R × Memo BoolExpr R}
    {P : BoolExpr → R → Prop} {Q : BoolExpr → Except String R → Prop}
    (hcall : ∀ root memo, ExprMemo.All P memo →
      Q root (call root memo).1 ∧ ExprMemo.All P (call root memo).2)
    (roots : List BoolExpr) {memo : Memo BoolExpr R} (hmemo : ExprMemo.All P memo) :
    List.Forall₂ Q roots (memoCalls call roots memo).1 := by
  induction roots generalizing memo with
  | nil => exact .nil
  | cons root roots ih =>
    obtain ⟨hfirst, hnext⟩ := hcall root memo hmemo
    exact .cons hfirst (ih hnext)

theorem memoCalls_memo {call : BoolExpr → Memo BoolExpr R → Except String R × Memo BoolExpr R}
    {P : BoolExpr → R → Prop}
    (hcall : ∀ root memo, ExprMemo.All P memo → ExprMemo.All P (call root memo).2)
    (roots : List BoolExpr) {memo : Memo BoolExpr R} (hmemo : ExprMemo.All P memo) :
    ExprMemo.All P (memoCalls call roots memo).2 := by
  induction roots generalizing memo with
  | nil => exact hmemo
  | cons root roots ih => exact ih (hcall root memo hmemo)

end Rule

/-! ## The pass without a memo -/

section Plainly
variable {skipDone : Bool} {build : Memo BoolExpr R → BoolExpr → Except String R}

/-- The result of every node from those of its operands, without sharing. -/
def plainly (build : Memo BoolExpr R → BoolExpr → Except String R) : BoolExpr → Except String R
  | .var id => build [] (.var id)
  | .not a => do
    let left ← plainly build a
    build [(a, left)] (.not a)
  | .and a b => do
    let left ← plainly build a
    let right ← plainly build b
    build [(a, left), (b, right)] (.and a b)
  | .or a b => do
    let left ← plainly build a
    let right ← plainly build b
    build [(a, left), (b, right)] (.or a b)
  | .xor a b => do
    let left ← plainly build a
    let right ← plainly build b
    build [(a, left), (b, right)] (.xor a b)

/-- A node is built from the entries of its operands. -/
def ReadsOperands (build : Memo BoolExpr R → BoolExpr → Except String R) : Prop :=
  ∀ node memo memo', (∀ c ∈ node.operands, ExprMemo.at memo c = ExprMemo.at memo' c) →
    build memo node = build memo' node

theorem at_pair {a b : BoolExpr} {left right : R} (hsame : a = b → left = right) :
    ExprMemo.at [(a, left), (b, right)] a = .ok left ∧
      ExprMemo.at [(a, left), (b, right)] b = .ok right := by
  refine ⟨by simp [ExprMemo.at], ?_⟩
  by_cases hab : b = a
  · simp [ExprMemo.at, hab, hsame hab.symm]
  · have hne : (b == a) = false := beq_eq_false_iff_ne.mpr hab
    simp [ExprMemo.at, List.lookup_cons, hne]

/-- A node with two operands that has a result. -/
theorem plainly_binary {node a b : BoolExpr} {r : R}
    (hnode : plainly build node = do
      let left ← plainly build a
      let right ← plainly build b
      build [(a, left), (b, right)] node) (h : plainly build node = .ok r) :
    ∃ left right, plainly build a = .ok left ∧ plainly build b = .ok right ∧
      ExprMemo.at [(a, left), (b, right)] a = .ok left ∧
      ExprMemo.at [(a, left), (b, right)] b = .ok right ∧
      build [(a, left), (b, right)] node = .ok r := by
  rw [hnode] at h
  obtain ⟨left, hleft, h⟩ := bind_ok.mp h
  obtain ⟨right, hright, h⟩ := bind_ok.mp h
  have hsame : a = b → left = right := fun hab => by
    rw [hab, hright] at hleft
    exact (Except.ok.inj hleft).symm
  obtain ⟨hata, hatb⟩ := at_pair hsame
  exact ⟨left, right, hleft, hright, hata, hatb, h⟩

/-- Where the operands have results, the node is built from any memo that holds them. -/
theorem plainly_of_entries (hreads : ReadsOperands build) {node : BoolExpr}
    {memo : Memo BoolExpr R} (h : ∀ c ∈ node.operands,
      ∃ r, ExprMemo.at memo c = .ok r ∧ plainly build c = .ok r) :
    plainly build node = build memo node := by
  have hbinary : ∀ (op : BoolExpr) (a b : BoolExpr), op.operands = [a, b] →
      (∀ c ∈ op.operands, ∃ r, ExprMemo.at memo c = .ok r ∧ plainly build c = .ok r) →
      (do
        let left ← plainly build a
        let right ← plainly build b
        build [(a, left), (b, right)] op) = build memo op := by
    intro op a b hop h
    rw [hop] at h
    obtain ⟨left, ha, hleft⟩ := h a List.mem_cons_self
    obtain ⟨right, hb, hright⟩ := h b (List.mem_cons_of_mem _ (List.mem_singleton_self b))
    rw [hleft, ok_bind, hright, ok_bind]
    have hsame : a = b → left = right := fun hab => by
      rw [hab, hb] at ha
      exact (Except.ok.inj ha).symm
    obtain ⟨hata, hatb⟩ := at_pair hsame
    refine hreads op _ _ fun c hc => ?_
    rw [hop] at hc
    rcases List.mem_pair.mp hc with rfl | rfl
    · rw [hata, ha]
    · rw [hatb, hb]
  cases node with
  | var id => exact hreads (.var id) _ _ fun c hc => absurd hc List.not_mem_nil
  | not a =>
    obtain ⟨left, ha, hleft⟩ := h a (List.mem_singleton_self a)
    rw [plainly, hleft, ok_bind]
    refine hreads (.not a) _ _ fun c hc => ?_
    rw [List.mem_singleton.mp hc, ha]
    simp [ExprMemo.at]
  | and a b => exact hbinary (.and a b) a b rfl h
  | or a b => exact hbinary (.or a b) a b rfl h
  | xor a b => exact hbinary (.xor a b) a b rfl h

/-- A node below one that has a result has one. -/
theorem plainly_of_hasNode {root n : BoolExpr} (h : root.HasNode n) {r : R}
    (hroot : plainly build root = .ok r) : ∃ r', plainly build n = .ok r' := by
  have hoperand : ∀ {m c : BoolExpr}, c ∈ m.operands → ∀ {r : R}, plainly build m = .ok r →
      ∃ r', plainly build c = .ok r' := by
    intro m c hc r hm
    cases m with
    | var id => exact absurd hc List.not_mem_nil
    | not a =>
      obtain ⟨left, hleft, -⟩ := bind_ok.mp hm
      exact ⟨left, List.mem_singleton.mp hc ▸ hleft⟩
    | and a b | or a b | xor a b =>
      obtain ⟨left, hleft, hm⟩ := bind_ok.mp hm
      obtain ⟨right, hright, -⟩ := bind_ok.mp hm
      rcases List.mem_pair.mp hc with rfl | rfl
      · exact ⟨left, hleft⟩
      · exact ⟨right, hright⟩
  induction h with
  | refl => exact ⟨r, hroot⟩
  | tail _ hc ih =>
    obtain ⟨r', hr'⟩ := ih
    exact hoperand hc hr'

/-- A call gives what the pass without a memo gives, from any memo that earlier calls left. -/
theorem memoCall_plainly (hreads : ReadsOperands build) (root : BoolExpr)
    {memo : Memo BoolExpr R} (hmemo : ExprMemo.All (fun e r => plainly build e = .ok r) memo) :
    SameOutcome (· = ·) (memoCall skipDone build root memo).1 (plainly build root) ∧
      ExprMemo.All (fun e r => plainly build e = .ok r)
        (memoCall skipDone build root memo).2 := by
  obtain ⟨houtcome, hmemo'⟩ := @memoCall_spec _ skipDone build (fun e r => plainly build e = .ok r)
      (fun n => ∃ e, plainly build n = .error e) (fun node memo _ hoperands => by
      rw [plainly_of_entries hreads hoperands]
      cases hnode : build memo node with
      | ok r => exact .inl ⟨r, rfl, rfl⟩
      | error e => exact .inr ⟨e, rfl, e, rfl⟩) root _ hmemo
  refine ⟨?_, hmemo'⟩
  rcases houtcome with ⟨r, hr, hplain⟩ | ⟨e, n, he, ⟨e', hn⟩, hnode⟩
  · exact .inl ⟨r, r, hr, hplain, rfl⟩
  · cases hroot : plainly build root with
    | error e'' => exact .inr ⟨e, e'', he, rfl⟩
    | ok r =>
      obtain ⟨r', hr'⟩ := plainly_of_hasNode hnode hroot
      rw [hn] at hr'
      cases hr'

end Plainly

end KeplerFormal
