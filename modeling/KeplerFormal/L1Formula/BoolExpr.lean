import Mathlib

/-!
# Boolean expressions (`src/formal/BoolExpr.cpp`)

`BoolExpr` is a hash-consed DAG over `VAR`, `AND`, `OR`, `NOT`, `XOR`;
variables 0 and 1 are the constants false and true. Two nodes are one pointer
exactly when they have the same structure, so the model is the tree itself and
pointer comparison is `=`.

* `structuralHash`, `structuralCompare`: the comparator that sorts the two
  operands of a commutative node.
* `Not`, `And`, `Or`, `Xor`: the factories with their local folding.
* `simplify`: one bottom-up pass of the same folding.
* `eval_And`, ..., `eval_simplify`: the factories and the pass keep the value.
* `eval_congr`: the value depends on the support only.
* `mem_support_Not`, ..., `mem_support_simplify`: the factories and the pass read nothing new.
-/
namespace KeplerFormal

/-- Values of the symbols of one frame. -/
abbrev Valuation := Nat → Bool

/-- mirrors src/formal/BoolExpr.h:23-152 (operators of BoolExprCache.h:14) -/
inductive BoolExpr where
  | var (id : Nat)
  | and (a b : BoolExpr)
  | or (a b : BoolExpr)
  | not (a : BoolExpr)
  | xor (a b : BoolExpr)
  deriving DecidableEq, Repr

namespace BoolExpr

def createFalse : BoolExpr := .var 0

def createTrue : BoolExpr := .var 1

/-- mirrors src/formal/BoolExpr.cpp:468-535 (`evaluate`) -/
def eval (σ : Valuation) : BoolExpr → Bool
  | .var 0 => false
  | .var 1 => true
  | .var (n + 2) => σ (n + 2)
  | .and a b => a.eval σ && b.eval σ
  | .or a b => a.eval σ || b.eval σ
  | .not a => !a.eval σ
  | .xor a b => a.eval σ ^^ b.eval σ

/-- mirrors src/formal/BoolExpr.cpp:651-678. The constants 0 and 1 are listed
like any other variable; every caller skips ids below 2. -/
def getSupportVars : BoolExpr → Finset Nat
  | .var id => {id}
  | .and a b => a.getSupportVars ∪ b.getSupportVars
  | .or a b => a.getSupportVars ∪ b.getSupportVars
  | .not a => a.getSupportVars
  | .xor a b => a.getSupportVars ∪ b.getSupportVars

/-! ## Operand order -/

/-- mirrors src/formal/BoolExpr.h:139-146 -/
def splitmix64 (x : UInt64) : UInt64 :=
  let x : UInt64 := x + (0x9e3779b97f4a7c15 : UInt64)
  let x : UInt64 := (x ^^^ (x >>> 30)) * (0xbf58476d1ce4e5b9 : UInt64)
  let x : UInt64 := (x ^^^ (x >>> 27)) * (0x94d049bb133111eb : UInt64)
  x ^^^ (x >>> 31)

def mixHash (seed value : UInt64) : UInt64 :=
  splitmix64 (seed ^^^ (value + (0x9e3779b97f4a7c15 : UInt64) + (seed <<< 6) + (seed >>> 2)))

def opIndex : BoolExpr → Nat
  | .var _ => 0
  | .and _ _ => 1
  | .or _ _ => 2
  | .not _ => 3
  | .xor _ _ => 4

def hashNode (op id : Nat) (left right : UInt64) : UInt64 :=
  let h := splitmix64 (UInt64.ofNat op ^^^ (0x9e3779b97f4a7c15 : UInt64))
  mixHash (mixHash (mixHash h (UInt64.ofNat id)) left) right

/-- mirrors src/formal/BoolExpr.cpp:266-281 -/
def structuralHash : BoolExpr → UInt64
  | .var id => hashNode 0 id 0x6a09e667f3bcc909 0xbb67ae8584caa73b
  | .and a b => hashNode 1 0 a.structuralHash b.structuralHash
  | .or a b => hashNode 2 0 a.structuralHash b.structuralHash
  | .not a => hashNode 3 0 a.structuralHash 0xbb67ae8584caa73b
  | .xor a b => hashNode 4 0 a.structuralHash b.structuralHash

/-- Three-way form of `operator<`: the hash first, then operator, id and the
operands from left to right.
mirrors src/formal/BoolExpr.h:81-114 -/
def structuralCompare : BoolExpr → BoolExpr → Ordering
  | .var i, .var j =>
    (compare (structuralHash (.var i)) (structuralHash (.var j))).then (compare i j)
  | .and a b, .and c d => compareBinary .and a b c d (structuralCompare a c) (structuralCompare b d)
  | .or a b, .or c d => compareBinary .or a b c d (structuralCompare a c) (structuralCompare b d)
  | .xor a b, .xor c d => compareBinary .xor a b c d (structuralCompare a c) (structuralCompare b d)
  | .not a, .not b =>
    (compare (structuralHash (.not a)) (structuralHash (.not b))).then (structuralCompare a b)
  | a, b => (compare a.structuralHash b.structuralHash).then (compare a.opIndex b.opIndex)
where
  compareBinary (op : BoolExpr → BoolExpr → BoolExpr) (a b c d : BoolExpr)
      (left right : Ordering) : Ordering :=
    (compare (op a b).structuralHash (op c d).structuralHash).then (left.then right)

/-- The private constructor puts the structurally smaller operand on the left
(`*b <= *a` swaps).
mirrors src/formal/BoolExpr.cpp:250-264 -/
def sorted (op : BoolExpr → BoolExpr → BoolExpr) (a b : BoolExpr) : BoolExpr :=
  if structuralCompare b a ≠ .gt then op b a else op a b

/-! ## Factories -/

/-- mirrors src/formal/BoolExpr.cpp:313-324 -/
def Not : BoolExpr → BoolExpr
  | .var 0 => .var 1
  | .var 1 => .var 0
  | .not a => a
  | a => .not a

/-- mirrors src/formal/BoolExpr.cpp:326-355 -/
def And (a b : BoolExpr) : BoolExpr :=
  if a = .var 0 ∨ b = .var 0 then .var 0
  else if a = .var 1 then b
  else if b = .var 1 then a
  else if a = b then a
  else if a = .not b ∨ b = .not a then .var 0
  else sorted .and a b

/-- mirrors src/formal/BoolExpr.cpp:357-385 -/
def Or (a b : BoolExpr) : BoolExpr :=
  if a = .var 1 ∨ b = .var 1 then .var 1
  else if a = .var 0 then b
  else if b = .var 0 then a
  else if a = b then a
  else if a = .not b ∨ b = .not a then .var 1
  else sorted .or a b

/-- mirrors src/formal/BoolExpr.cpp:387-410 -/
def Xor (a b : BoolExpr) : BoolExpr :=
  if a = .var 0 then b
  else if b = .var 0 then a
  else if a = .var 1 then Not b
  else if b = .var 1 then Not a
  else if a = b then .var 0
  else sorted .xor a b

/-- One bottom-up pass; the checks before each factory call are the factory's
own first checks.
mirrors src/formal/BoolExpr.cpp:558-649 -/
def simplify : BoolExpr → BoolExpr
  | .var id => .var id
  | .not a => Not a.simplify
  | .and a b => And a.simplify b.simplify
  | .or a b => Or a.simplify b.simplify
  | .xor a b => Xor a.simplify b.simplify

/-- mirrors src/sec/common/BoolExprUtils.h:47-49 -/
def makeEqualityExpr (lhs rhs : BoolExpr) : BoolExpr := Not (Xor lhs rhs)

/-! ## The factories keep the value -/

section Eval
variable (σ : Valuation)

@[simp] theorem eval_createFalse : createFalse.eval σ = false := rfl

@[simp] theorem eval_createTrue : createTrue.eval σ = true := rfl

theorem eval_var {s : Nat} (hs : 2 ≤ s) : (BoolExpr.var s).eval σ = σ s := by
  obtain ⟨n, rfl⟩ : ∃ n, s = n + 2 := ⟨s - 2, by omega⟩
  rfl

theorem Not_var {s : Nat} (hs : 2 ≤ s) : Not (.var s) = .not (.var s) := by
  obtain ⟨n, rfl⟩ : ∃ n, s = n + 2 := ⟨s - 2, by omega⟩
  rfl

@[simp] theorem eval_Not (a : BoolExpr) : (Not a).eval σ = !a.eval σ := by
  unfold Not
  split <;> simp [eval]

theorem eval_sorted_and (a b : BoolExpr) :
    (sorted .and a b).eval σ = (a.eval σ && b.eval σ) := by
  unfold sorted
  split
  · simp [eval, Bool.and_comm]
  · rfl

theorem eval_sorted_or (a b : BoolExpr) :
    (sorted .or a b).eval σ = (a.eval σ || b.eval σ) := by
  unfold sorted
  split
  · simp [eval, Bool.or_comm]
  · rfl

theorem eval_sorted_xor (a b : BoolExpr) :
    (sorted .xor a b).eval σ = (a.eval σ ^^ b.eval σ) := by
  unfold sorted
  split
  · simp [eval, Bool.xor_comm]
  · rfl

@[simp] theorem eval_And (a b : BoolExpr) : (And a b).eval σ = (a.eval σ && b.eval σ) := by
  unfold And
  split
  · rename_i h
    rcases h with rfl | rfl <;> simp [eval]
  · split
    · rename_i h; subst h; simp [eval]
    · split
      · rename_i h; subst h; simp [eval]
      · split
        · rename_i h; subst h; simp
        · split
          · rename_i h
            rcases h with rfl | rfl <;> simp [eval]
          · exact eval_sorted_and σ a b

@[simp] theorem eval_Or (a b : BoolExpr) : (Or a b).eval σ = (a.eval σ || b.eval σ) := by
  unfold Or
  split
  · rename_i h
    rcases h with rfl | rfl <;> simp [eval]
  · split
    · rename_i h; subst h; simp [eval]
    · split
      · rename_i h; subst h; simp [eval]
      · split
        · rename_i h; subst h; simp
        · split
          · rename_i h
            rcases h with rfl | rfl <;> simp [eval]
          · exact eval_sorted_or σ a b

@[simp] theorem eval_Xor (a b : BoolExpr) : (Xor a b).eval σ = (a.eval σ ^^ b.eval σ) := by
  unfold Xor
  split
  · rename_i h; subst h; simp [eval]
  · split
    · rename_i h; subst h; simp [eval]
    · split
      · rename_i h; subst h; simp [eval]
      · split
        · rename_i h; subst h; simp [eval]
        · split
          · rename_i h; subst h; simp [eval]
          · exact eval_sorted_xor σ a b

@[simp] theorem eval_simplify (e : BoolExpr) : e.simplify.eval σ = e.eval σ := by
  induction e with
  | var id => rfl
  | and a b iha ihb => simp [simplify, eval, iha, ihb]
  | or a b iha ihb => simp [simplify, eval, iha, ihb]
  | not a ih => simp [simplify, eval, ih]
  | xor a b iha ihb => simp [simplify, eval, iha, ihb]

@[simp] theorem eval_makeEqualityExpr (a b : BoolExpr) :
    (makeEqualityExpr a b).eval σ = (a.eval σ == b.eval σ) := by
  simp only [makeEqualityExpr, eval_Not, eval_Xor]
  cases a.eval σ <;> cases b.eval σ <;> rfl

end Eval

/-- The value depends only on the non-constant support. -/
theorem eval_congr {σ τ : Valuation} {e : BoolExpr}
    (h : ∀ s ∈ e.getSupportVars, 2 ≤ s → σ s = τ s) : e.eval σ = e.eval τ := by
  induction e with
  | var id =>
    match id with
    | 0 => rfl
    | 1 => rfl
    | n + 2 => exact h (n + 2) (by simp [getSupportVars]) (by omega)
  | and a b iha ihb =>
    simp only [getSupportVars, Finset.mem_union] at h
    simp only [eval, iha fun s hs => h s (.inl hs), ihb fun s hs => h s (.inr hs)]
  | or a b iha ihb =>
    simp only [getSupportVars, Finset.mem_union] at h
    simp only [eval, iha fun s hs => h s (.inl hs), ihb fun s hs => h s (.inr hs)]
  | not a ih => simp only [eval, ih h]
  | xor a b iha ihb =>
    simp only [getSupportVars, Finset.mem_union] at h
    simp only [eval, iha fun s hs => h s (.inl hs), ihb fun s hs => h s (.inr hs)]

/-! ## Supports -/

/-- The factories read nothing but their operands. -/
theorem mem_support_Not {a : BoolExpr} {s : Nat} (hs : s ∈ (Not a).getSupportVars) (h2 : 2 ≤ s) :
    s ∈ a.getSupportVars := by
  unfold Not at hs
  split at hs
  · simp [getSupportVars] at hs
    omega
  · simp [getSupportVars] at hs
    omega
  · exact hs
  · exact hs

theorem mem_support_sorted {op : BoolExpr → BoolExpr → BoolExpr} {a b : BoolExpr} {s : Nat}
    (hop : ∀ a b, (op a b).getSupportVars = a.getSupportVars ∪ b.getSupportVars)
    (hs : s ∈ (sorted op a b).getSupportVars) : s ∈ a.getSupportVars ∨ s ∈ b.getSupportVars := by
  unfold sorted at hs
  split at hs
  · rw [hop, Finset.mem_union] at hs
    exact hs.symm
  · rw [hop, Finset.mem_union] at hs
    exact hs

theorem mem_support_And {a b : BoolExpr} {s : Nat} (hs : s ∈ (And a b).getSupportVars)
    (h2 : 2 ≤ s) : s ∈ a.getSupportVars ∨ s ∈ b.getSupportVars := by
  unfold And at hs
  split at hs
  · simp [getSupportVars] at hs
    omega
  · split at hs
    · exact .inr hs
    · split at hs
      · exact .inl hs
      · split at hs
        · exact .inl hs
        · split at hs
          · simp [getSupportVars] at hs
            omega
          · exact mem_support_sorted (fun _ _ => rfl) hs

/-- A conjunction that does not fold to false keeps what its operands read. -/
theorem mem_support_And_left {a b : BoolExpr} {s : Nat} (h : And a b ≠ .var 0)
    (hs : s ∈ a.getSupportVars) (h2 : 2 ≤ s) : s ∈ (And a b).getSupportVars := by
  unfold And at h ⊢
  split at h
  · exact absurd rfl h
  · rename_i hzero
    rw [if_neg hzero]
    split
    · rename_i hone
      rw [hone] at hs
      simp [getSupportVars] at hs
      omega
    · split
      · exact hs
      · split
        · exact hs
        · split
          · rename_i hconst hconst' hsame hcompl
            simp [hconst, hconst', hsame, hcompl] at h
          · unfold sorted
            split
            · exact Finset.mem_union_right _ hs
            · exact Finset.mem_union_left _ hs

theorem mem_support_Or {a b : BoolExpr} {s : Nat} (hs : s ∈ (Or a b).getSupportVars)
    (h2 : 2 ≤ s) : s ∈ a.getSupportVars ∨ s ∈ b.getSupportVars := by
  unfold Or at hs
  split at hs
  · simp [getSupportVars] at hs
    omega
  · split at hs
    · exact .inr hs
    · split at hs
      · exact .inl hs
      · split at hs
        · exact .inl hs
        · split at hs
          · simp [getSupportVars] at hs
            omega
          · exact mem_support_sorted (fun _ _ => rfl) hs

theorem mem_support_Xor {a b : BoolExpr} {s : Nat} (hs : s ∈ (Xor a b).getSupportVars)
    (h2 : 2 ≤ s) : s ∈ a.getSupportVars ∨ s ∈ b.getSupportVars := by
  unfold Xor at hs
  split at hs
  · exact .inr hs
  · split at hs
    · exact .inl hs
    · split at hs
      · exact .inr (mem_support_Not hs h2)
      · split at hs
        · exact .inl (mem_support_Not hs h2)
        · split at hs
          · simp [getSupportVars] at hs
            omega
          · exact mem_support_sorted (fun _ _ => rfl) hs

theorem mem_support_simplify {e : BoolExpr} {s : Nat} (hs : s ∈ e.simplify.getSupportVars)
    (h2 : 2 ≤ s) : s ∈ e.getSupportVars := by
  induction e with
  | var id => exact hs
  | not a ih => exact ih (mem_support_Not hs h2)
  | and a b iha ihb =>
    exact Finset.mem_union.mpr ((mem_support_And hs h2).imp iha ihb)
  | or a b iha ihb =>
    exact Finset.mem_union.mpr ((mem_support_Or hs h2).imp iha ihb)
  | xor a b iha ihb =>
    exact Finset.mem_union.mpr ((mem_support_Xor hs h2).imp iha ihb)

end BoolExpr
end KeplerFormal
