import Mathlib

/-!
# Boolean BTOR2 models

A model is the list of its lines over inputs `ι` and states `ς`; a value is the term that
a node id stands for. States start as their `init` line says and follow their `next` line,
constraints hold in every frame.

* `Btor2Expr.eval`, `Btor2Model.Run`, `Btor2Model.BadAt`: values, runs, and the frames in
  which a bad value can be raised.
* `testBit_succ`, `div_two_pow_eq`: counting and comparing bit by bit.
-/
namespace KeplerFormal.Core

inductive Btor2Expr (ι ς : Type) where
  | const (value : Bool)
  | input (i : ι)
  | state (s : ς)
  | not (a : Btor2Expr ι ς)
  | and (a b : Btor2Expr ι ς)
  | or (a b : Btor2Expr ι ς)
  | xor (a b : Btor2Expr ι ς)
  | eq (a b : Btor2Expr ι ς)
  deriving DecidableEq, Repr

inductive Btor2Line (ι ς : Type) where
  | comment (text : String)
  | input (i : ι) (symbol : String)
  | state (s : ς) (symbol : String)
  | init (s : ς) (value : Btor2Expr ι ς)
  | next (s : ς) (value : Btor2Expr ι ς)
  | constraint (value : Btor2Expr ι ς)
  | bad (value : Btor2Expr ι ς) (symbol : String)
  deriving DecidableEq, Repr

abbrev Btor2Model (ι ς : Type) := List (Btor2Line ι ς)

/-- Values of the inputs and the states in every frame. -/
structure Btor2Trace (ι ς : Type) where
  inputs : Nat → ι → Bool
  states : Nat → ς → Bool

variable {ι ς : Type}

@[simp] def Btor2Expr.eval (inputs : ι → Bool) (states : ς → Bool) : Btor2Expr ι ς → Bool
  | .const value => value
  | .input i => inputs i
  | .state s => states s
  | .not a => !a.eval inputs states
  | .and a b => a.eval inputs states && b.eval inputs states
  | .or a b => a.eval inputs states || b.eval inputs states
  | .xor a b => a.eval inputs states ^^ b.eval inputs states
  | .eq a b => a.eval inputs states == b.eval inputs states

def Btor2Trace.value (r : Btor2Trace ι ς) (t : Nat) (e : Btor2Expr ι ς) : Bool :=
  e.eval (r.inputs t) (r.states t)

namespace Btor2Model

/-- The frames `0 .. n` of `r` obey the lines of the model. -/
structure Run (M : Btor2Model ι ς) (n : Nat) (r : Btor2Trace ι ς) : Prop where
  init : ∀ s e, .init s e ∈ M → r.states 0 s = r.value 0 e
  next : ∀ s e, .next s e ∈ M → ∀ t < n, r.states (t + 1) s = r.value t e
  constraint : ∀ e, .constraint e ∈ M → ∀ t ≤ n, r.value t e = true

/-- Some run raises a bad value in frame `t`. -/
def BadAt (M : Btor2Model ι ς) (t : Nat) : Prop :=
  ∃ r, M.Run t r ∧ ∃ e symbol, .bad e symbol ∈ M ∧ r.value t e = true

/-- What one line asks of the frames `0 .. n`. -/
def LineHolds (n : Nat) (r : Btor2Trace ι ς) : Btor2Line ι ς → Prop
  | .init s e => r.states 0 s = r.value 0 e
  | .next s e => ∀ t < n, r.states (t + 1) s = r.value t e
  | .constraint e => ∀ t ≤ n, r.value t e = true
  | _ => True

theorem run_iff {M : Btor2Model ι ς} {n : Nat} {r : Btor2Trace ι ς} :
    M.Run n r ↔ ∀ line ∈ M, LineHolds n r line := by
  constructor
  · intro h line hline
    cases line with
    | init s e => exact h.init s e hline
    | next s e => exact h.next s e hline
    | constraint e => exact h.constraint e hline
    | comment => trivial
    | input => trivial
    | state => trivial
    | bad => trivial
  · intro h
    exact ⟨fun s e he => h _ he, fun s e he => h _ he, fun e he => h _ he⟩

end Btor2Model

/-! ## Numbers bit by bit -/

/-- Adding one flips the bits above which all lower ones are set. -/
theorem testBit_succ (n i : Nat) :
    (n + 1).testBit i = (n.testBit i ^^ decide (∀ j < i, n.testBit j = true)) := by
  induction i generalizing n with
  | zero =>
    simp only [Nat.testBit_zero, Nat.not_lt_zero, false_implies, implies_true, decide_true,
      Bool.xor_true]
    rcases Nat.mod_two_eq_zero_or_one n with h | h <;> simp [Nat.add_mod, h]
  | succ i ih =>
    rw [Nat.testBit_add_one, Nat.testBit_add_one]
    rcases Nat.mod_two_eq_zero_or_one n with h | h
    · -- the lowest bit stops the carry
      have hhalf : (n + 1) / 2 = n / 2 := by omega
      have hstop : ¬ ∀ j < i + 1, n.testBit j = true := by
        intro hall
        have hzero := hall 0 (Nat.succ_pos _)
        rw [Nat.testBit_zero, h] at hzero
        cases hzero
      rw [hhalf, decide_eq_false hstop, Bool.xor_false]
    · have hhalf : (n + 1) / 2 = n / 2 + 1 := by omega
      have hcarry : (∀ j < i, (n / 2).testBit j = true) ↔ ∀ j < i + 1, n.testBit j = true := by
        constructor
        · intro hall j hj
          cases j with
          | zero => simp [h]
          | succ j =>
            rw [Nat.testBit_add_one]
            exact hall j (by omega)
        · intro hall j hj
          rw [← Nat.testBit_add_one]
          exact hall (j + 1) (by omega)
      rw [hhalf, ih, decide_eq_decide.mpr hcarry]

/-- Numbers below a power of two are equal where their bits are. -/
theorem eq_iff_bits {width a b : Nat} (ha : a < 2 ^ width) (hb : b < 2 ^ width) :
    a = b ↔ ∀ i < width, a.testBit i = b.testBit i := by
  constructor
  · rintro rfl _ _
    rfl
  · intro h
    refine Nat.eq_of_testBit_eq fun i => ?_
    by_cases hi : i < width
    · exact h i hi
    · have hpow := Nat.pow_le_pow_right Nat.two_pos (Nat.not_lt.mp hi)
      rw [Nat.testBit_lt_two_pow (Nat.lt_of_lt_of_le ha hpow),
        Nat.testBit_lt_two_pow (Nat.lt_of_lt_of_le hb hpow)]

theorem div_two_pow_eq (a bit : Nat) :
    a / 2 ^ bit = 2 * (a / 2 ^ (bit + 1)) + (a.testBit bit).toNat := by
  rw [Nat.testBit_eq_decide_div_mod_eq, Nat.pow_succ, ← Nat.div_div_eq_div_mul]
  have hmod := Nat.div_add_mod (a / 2 ^ bit) 2
  rcases Nat.mod_two_eq_zero_or_one (a / 2 ^ bit) with h | h <;> simp [h] at hmod ⊢ <;> omega

end KeplerFormal.Core
