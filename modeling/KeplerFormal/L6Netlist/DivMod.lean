import KeplerFormal.Core.Bits
import KeplerFormal.Core.Fallible
import KeplerFormal.L1Formula.BoolExpr

/-!
# Divider circuits (`src/clauses/Tree2BoolExpr.cpp`)

A DIVMOD cell becomes a restoring divider over the expressions of its operands, least
significant bit first. Evaluated under any assignment, each circuit is the operation on words
of `Core.Bits`.

* `eval_subtractFrom`, `eval_conditionalNegate`, `divModLoop_spec`: the refinements.
* `unsigned_divides`: quotient and remainder; a quotient of ones and the dividend when the
  divisor is zero.
* `signed_divides`: truncation toward zero, wrapped at the least value.
* `buildDivMod_exact`: the circuit of every non-empty width.
-/
namespace KeplerFormal

open Core

abbrev BoolExprBits := List BoolExpr

/-- The values of the bits of a word. -/
def BoolExprBits.eval (σ : Valuation) (bits : BoolExprBits) : List Bool := bits.map (·.eval σ)

namespace BoolExprBits

variable (σ : Valuation)

@[simp] theorem eval_nil : BoolExprBits.eval σ [] = [] := rfl

@[simp] theorem eval_cons (b : BoolExpr) (bits : BoolExprBits) :
    BoolExprBits.eval σ (b :: bits) = b.eval σ :: BoolExprBits.eval σ bits := rfl

@[simp] theorem eval_append (low high : BoolExprBits) :
    BoolExprBits.eval σ (low ++ high) = BoolExprBits.eval σ low ++ BoolExprBits.eval σ high :=
  List.map_append

@[simp] theorem eval_dropLast (bits : BoolExprBits) :
    BoolExprBits.eval σ bits.dropLast = (BoolExprBits.eval σ bits).dropLast := List.map_dropLast

@[simp] theorem eval_replicate (n : Nat) (e : BoolExpr) :
    BoolExprBits.eval σ (List.replicate n e) = List.replicate n (e.eval σ) := List.map_replicate

@[simp] theorem length_eval (bits : BoolExprBits) :
    (BoolExprBits.eval σ bits).length = bits.length := List.length_map ..

end BoolExprBits

/-! ## Circuits -/

structure DivModExprs where
  quotient : BoolExprBits
  remainder : BoolExprBits

structure SubtractExprs where
  difference : BoolExprBits
  borrow : BoolExpr

/-- mirrors src/clauses/Tree2BoolExpr.cpp:282-292 -/
def makeIte (condition whenTrue whenFalse : BoolExpr) : BoolExpr :=
  if whenTrue = whenFalse then whenTrue
  else .Or (.And condition whenTrue) (.And (.Not condition) whenFalse)

@[simp] theorem eval_makeIte (σ : Valuation) (condition whenTrue whenFalse : BoolExpr) :
    (makeIte condition whenTrue whenFalse).eval σ =
      if condition.eval σ then whenTrue.eval σ else whenFalse.eval σ := by
  unfold makeIte
  split
  · next h => simp [h]
  · cases hc : condition.eval σ <;> simp [hc]

/-- The loop of `subtractBits`, from one bit on. -/
def subtractFrom : BoolExpr → BoolExprBits → BoolExprBits → SubtractExprs
  | borrow, a :: lhs, b :: rhs =>
    let rest := subtractFrom
      (.Or (.And (.Not a) (.Or b borrow)) (.And b borrow)) lhs rhs
    ⟨.Xor (.Xor a b) borrow :: rest.difference, rest.borrow⟩
  | borrow, _, _ => ⟨[], borrow⟩

/-- mirrors src/clauses/Tree2BoolExpr.cpp:294-315 -/
def subtractBits (lhs rhs : BoolExprBits) : Except String SubtractExprs :=
  if lhs.length ≠ rhs.length then .error "DIVMOD subtract width mismatch"
  else .ok (subtractFrom .createFalse lhs rhs)

/-- The loop of `conditionalNegate`, from one bit on. -/
def conditionalNegateFrom (negate : BoolExpr) : BoolExpr → BoolExprBits → BoolExprBits
  | _, [] => []
  | carry, b :: bits =>
    let inverted := BoolExpr.Xor b negate
    .Xor inverted carry :: conditionalNegateFrom negate (.And inverted carry) bits

/-- mirrors src/clauses/Tree2BoolExpr.cpp:317-328 -/
def conditionalNegate (bits : BoolExprBits) (negate : BoolExpr) : BoolExprBits :=
  conditionalNegateFrom negate negate bits

/-- One turn of the loop: the next lower bit of the dividend.
mirrors src/clauses/Tree2BoolExpr.cpp:346-359 -/
def divModStep (divisor : BoolExprBits) (dividendBit : BoolExpr) (done : DivModExprs) :
    Except String DivModExprs := do
  let shifted := dividendBit :: done.remainder.dropLast
  let subtraction ← subtractBits shifted (divisor ++ [.createFalse])
  let takeDifference := BoolExpr.Not subtraction.borrow
  .ok
    { quotient := takeDifference :: done.quotient
      remainder := subtraction.difference.zipWith (makeIte takeDifference) shifted }

/-- The turns for the bits of a list, the last one first. -/
def divModLoop (divisor : BoolExprBits) : BoolExprBits → Except String DivModExprs
  | [] => .ok ⟨[], List.replicate (divisor.length + 1) .createFalse⟩
  | dividendBit :: rest => do divModStep divisor dividendBit (← divModLoop divisor rest)

/-- mirrors src/clauses/Tree2BoolExpr.cpp:330-363 -/
def buildUnsignedDivMod (dividend divisor : BoolExprBits) : Except String DivModExprs :=
  if dividend = [] ∨ dividend.length ≠ divisor.length then
    .error "DIVMOD operand width mismatch"
  else do
    let result ← divModLoop divisor dividend
    .ok { result with remainder := result.remainder.take dividend.length }

/-- `back()` is used on the non-empty operands of a cell only.
mirrors src/clauses/Tree2BoolExpr.cpp:365-384 -/
def buildDivMod (dividend divisor : BoolExprBits) (isSigned : Bool) :
    Except String DivModExprs :=
  if !isSigned then buildUnsignedDivMod dividend divisor
  else
    match dividend.getLast?, divisor.getLast? with
    | some dividendSign, some divisorSign => do
      let magnitudeResult ← buildUnsignedDivMod (conditionalNegate dividend dividendSign)
        (conditionalNegate divisor divisorSign)
      .ok
        { quotient := conditionalNegate magnitudeResult.quotient (.Xor dividendSign divisorSign)
          remainder := conditionalNegate magnitudeResult.remainder dividendSign }
    | _, _ => .error "back() of an empty operand"

/-! ## Refinement of the operations on words -/

section Refinement
variable (σ : Valuation)

theorem eval_subtractFrom (borrow : BoolExpr) (lhs rhs : BoolExprBits) :
    (subtractFrom borrow lhs rhs).difference.eval σ =
      (Bits.subtract (borrow.eval σ) (lhs.eval σ) (rhs.eval σ)).1 ∧
    (subtractFrom borrow lhs rhs).borrow.eval σ =
      (Bits.subtract (borrow.eval σ) (lhs.eval σ) (rhs.eval σ)).2 := by
  induction lhs generalizing borrow rhs with
  | nil => exact ⟨rfl, rfl⟩
  | cons a lhs ih =>
    cases rhs with
    | nil => exact ⟨rfl, rfl⟩
    | cons b rhs =>
      obtain ⟨hdiff, hborrow⟩ :=
        ih (.Or (.And (.Not a) (.Or b borrow)) (.And b borrow)) rhs
      simp only [subtractFrom, BoolExprBits.eval_cons, Bits.subtract, hdiff, hborrow]
      simp

theorem subtractBits_ok {lhs rhs : BoolExprBits} (hlen : lhs.length = rhs.length) :
    subtractBits lhs rhs = .ok (subtractFrom .createFalse lhs rhs) :=
  if_neg (not_not_intro hlen)

theorem eval_conditionalNegate (bits : BoolExprBits) (negate : BoolExpr) :
    (conditionalNegate bits negate).eval σ =
      Bits.conditionalNegate (negate.eval σ) (bits.eval σ) := by
  have hfrom : ∀ carry, (conditionalNegateFrom negate carry bits).eval σ =
      Bits.negateFrom (negate.eval σ) (carry.eval σ) (bits.eval σ) := by
    induction bits with
    | nil => exact fun _ => rfl
    | cons b bits ih =>
      intro carry
      simp [conditionalNegateFrom, Bits.negateFrom, ih]
  exact hfrom negate

theorem eval_zipWith_makeIte (condition : BoolExpr) {difference shifted : BoolExprBits}
    (hlen : difference.length = shifted.length) :
    BoolExprBits.eval σ (difference.zipWith (makeIte condition) shifted) =
      if condition.eval σ then difference.eval σ else shifted.eval σ := by
  induction difference generalizing shifted with
  | nil =>
    rw [List.length_eq_zero_iff.mp hlen.symm]
    simp
  | cons a difference ih =>
    cases shifted with
    | nil => simp at hlen
    | cons b shifted =>
      rw [List.zipWith_cons_cons, BoolExprBits.eval_cons, ih (Nat.succ.inj hlen), eval_makeIte]
      split <;> rfl

end Refinement

/-- The word operation that a result computes under every assignment. -/
def DivModExprs.Computes (r : DivModExprs) (f : Valuation → List Bool × List Bool) : Prop :=
  ∀ σ, r.quotient.eval σ = (f σ).1 ∧ r.remainder.eval σ = (f σ).2

theorem length_difference {lhs rhs : BoolExprBits} (hlen : lhs.length = rhs.length) :
    (subtractFrom .createFalse lhs rhs).difference.length = lhs.length := by
  have hdiff := congrArg List.length (eval_subtractFrom (fun _ => false) .createFalse lhs rhs).1
  rw [Bits.length_subtract _ (by simpa using hlen)] at hdiff
  simpa using hdiff

theorem divModStep_spec {divisor : BoolExprBits} (b : BoolExpr) {done : DivModExprs}
    (hlen : done.remainder.length = divisor.length + 1) {rest : Valuation → List Bool}
    (hdone : done.Computes fun σ => Bits.divide (divisor.eval σ) (rest σ)) :
    ∃ r, divModStep divisor b done = .ok r ∧ r.remainder.length = divisor.length + 1 ∧
      r.Computes fun σ => Bits.divide (divisor.eval σ) (b.eval σ :: rest σ) := by
  have hsub : (b :: done.remainder.dropLast).length =
      (divisor ++ [BoolExpr.createFalse]).length := by simp [hlen]
  have hdiffLen := length_difference hsub
  have hok : divModStep divisor b done =
      .ok ⟨.Not (subtractFrom .createFalse (b :: done.remainder.dropLast)
            (divisor ++ [.createFalse])).borrow :: done.quotient,
          (subtractFrom .createFalse (b :: done.remainder.dropLast)
            (divisor ++ [.createFalse])).difference.zipWith
            (makeIte (.Not (subtractFrom .createFalse (b :: done.remainder.dropLast)
              (divisor ++ [.createFalse])).borrow)) (b :: done.remainder.dropLast)⟩ := by
    rw [divModStep, subtractBits_ok hsub]
    rfl
  refine ⟨_, hok, ?_, ?_⟩
  · rw [List.length_zipWith, hdiffLen, hsub]
    simp
  · intro σ
    obtain ⟨hquot, hrem⟩ := hdone σ
    obtain ⟨hdiff, hborrow⟩ := eval_subtractFrom σ .createFalse
      (b :: done.remainder.dropLast) (divisor ++ [.createFalse])
    simp only [BoolExprBits.eval_cons, BoolExprBits.eval_append, BoolExprBits.eval_dropLast,
      BoolExpr.eval_createFalse, hrem, BoolExprBits.eval_nil] at hdiff hborrow
    simp only [BoolExprBits.eval_cons, eval_zipWith_makeIte σ _ hdiffLen, BoolExpr.eval_Not,
      hquot, hborrow, hdiff, Bits.divide, BoolExprBits.eval_dropLast, hrem]
    refine ⟨trivial, ?_⟩
    cases (Bits.subtract false _ _).2 <;> rfl

/-- The loop does not fail and is the division of words. -/
theorem divModLoop_spec (divisor dividend : BoolExprBits) :
    ∃ r, divModLoop divisor dividend = .ok r ∧ r.remainder.length = divisor.length + 1 ∧
      r.Computes fun σ => Bits.divide (divisor.eval σ) (dividend.eval σ) := by
  induction dividend with
  | nil =>
    refine ⟨_, rfl, List.length_replicate, fun σ => ⟨rfl, ?_⟩⟩
    simp [Bits.divide]
  | cons b rest ih =>
    obtain ⟨done, hdone, hlen, heval⟩ := ih
    obtain ⟨r, hr, hstep⟩ := divModStep_spec b hlen heval
    refine ⟨r, ?_, hstep⟩
    rw [divModLoop, hdone]
    exact hr

/-- The unsigned circuit, as numbers. -/
theorem unsignedDivMod_spec {dividend divisor : BoolExprBits} (hne : dividend ≠ [])
    (hlen : dividend.length = divisor.length) :
    ∃ r, buildUnsignedDivMod dividend divisor = .ok r ∧
      r.quotient.length = dividend.length ∧ r.remainder.length = dividend.length ∧
      ∀ σ, Bits.toNat (r.remainder.eval σ) =
          Bits.toNat (dividend.eval σ) % Bits.toNat (divisor.eval σ) ∧
        Bits.toNat (r.quotient.eval σ) =
          if Bits.toNat (divisor.eval σ) = 0 then 2 ^ dividend.length - 1
          else Bits.toNat (dividend.eval σ) / Bits.toNat (divisor.eval σ) := by
  obtain ⟨r, hr, hremLen, heval⟩ := divModLoop_spec divisor dividend
  have hquotLen := congrArg List.length (heval fun _ => false).1
  rw [(Bits.length_divide _ _).1] at hquotLen
  simp only [BoolExprBits.length_eval] at hquotLen
  have htake : r.remainder.take dividend.length = r.remainder.dropLast := by
    rw [List.dropLast_eq_take, hremLen, hlen, Nat.add_sub_cancel]
  refine ⟨{ r with remainder := r.remainder.take dividend.length }, ?_, hquotLen, ?_, ?_⟩
  · rw [buildUnsignedDivMod, if_neg (not_or_intro hne (not_not_intro hlen)), hr]
    rfl
  · rw [List.length_take, hremLen]
    omega
  · intro σ
    obtain ⟨hquot, hrem⟩ := heval σ
    obtain ⟨hmod, hdiv⟩ := @Bits.divide_spec (divisor.eval σ) (dividend.eval σ)
      (by simp [hlen])
    rw [← hrem] at hmod
    rw [← hquot, BoolExprBits.length_eval] at hdiv
    refine ⟨?_, hdiv⟩
    rw [htake, BoolExprBits.eval_dropLast, ← hmod]
    apply Bits.toNat_dropLast (n := dividend.length) (by simp [hremLen, hlen])
    -- the remainder is at most the dividend
    have hlt := Bits.toNat_lt (dividend.eval σ)
    rw [BoolExprBits.length_eval] at hlt
    rw [hmod]
    exact Nat.lt_of_le_of_lt (Nat.mod_le _ _) hlt

/-! ## Signed division -/

@[simp] theorem length_conditionalNegate (bits : BoolExprBits) (negate : BoolExpr) :
    (conditionalNegate bits negate).length = bits.length := by
  have h := congrArg List.length (eval_conditionalNegate (fun _ => false) bits negate)
  simpa [Bits.conditionalNegate] using h

theorem eval_getLast (σ : Valuation) {bits : BoolExprBits} {last : BoolExpr}
    (hlast : bits.getLast? = some last) : last.eval σ = Bits.sign (bits.eval σ) := by
  rw [Bits.sign, List.getLastD_eq_getLast?, BoolExprBits.eval, List.getLast?_map, hlast]
  rfl

/-- Truncated division works on the absolute values and puts the signs back. -/
theorem tdiv_of_magnitudes (n d : Int) :
    (if decide (n < 0) ^^ decide (d < 0) then -((n.natAbs / d.natAbs : Nat) : Int)
      else (n.natAbs / d.natAbs : Nat)) = n.tdiv d := by
  obtain ⟨a, rfl | rfl⟩ := n.eq_nat_or_neg <;> obtain ⟨b, rfl | rfl⟩ := d.eq_nat_or_neg
  all_goals simp only [Int.natAbs_neg, Int.natAbs_natCast, Int.neg_tdiv, Int.tdiv_neg,
    Int.ofNat_tdiv]
  all_goals
    have ha' : ¬ (a : Int) < 0 := Int.not_lt.mpr (Int.natCast_nonneg a)
    have hb' : ¬ (b : Int) < 0 := Int.not_lt.mpr (Int.natCast_nonneg b)
    rcases Nat.eq_zero_or_pos a with rfl | ha <;> rcases Nat.eq_zero_or_pos b with rfl | hb
    all_goals simp [*]

theorem tmod_of_magnitudes (n d : Int) :
    (if n < 0 then -((n.natAbs % d.natAbs : Nat) : Int) else (n.natAbs % d.natAbs : Nat)) =
      n.tmod d := by
  obtain ⟨a, rfl | rfl⟩ := n.eq_nat_or_neg <;> obtain ⟨b, rfl | rfl⟩ := d.eq_nat_or_neg
  all_goals simp only [Int.natAbs_neg, Int.natAbs_natCast, Int.neg_tmod, Int.tmod_neg,
    Int.ofNat_tmod]
  all_goals
    rcases Nat.eq_zero_or_pos a with rfl | ha
    all_goals simp [*]

/-- Except for one division, the quotient is in the range of the dividend. -/
theorem tdiv_bounds {x d : Int} {n : Nat} (hx : -2 ^ n ≤ x ∧ x < 2 ^ n) (hd : d ≠ 0)
    (hfits : ¬ (x = -2 ^ n ∧ d = -1)) : -2 ^ n ≤ x.tdiv d ∧ x.tdiv d < 2 ^ n := by
  have habs : (x.tdiv d).natAbs = x.natAbs / d.natAbs := Int.natAbs_tdiv x d
  rcases eq_or_ne d 1 with rfl | hone
  · rw [Int.tdiv_one]
    exact hx
  · have hpos : (0 : Int) < 2 ^ n := by positivity
    have hlt : x = -2 ^ n → x.natAbs / d.natAbs < x.natAbs := fun _ =>
      Nat.div_lt_self (by omega) (by omega)
    have hle := Nat.div_le_self x.natAbs d.natAbs
    generalize x.natAbs / d.natAbs = q at *
    omega

theorem sign_tmod {x d : Int} (hne : x.tmod d ≠ 0) : (x.tmod d).sign = x.sign := by
  rcases lt_trichotomy x 0 with hneg | rfl | hpos
  · have h := Int.tmod_nonneg d (Int.neg_nonneg.mpr hneg.le)
    rw [Int.neg_tmod] at h
    rw [Int.sign_eq_neg_one_of_neg hneg, Int.sign_eq_neg_one_of_neg (by omega)]
  · simp at hne
  · have h := Int.tmod_nonneg d hpos.le
    rw [Int.sign_eq_one_of_pos hpos, Int.sign_eq_one_of_pos (by omega)]

/-- The signed circuit, as numbers: the quotient wraps. -/
theorem signedDivMod_spec {dividend divisor : BoolExprBits} {n : Nat}
    (hdividend : dividend.length = n + 1) (hdivisor : divisor.length = n + 1) :
    ∃ r, buildDivMod dividend divisor true = .ok r ∧
      r.quotient.length = dividend.length ∧ r.remainder.length = dividend.length ∧
      ∀ σ, Bits.toInt (r.remainder.eval σ) =
          (Bits.toInt (dividend.eval σ)).tmod (Bits.toInt (divisor.eval σ)) ∧
        (Bits.toInt (divisor.eval σ) ≠ 0 → Bits.toInt (r.quotient.eval σ) =
          Int.bmod ((Bits.toInt (dividend.eval σ)).tdiv (Bits.toInt (divisor.eval σ)))
            (2 ^ (n + 1))) := by
  obtain ⟨dividendSign, hsignN⟩ : ∃ e, dividend.getLast? = some e :=
    ⟨_, List.getLast?_eq_getLast_of_ne_nil (List.ne_nil_of_length_eq_add_one hdividend)⟩
  obtain ⟨divisorSign, hsignD⟩ : ∃ e, divisor.getLast? = some e :=
    ⟨_, List.getLast?_eq_getLast_of_ne_nil (List.ne_nil_of_length_eq_add_one hdivisor)⟩
  obtain ⟨m, hm, hquotLen, hremLen, hval⟩ := @unsignedDivMod_spec
      (conditionalNegate dividend dividendSign) (conditionalNegate divisor divisorSign)
    (List.ne_nil_of_length_eq_add_one (by rw [length_conditionalNegate, hdividend]))
    (by simp [hdividend, hdivisor])
  rw [length_conditionalNegate] at hquotLen hremLen
  refine ⟨⟨conditionalNegate m.quotient (.Xor dividendSign divisorSign),
    conditionalNegate m.remainder dividendSign⟩, ?_, ?_, ?_, ?_⟩
  · simp only [buildDivMod, Bool.not_true, Bool.false_eq_true, if_false, hsignN, hsignD, hm]
    rfl
  · rw [length_conditionalNegate, hquotLen]
  · rw [length_conditionalNegate, hremLen]
  · intro σ
    obtain ⟨hrem, hquot⟩ := hval σ
    have hlenN : (dividend.eval σ).length = n + 1 := by simp [hdividend]
    have hlenD : (divisor.eval σ).length = n + 1 := by simp [hdivisor]
    have hlenQ : (m.quotient.eval σ).length = n + 1 := by simp [hquotLen, hdividend]
    have hlenR : (m.remainder.eval σ).length = n + 1 := by simp [hremLen, hdividend]
    rw [eval_conditionalNegate, eval_conditionalNegate, eval_getLast σ hsignN,
      eval_getLast σ hsignD, Bits.toNat_magnitude hlenN, Bits.toNat_magnitude hlenD] at hrem hquot
    have hnegN := Bits.sign_eq hlenN
    have hnegD := Bits.sign_eq hlenD
    have hboundsN := Bits.toInt_bounds hlenN
    have hboundsD := Bits.toInt_bounds hlenD
    simp only [eval_conditionalNegate, BoolExpr.eval_Xor, eval_getLast σ hsignN,
      eval_getLast σ hsignD]
    rw [Bits.toInt_conditionalNegate hlenR, Bits.toInt_conditionalNegate hlenQ, hrem, hquot,
      hlenQ, hlenR, hnegN, hnegD]
    refine ⟨?_, fun hne => by rw [if_neg (Int.natAbs_ne_zero.mpr hne), tdiv_of_magnitudes]⟩
    have hmod := tmod_of_magnitudes (Bits.toInt (dividend.eval σ)) (Bits.toInt (divisor.eval σ))
    simp only [decide_eq_true_eq]
    rw [hmod]
    -- the remainder is the dividend or smaller than the divisor, and does not wrap
    have hsmall : -2 ^ n ≤ (Bits.toInt (dividend.eval σ)).tmod (Bits.toInt (divisor.eval σ)) ∧
        (Bits.toInt (dividend.eval σ)).tmod (Bits.toInt (divisor.eval σ)) < 2 ^ n := by
      by_cases hzero : Bits.toInt (divisor.eval σ) = 0
      · rwa [hzero, Int.tmod_zero]
      · have hlt := Nat.mod_lt (Bits.toInt (dividend.eval σ)).natAbs (Int.natAbs_pos.mpr hzero)
        rw [← Int.natAbs_tmod] at hlt
        omega
    apply Int.bmod_eq_of_le_mul_two
    · push_cast
      rw [pow_succ]
      omega
    · push_cast
      rw [pow_succ]
      omega

/-! ## What the circuits compute -/

/-- Unsigned division of one word by another. -/
structure DividesUnsigned (n d q r : List Bool) : Prop where
  euclid : Bits.toNat d ≠ 0 →
    Bits.toNat n = Bits.toNat q * Bits.toNat d + Bits.toNat r ∧ Bits.toNat r < Bits.toNat d
  byZero : Bits.toNat d = 0 → (∀ b ∈ q, b = true) ∧ r = n

/-- The one division whose quotient has no word. -/
def Overflows (n d : List Bool) : Prop :=
  Bits.toInt n = -2 ^ (n.length - 1) ∧ Bits.toInt d = -1

/-- Signed division: toward zero, with the remainder on the side of the dividend. -/
structure DividesSigned (n d q r : List Bool) : Prop where
  quotient : Bits.toInt d ≠ 0 → ¬ Overflows n d →
    Bits.toInt q = (Bits.toInt n).tdiv (Bits.toInt d)
  remainder : Bits.toInt d ≠ 0 → Bits.toInt r = (Bits.toInt n).tmod (Bits.toInt d)
  sign : Bits.toInt d ≠ 0 → Bits.toInt r ≠ 0 → (Bits.toInt r).sign = (Bits.toInt n).sign
  wraps : Overflows n d → q = n ∧ Bits.toInt r = 0

theorem unsigned_divides {dividend divisor : BoolExprBits} (hne : dividend ≠ [])
    (hlen : dividend.length = divisor.length) :
    ∃ r, buildDivMod dividend divisor false = .ok r ∧
      r.quotient.length = dividend.length ∧ r.remainder.length = dividend.length ∧
      ∀ σ, DividesUnsigned (dividend.eval σ) (divisor.eval σ) (r.quotient.eval σ)
        (r.remainder.eval σ) := by
  obtain ⟨r, hr, hquotLen, hremLen, hval⟩ := unsignedDivMod_spec hne hlen
  refine ⟨r, hr, hquotLen, hremLen, fun σ => ?_⟩
  obtain ⟨hrem, hquot⟩ := hval σ
  constructor
  · intro hd
    rw [if_neg hd] at hquot
    rw [hrem, hquot]
    exact ⟨(Nat.div_add_mod' _ _).symm, Nat.mod_lt _ (Nat.pos_of_ne_zero hd)⟩
  · intro hd
    rw [if_pos hd] at hquot
    rw [hd, Nat.mod_zero] at hrem
    have hones := @Bits.eq_replicate_true (r.quotient.eval σ) (by
      rw [hquot, BoolExprBits.length_eval, hquotLen])
    refine ⟨fun b hb => ?_, Bits.toNat_inj (by simp [hremLen]) hrem⟩
    rw [hones] at hb
    exact List.eq_of_mem_replicate hb

theorem signed_divides {dividend divisor : BoolExprBits} (hne : dividend ≠ [])
    (hlen : dividend.length = divisor.length) :
    ∃ r, buildDivMod dividend divisor true = .ok r ∧
      r.quotient.length = dividend.length ∧ r.remainder.length = dividend.length ∧
      ∀ σ, DividesSigned (dividend.eval σ) (divisor.eval σ) (r.quotient.eval σ)
        (r.remainder.eval σ) := by
  obtain ⟨n, hn⟩ := Nat.exists_eq_succ_of_ne_zero (mt List.length_eq_zero_iff.mp hne)
  obtain ⟨r, hr, hquotLen, hremLen, hval⟩ := signedDivMod_spec hn (hlen ▸ hn)
  refine ⟨r, hr, hquotLen, hremLen, fun σ => ?_⟩
  obtain ⟨hrem, hquot⟩ := hval σ
  have hlenN : (dividend.eval σ).length = n + 1 := by simp [hn]
  have hlenD : (divisor.eval σ).length = n + 1 := by simp [← hlen, hn]
  have hboundsN := Bits.toInt_bounds hlenN
  constructor
  · intro hd hfits
    rw [hquot hd]
    rw [Overflows, hlenN, Nat.succ_sub_one] at hfits
    obtain ⟨hlow, hhigh⟩ := tdiv_bounds hboundsN hd hfits
    apply Int.bmod_eq_of_le_mul_two
    · push_cast
      rw [pow_succ]
      linarith
    · push_cast
      rw [pow_succ]
      linarith
  · exact fun _ => hrem
  · intro _ hne
    rw [hrem] at hne ⊢
    exact sign_tmod hne
  · intro hover
    rw [Overflows, hlenN, Nat.succ_sub_one] at hover
    rw [hover.2, Int.tmod_neg, Int.tmod_one] at hrem
    refine ⟨Bits.toInt_inj hlenN (by simp [hquotLen, hn]) ?_, hrem⟩
    have hq := hquot (by rw [hover.2]; decide)
    rw [hover.1, hover.2, Int.tdiv_neg, Int.tdiv_one, neg_neg] at hq
    rw [hq, hover.1]
    have h := Int.bmod_eq_neg (n := 2 ^ (n + 1)) (m := 2 ^ n) (by positivity) (by
      push_cast
      rw [pow_succ, mul_comm])
    exact h

/-- The circuits of both kinds, for operands of any positive width. -/
theorem buildDivMod_exact (dividend divisor : BoolExprBits) (hwidth : dividend ≠ [])
    (hlen : dividend.length = divisor.length) :
    (∃ r, buildDivMod dividend divisor false = .ok r ∧
      r.quotient.length = dividend.length ∧ r.remainder.length = dividend.length ∧
      ∀ σ, DividesUnsigned (dividend.eval σ) (divisor.eval σ) (r.quotient.eval σ)
        (r.remainder.eval σ)) ∧
    (∃ r, buildDivMod dividend divisor true = .ok r ∧
      r.quotient.length = dividend.length ∧ r.remainder.length = dividend.length ∧
      ∀ σ, DividesSigned (dividend.eval σ) (divisor.eval σ) (r.quotient.eval σ)
        (r.remainder.eval σ)) :=
  ⟨unsigned_divides hwidth hlen, signed_divides hwidth hlen⟩

/-- Two bits: at `10 / 11` the signed quotient wraps. -/
theorem buildDivMod_exact_wraps :
    ∃ r, buildDivMod [.var 2, .var 3] [.var 4, .var 5] true = .ok r ∧
      r.quotient.eval (fun s => s ≠ 2) = [false, true] := by
  obtain ⟨-, r, hr, -, -, hdivides⟩ :=
    buildDivMod_exact [.var 2, .var 3] [.var 4, .var 5] (List.cons_ne_nil _ _) rfl
  exact ⟨r, hr, ((hdivides fun s => s ≠ 2).wraps ⟨by decide, by decide⟩).1⟩

end KeplerFormal
