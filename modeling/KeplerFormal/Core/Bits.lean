import Mathlib.Data.Nat.Digits.Lemmas
import Mathlib.Tactic.Ring
import Mathlib.Tactic.Linarith

/-!
# Words of bits

A word lists its bits from the least significant one.

* `toNat`, `toInt`: the unsigned and the two's complement value.
* `subtract`: a ripple subtractor; `toNat_subtract`, `borrow_iff`.
* `conditionalNegate`: the word or its two's complement; `toNat_conditionalNegate`,
  `toInt_conditionalNegate`, `toNat_magnitude`.
* `divide`: restoring division, one bit of the dividend after the other from the most
  significant one; `divide_spec`.
-/
namespace KeplerFormal.Core.Bits

/-! ## Unsigned value -/

def toNat (bits : List Bool) : Nat := Nat.ofDigits 2 (bits.map Bool.toNat)

@[simp] theorem toNat_nil : toNat [] = 0 := rfl

@[simp] theorem toNat_cons (b : Bool) (bits : List Bool) :
    toNat (b :: bits) = b.toNat + 2 * toNat bits := by
  simp [toNat, Nat.ofDigits_cons]

theorem toNat_append (low high : List Bool) :
    toNat (low ++ high) = toNat low + 2 ^ low.length * toNat high := by
  simp [toNat, Nat.ofDigits_append]

theorem toNat_lt (bits : List Bool) : toNat bits < 2 ^ bits.length := by
  induction bits with
  | nil => simp
  | cons b bits ih =>
    have hb := b.toNat_lt
    rw [toNat_cons, List.length_cons, Nat.pow_succ]
    omega

@[simp] theorem toNat_replicate_false (n : Nat) : toNat (List.replicate n false) = 0 := by
  induction n with
  | zero => rfl
  | succ n ih => simp [List.replicate_succ, ih]

/-- Words of one length are told apart by their values. -/
theorem toNat_inj {a b : List Bool} (hlen : a.length = b.length) (h : toNat a = toNat b) :
    a = b := by
  induction a generalizing b with
  | nil => exact (List.length_eq_zero_iff.mp hlen.symm).symm
  | cons x a ih =>
    cases b with
    | nil => simp at hlen
    | cons y b =>
      have hx := x.toNat_lt
      have hy := y.toNat_lt
      rw [toNat_cons, toNat_cons] at h
      have hhead : x = y := by cases x <;> cases y <;> simp_all <;> omega
      have htail : toNat a = toNat b := by subst hhead; omega
      rw [hhead, ih (by simpa using hlen) htail]

theorem eq_replicate_true {bits : List Bool} (h : toNat bits = 2 ^ bits.length - 1) :
    bits = List.replicate bits.length true := by
  induction bits with
  | nil => rfl
  | cons b bits ih =>
    have hpos := Nat.two_pow_pos bits.length
    rw [toNat_cons, List.length_cons, Nat.pow_succ] at h
    cases b with
    | false =>
      rw [Bool.toNat_false] at h
      omega
    | true =>
      rw [Bool.toNat_true] at h
      rw [List.length_cons, List.replicate_succ, ← ih (by omega)]

/-- A word that fits in one bit less does not need its last bit. -/
theorem toNat_dropLast {bits : List Bool} {n : Nat} (hlen : bits.length = n + 1)
    (hlt : toNat bits < 2 ^ n) : toNat bits.dropLast = toNat bits := by
  have hne : bits ≠ [] := List.ne_nil_of_length_eq_add_one hlen
  have hsplit := List.dropLast_append_getLast hne
  have hval := toNat_append bits.dropLast [bits.getLast hne]
  rw [hsplit, List.length_dropLast, hlen, Nat.add_sub_cancel] at hval
  cases hlast : bits.getLast hne with
  | false => simpa [hlast] using hval.symm
  | true =>
    simp only [hlast, toNat_cons, Bool.toNat_true, toNat_nil] at hval
    omega

/-! ## Subtraction -/

/-- Difference and borrow of `lhs - rhs - borrow`. -/
def subtract : Bool → List Bool → List Bool → List Bool × Bool
  | borrow, a :: lhs, b :: rhs =>
    let rest := subtract ((!a && (b || borrow)) || (b && borrow)) lhs rhs
    ((a ^^ b ^^ borrow) :: rest.1, rest.2)
  | borrow, _, _ => ([], borrow)

theorem length_subtract (borrow : Bool) {lhs rhs : List Bool} (hlen : lhs.length = rhs.length) :
    (subtract borrow lhs rhs).1.length = lhs.length := by
  induction lhs generalizing borrow rhs with
  | nil => rfl
  | cons a lhs ih =>
    cases rhs with
    | nil => simp at hlen
    | cons b rhs => simp [subtract, ih _ (Nat.succ.inj hlen)]

theorem toNat_subtract (borrow : Bool) {lhs rhs : List Bool} (hlen : lhs.length = rhs.length) :
    toNat (subtract borrow lhs rhs).1 + toNat rhs + borrow.toNat =
      toNat lhs + 2 ^ lhs.length * (subtract borrow lhs rhs).2.toNat := by
  induction lhs generalizing borrow rhs with
  | nil =>
    cases rhs with
    | nil => simp [subtract]
    | cons b rhs => simp at hlen
  | cons a lhs ih =>
    cases rhs with
    | nil => simp at hlen
    | cons b rhs =>
      have hrest := ih ((!a && (b || borrow)) || (b && borrow)) (Nat.succ.inj hlen)
      have hbit : (a ^^ b ^^ borrow).toNat + b.toNat + borrow.toNat =
          a.toNat + 2 * ((!a && (b || borrow)) || (b && borrow)).toNat := by
        cases a <;> cases b <;> cases borrow <;> rfl
      simp only [subtract, toNat_cons, List.length_cons, Nat.pow_succ]
      rw [Nat.mul_right_comm]
      omega

/-- A borrow is left over exactly when the difference is negative. -/
theorem borrow_iff {lhs rhs : List Bool} (hlen : lhs.length = rhs.length) :
    (subtract false lhs rhs).2 = true ↔ toNat lhs < toNat rhs := by
  have hval := toNat_subtract false hlen
  have hlt := toNat_lt (subtract false lhs rhs).1
  have hrhs := toNat_lt rhs
  rw [length_subtract false hlen] at hlt
  rw [← hlen] at hrhs
  cases hb : (subtract false lhs rhs).2 with
  | false =>
    simp [hb] at hval
    simp only [Bool.false_eq_true, false_iff]
    omega
  | true =>
    simp [hb] at hval
    simp only [true_iff]
    omega

theorem toNat_difference {lhs rhs : List Bool} (hlen : lhs.length = rhs.length)
    (hle : toNat rhs ≤ toNat lhs) :
    toNat (subtract false lhs rhs).1 = toNat lhs - toNat rhs := by
  have hval := toNat_subtract false hlen
  have hb : (subtract false lhs rhs).2 = false := by
    rw [← Bool.not_eq_true, borrow_iff hlen]
    omega
  simp [hb] at hval
  omega

/-! ## Division -/

/-- Quotient and remainder; the remainder has one bit more than the divisor. -/
def divide (divisor : List Bool) : List Bool → List Bool × List Bool
  | [] => ([], List.replicate (divisor.length + 1) false)
  | b :: rest =>
    let higher := divide divisor rest
    let shifted := b :: higher.2.dropLast
    let subtraction := subtract false shifted (divisor ++ [false])
    ((!subtraction.2) :: higher.1, if subtraction.2 then shifted else subtraction.1)

/-- One digit of long division. -/
theorem mod_div_step (h d b : Nat) (hb : b < 2) (hd : d ≠ 0) :
    ((b + 2 * h) % d = if b + 2 * (h % d) < d then b + 2 * (h % d) else b + 2 * (h % d) - d) ∧
    (b + 2 * h) / d = (if b + 2 * (h % d) < d then 0 else 1) + 2 * (h / d) := by
  have hdiv := Nat.div_add_mod h d
  have hlt := Nat.mod_lt h (Nat.pos_of_ne_zero hd)
  generalize h % d = r at *
  generalize h / d = q at *
  subst hdiv
  split
  · next hsmall =>
    have heq : b + 2 * (d * q + r) = (b + 2 * r) + d * (2 * q) := by ring
    rw [heq, Nat.add_mul_mod_self_left, Nat.mod_eq_of_lt hsmall,
      Nat.add_mul_div_left _ _ (Nat.pos_of_ne_zero hd), Nat.div_eq_of_lt hsmall]
    exact ⟨rfl, rfl⟩
  · next hlarge =>
    have hrest : b + 2 * r - d < d := by omega
    have heq : b + 2 * (d * q + r) = (b + 2 * r - d) + d * (1 + 2 * q) := by
      have hsplit : b + 2 * r = (b + 2 * r - d) + d := by omega
      calc b + 2 * (d * q + r) = (b + 2 * r) + d * (2 * q) := by ring
        _ = (b + 2 * r - d) + d + d * (2 * q) := by rw [← hsplit]
        _ = _ := by ring
    rw [heq, Nat.add_mul_mod_self_left, Nat.mod_eq_of_lt hrest,
      Nat.add_mul_div_left _ _ (Nat.pos_of_ne_zero hd), Nat.div_eq_of_lt hrest]
    exact ⟨rfl, Nat.zero_add _⟩

theorem length_divide (divisor dividend : List Bool) :
    (divide divisor dividend).1.length = dividend.length ∧
    (divide divisor dividend).2.length = divisor.length + 1 := by
  induction dividend with
  | nil => simp [divide]
  | cons b rest ih =>
    have hshifted : (b :: (divide divisor rest).2.dropLast).length =
        (divisor ++ [false]).length := by simp [ih.2]
    refine ⟨by simp [divide, ih.1], ?_⟩
    simp only [divide]
    split
    · rw [hshifted]
      simp
    · rw [length_subtract false hshifted, hshifted]
      simp

/-- The loop invariant: remainder and quotient of the bits that are done. Dividing by zero
leaves the dividend and a quotient of ones. -/
theorem divide_spec (divisor : List Bool) {dividend : List Bool}
    (hlen : dividend.length ≤ divisor.length) :
    toNat (divide divisor dividend).2 = toNat dividend % toNat divisor ∧
    toNat (divide divisor dividend).1 =
      if toNat divisor = 0 then 2 ^ dividend.length - 1 else toNat dividend / toNat divisor := by
  induction dividend with
  | nil => simp [divide]
  | cons b rest ih =>
    rw [List.length_cons] at hlen
    obtain ⟨hrem, hquot⟩ := ih (by omega)
    have hext : toNat (divisor ++ [false]) = toNat divisor := by simp [toNat_append]
    have hdrop : toNat (divide divisor rest).2.dropLast = toNat rest % toNat divisor := by
      rw [← hrem]
      apply toNat_dropLast (length_divide divisor rest).2
      rw [hrem]
      -- the remainder is below the divisor, or the few bits seen so far
      have hrest := toNat_lt rest
      have hpow := Nat.pow_lt_pow_right Nat.one_lt_two hlen
      have hdivisor := toNat_lt divisor
      have hmod := Nat.mod_le (toNat rest) (toNat divisor)
      omega
    have hshifted : (b :: (divide divisor rest).2.dropLast).length =
        (divisor ++ [false]).length := by simp [(length_divide divisor rest).2]
    have hvalue : toNat (b :: (divide divisor rest).2.dropLast) =
        b.toNat + 2 * (toNat rest % toNat divisor) := by rw [toNat_cons, hdrop]
    have hborrow := borrow_iff hshifted
    rw [hvalue, hext] at hborrow
    have hdiff := toNat_difference hshifted
    rw [hvalue, hext] at hdiff
    simp only [divide, toNat_cons, List.length_cons]
    by_cases hzero : toNat divisor = 0
    · have hnone : (subtract false (b :: (divide divisor rest).2.dropLast)
          (divisor ++ [false])).2 = false := by
        rw [← Bool.not_eq_true, hborrow]
        omega
      rw [hnone, if_neg Bool.false_ne_true, hdiff (by omega), hquot, if_pos hzero, if_pos hzero,
        hzero, Nat.mod_zero, Nat.mod_zero]
      have hpos := Nat.two_pow_pos rest.length
      rw [Nat.pow_succ]
      simp
      omega
    · obtain ⟨hstepMod, hstepDiv⟩ :=
        mod_div_step (toNat rest) (toNat divisor) b.toNat b.toNat_lt hzero
      rw [hstepMod, hstepDiv, hquot, if_neg hzero, if_neg hzero]
      by_cases hsmall : b.toNat + 2 * (toNat rest % toNat divisor) < toNat divisor
      · rw [hborrow.mpr hsmall, if_pos rfl, if_pos hsmall, if_pos hsmall, hvalue]
        exact ⟨rfl, rfl⟩
      · have hnone := (Bool.not_eq_true _).mp (mt hborrow.mp hsmall)
        rw [hnone, if_neg Bool.false_ne_true, if_neg hsmall, if_neg hsmall, hdiff (by omega)]
        exact ⟨rfl, rfl⟩

/-! ## Two's complement -/

def sign (bits : List Bool) : Bool := bits.getLastD false

def toInt (bits : List Bool) : Int :=
  if sign bits then (toNat bits : Int) - 2 ^ bits.length else toNat bits

theorem sign_iff {bits : List Bool} {n : Nat} (hlen : bits.length = n + 1) :
    sign bits = true ↔ 2 ^ n ≤ toNat bits := by
  have hne : bits ≠ [] := List.ne_nil_of_length_eq_add_one hlen
  have hval := toNat_append bits.dropLast [bits.getLast hne]
  have hlow := toNat_lt bits.dropLast
  have hsign : sign bits = bits.getLast hne := by
    rw [sign, List.getLastD_eq_getLast?, List.getLast?_eq_getLast_of_ne_nil hne]
    rfl
  rw [List.dropLast_append_getLast hne] at hval
  rw [List.length_dropLast, hlen, Nat.add_sub_cancel] at hval hlow
  rw [hsign]
  cases hlast : bits.getLast hne with
  | false =>
    simp only [hlast, toNat_cons, Bool.toNat_false, toNat_nil] at hval
    simp only [Bool.false_eq_true, false_iff]
    omega
  | true =>
    simp only [hlast, toNat_cons, Bool.toNat_true, toNat_nil] at hval
    simp only [true_iff]
    omega

theorem toInt_bounds {bits : List Bool} {n : Nat} (hlen : bits.length = n + 1) :
    -2 ^ n ≤ toInt bits ∧ toInt bits < 2 ^ n := by
  have hsign := sign_iff hlen
  have hlt := toNat_lt bits
  rw [hlen, Nat.pow_succ] at hlt
  unfold toInt
  rw [hlen, pow_succ]
  zify at hsign hlt
  split
  · next h =>
    have := hsign.mp h
    constructor <;> linarith
  · next h =>
    have := mt hsign.mpr h
    have hpos : (0 : Int) < 2 ^ n := by positivity
    constructor <;> linarith

theorem toInt_inj {a b : List Bool} {n : Nat} (ha : a.length = n + 1) (hb : b.length = n + 1)
    (h : toInt b = toInt a) : b = a := by
  apply toNat_inj (hb.trans ha.symm)
  have hltA := toNat_lt a
  have hltB := toNat_lt b
  have hboundsA := toInt_bounds ha
  unfold toInt at h hboundsA
  rw [hb] at h hltB
  rw [ha] at h hltA
  zify at hltA hltB ⊢
  split at h <;> split at h <;> linarith

/-- The sign bit is set for the negative values. -/
theorem sign_eq {bits : List Bool} {n : Nat} (hlen : bits.length = n + 1) :
    sign bits = decide (toInt bits < 0) := by
  have hlt := toNat_lt bits
  zify at hlt
  unfold toInt
  cases hs : sign bits with
  | false => simp
  | true =>
    simp only [if_true, eq_comm (a := true), decide_eq_true_eq]
    linarith

/-- The signed value is the unsigned one, wrapped. -/
theorem toInt_eq_bmod {bits : List Bool} {n : Nat} (hlen : bits.length = n + 1) :
    toInt bits = Int.bmod (toNat bits) (2 ^ bits.length) := by
  obtain ⟨hlow, hhigh⟩ := toInt_bounds hlen
  have hself : Int.bmod (toInt bits) (2 ^ bits.length) = toInt bits := by
    apply Int.bmod_eq_of_le_mul_two
    · push_cast
      rw [hlen, pow_succ]
      linarith
    · push_cast
      rw [hlen, pow_succ]
      linarith
  rw [← hself]
  unfold toInt
  split
  · have h := Int.sub_bmod_right (toNat bits : Int) (2 ^ bits.length)
    push_cast at h
    exact h
  · rfl

/-- The bits of `bits` or of its complement, plus a carry. -/
def negateFrom (negate : Bool) : Bool → List Bool → List Bool
  | _, [] => []
  | carry, b :: bits =>
    (b ^^ negate ^^ carry) :: negateFrom negate ((b ^^ negate) && carry) bits

def conditionalNegate (negate : Bool) (bits : List Bool) : List Bool :=
  negateFrom negate negate bits

@[simp] theorem length_negateFrom (negate carry : Bool) (bits : List Bool) :
    (negateFrom negate carry bits).length = bits.length := by
  induction bits generalizing carry with
  | nil => rfl
  | cons b bits ih => simp [negateFrom, ih]

theorem toNat_negateFrom (negate carry : Bool) (bits : List Bool) : ∃ k : Int,
    (toNat (negateFrom negate carry bits) : Int) =
      (if negate then -1 - (toNat bits : Int) else toNat bits) + carry.toNat +
        2 ^ bits.length * k := by
  induction bits generalizing carry with
  | nil => exact ⟨if negate then 1 - carry.toNat else -carry.toNat, by cases negate <;> simp [negateFrom]⟩
  | cons b bits ih =>
    obtain ⟨k, hk⟩ := ih ((b ^^ negate) && carry)
    refine ⟨k, ?_⟩
    simp only [negateFrom, toNat_cons, List.length_cons, pow_succ]
    push_cast
    rw [hk]
    cases b <;> cases negate <;> cases carry <;> simp <;> ring

/-- Either value modulo the range of the word. -/
theorem toNat_conditionalNegate (negate : Bool) (bits : List Bool) :
    (toNat (conditionalNegate negate bits) : Int) =
      (if negate then -(toNat bits : Int) else toNat bits) % 2 ^ bits.length := by
  obtain ⟨k, hk⟩ := toNat_negateFrom negate negate bits
  have hlt := toNat_lt (conditionalNegate negate bits)
  have hlen : (conditionalNegate negate bits).length = bits.length := length_negateFrom ..
  rw [hlen] at hlt
  have hself := Int.emod_eq_of_lt (Int.natCast_nonneg (toNat (conditionalNegate negate bits)))
    (b := 2 ^ bits.length) (by exact_mod_cast hlt)
  rw [← hself, conditionalNegate, hk, Int.add_mul_emod_self_left]
  cases negate with
  | false => simp
  | true =>
    congr 1
    simp only [if_true, Bool.toNat_true]
    ring

theorem toInt_conditionalNegate {negate : Bool} {bits : List Bool} {n : Nat}
    (hlen : bits.length = n + 1) :
    toInt (conditionalNegate negate bits) =
      Int.bmod (if negate then -(toNat bits : Int) else toNat bits) (2 ^ bits.length) := by
  have hlen' : (conditionalNegate negate bits).length = bits.length := length_negateFrom ..
  rw [toInt_eq_bmod (hlen'.trans hlen), toNat_conditionalNegate, hlen']
  have h := Int.emod_bmod (if negate then -(toNat bits : Int) else toNat bits) (2 ^ bits.length)
  push_cast at h
  exact h

/-- Negating the negative words leaves the absolute value; the least word too, read as an
unsigned one. -/
theorem toNat_magnitude {bits : List Bool} {n : Nat} (hlen : bits.length = n + 1) :
    toNat (conditionalNegate (sign bits) bits) = (toInt bits).natAbs := by
  have hval := toNat_conditionalNegate (sign bits) bits
  have hlt := toNat_lt bits
  have hpow : ((2 ^ bits.length : Nat) : Int) = 2 ^ bits.length := by push_cast; rfl
  unfold toInt
  cases hs : sign bits with
  | false =>
    rw [hs] at hval
    simp only [Bool.false_eq_true, if_false] at hval ⊢
    rw [← hpow, Int.emod_eq_of_lt (by omega) (by exact_mod_cast hlt)] at hval
    omega
  | true =>
    have hge := (sign_iff hlen).mp hs
    have hpos := Nat.two_pow_pos n
    rw [hs] at hval
    simp only [if_true] at hval ⊢
    rw [← hpow] at hval ⊢
    have hwrap : (-(toNat bits : Int)) % (2 ^ bits.length : Nat) =
        (2 ^ bits.length : Nat) - toNat bits := by
      rw [← Int.add_emod_right, Int.emod_eq_of_lt (by omega) (by omega)]
      ring
    rw [hwrap] at hval
    omega

end KeplerFormal.Core.Bits
