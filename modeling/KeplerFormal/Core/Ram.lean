import Mathlib.Data.List.Basic
import Mathlib.Tactic.Linarith

/-!
# Random-access memories

* `bitsValue`: the number of a list of bits, least significant first.
* `bitsValue_eq_mod_iff`: a list of bits agrees with the low bits of a number exactly when it
  is that number modulo the power of two of its length.
* `RamPort.commit`, `Memory.next`: write ports in order, then the reset.
* `foldl_commit_apply`: the writes of a list of ports, one bit at a time.
-/
namespace KeplerFormal.Core

/-! ## Addresses -/

def bitsValue : List Bool → Nat
  | [] => 0
  | bit :: bits => bit.toNat + 2 * bitsValue bits

theorem bitsValue_lt (bits : List Bool) : bitsValue bits < 2 ^ bits.length := by
  induction bits with
  | nil => decide
  | cons bit bits ih =>
    have hbit := bit.toNat_le
    rw [bitsValue, List.length_cons, pow_succ]
    omega

theorem bitsValue_eq_mod_iff (bits : List Bool) (n : Nat) :
    bitsValue bits = n % 2 ^ bits.length ↔
      ∀ i bit, bits[i]? = some bit → bit = n.testBit i := by
  induction bits generalizing n with
  | nil => simp [bitsValue, Nat.mod_one]
  | cons bit bits ih =>
    have hmod : n % 2 ^ (bits.length + 1) = n % 2 + 2 * (n / 2 % 2 ^ bits.length) := by
      rw [pow_succ, mul_comm, Nat.mod_mul]
    have hfirst : bit.toNat = n % 2 ↔ bit = n.testBit 0 := by
      rw [Nat.testBit_zero]
      cases bit
      · simp only [Bool.toNat_false, false_eq_decide_iff]
        omega
      · simp only [Bool.toNat_true, true_eq_decide_iff]
        omega
    have hsplit : bitsValue (bit :: bits) = n % 2 ^ (bits.length + 1) ↔
        bit = n.testBit 0 ∧ bitsValue bits = n / 2 % 2 ^ bits.length := by
      have hbit := bit.toNat_le
      rw [hmod, bitsValue, ← hfirst]
      omega
    rw [List.length_cons, hsplit, ih]
    constructor
    · intro h i bit' hi
      cases i with
      | zero => exact Option.some.inj hi ▸ h.1
      | succ i => exact (h.2 i bit' hi).trans (Nat.testBit_succ n i).symm
    · intro h
      refine ⟨h 0 bit rfl, fun i bit' hi => ?_⟩
      rw [h (i + 1) bit' hi, Nat.testBit_succ]

/-- Among the first `depth` numbers only the value itself has these low bits, unless the depth
goes beyond the next number with them. -/
theorem mod_eq_iff_of_lt {value size depth : Nat} (hvalue : value < size) :
    (∀ n < depth, value = n % size ↔ value = n) ↔ depth ≤ value + size := by
  constructor
  · intro h
    by_contra hdepth
    have hmod : (value + size) % size = value := by
      rw [Nat.add_mod_right, Nat.mod_eq_of_lt hvalue]
    have hsame := (h (value + size) (by omega)).mp hmod.symm
    omega
  · intro h n hn
    refine ⟨fun hmod => ?_, fun hsame => ?_⟩
    · have hdiv := Nat.div_add_mod n size
      have hquot : n / size = 0 := by
        by_contra hne
        have hle : size * 1 ≤ size * (n / size) := 
          Nat.mul_le_mul_left size (Nat.one_le_iff_ne_zero.mpr hne)
        omega
      rw [hquot] at hdiv
      omega
    · rw [← hsame, Nat.mod_eq_of_lt hvalue]

/-! ## Ports -/

/-- The bits of the cells. -/
abbrev Memory := Nat → Nat → Bool

structure RamPort where
  active : Bool
  address : Nat
  mask : Nat → Bool
  data : Nat → Bool

/-- The port writes that bit. -/
def RamPort.Writes (port : RamPort) (cell bit : Nat) : Prop :=
  port.active = true ∧ port.address = cell ∧ port.mask bit = true

instance (port : RamPort) (cell bit : Nat) : Decidable (port.Writes cell bit) :=
  inferInstanceAs (Decidable (_ ∧ _ ∧ _))

def RamPort.commit (memory : Memory) (port : RamPort) : Memory := fun cell bit =>
  if port.Writes cell bit then port.data bit else memory cell bit

/-- Every port in order, so that a later one wins; then the reset. -/
def Memory.next (memory : Memory) (ports : List RamPort) (reset : Bool) : Memory := fun cell bit =>
  if reset then false else ports.foldl RamPort.commit memory cell bit

theorem commit_of_not_active {port : RamPort} (h : port.active = false) (memory : Memory) :
    port.commit memory = memory := by
  funext cell bit
  refine if_neg fun hwrites => ?_
  have hactive := hwrites.1
  rw [h] at hactive
  cases hactive

theorem foldl_commit_apply (ports : List RamPort) (memory : Memory) (cell bit : Nat) :
    ports.foldl RamPort.commit memory cell bit =
      ports.foldl (fun old port => if port.Writes cell bit then port.data bit else old)
        (memory cell bit) := by
  induction ports generalizing memory with
  | nil => rfl
  | cons port ports ih =>
    rw [List.foldl_cons, List.foldl_cons, ih]
    rfl

end KeplerFormal.Core
