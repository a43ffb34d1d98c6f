import Mathlib.Logic.Basic

/-!
# Possible-value rails

A pair of rails stands for the set of Boolean values a signal may have: one rail says
that it may be one, the other that it may be zero. Both rails raised is the unknown value,
none is the empty set.

* `Rails.Covers`: the set contains a value.
* `not`, `and`, `or`, `xor`: the operations on sets of values; they cover the operation on
  the values and are exact on known operands.
-/
namespace KeplerFormal.Core

structure Rails where
  mayBeOne : Bool
  mayBeZero : Bool
  deriving DecidableEq, Repr

namespace Rails

def known (b : Bool) : Rails := ⟨b, !b⟩

def unknown : Rails := ⟨true, true⟩

/-- The set contains `b`. -/
def Covers (r : Rails) : Bool → Prop
  | true => r.mayBeOne = true
  | false => r.mayBeZero = true

def Nonempty (r : Rails) : Prop := (r.mayBeOne || r.mayBeZero) = true

/-- Exactly one value is possible. -/
def Binary (r : Rails) : Prop := r.mayBeOne ≠ r.mayBeZero

/-! ## Operations -/

def not (r : Rails) : Rails := ⟨r.mayBeZero, r.mayBeOne⟩

def and (r s : Rails) : Rails := ⟨r.mayBeOne && s.mayBeOne, r.mayBeZero || s.mayBeZero⟩

def or (r s : Rails) : Rails := ⟨r.mayBeOne || s.mayBeOne, r.mayBeZero && s.mayBeZero⟩

def xor (r s : Rails) : Rails :=
  ⟨r.mayBeOne && s.mayBeZero || r.mayBeZero && s.mayBeOne,
    r.mayBeOne && s.mayBeOne || r.mayBeZero && s.mayBeZero⟩

variable {r s : Rails} {a b : Bool}

theorem Covers.nonempty (h : r.Covers b) : r.Nonempty := by
  cases b <;> simp_all [Covers, Nonempty]

theorem covers_known : (known b).Covers b := by cases b <;> rfl

theorem covers_unknown : unknown.Covers b := by cases b <;> rfl

/-- A binary set that contains `b` contains nothing else. -/
theorem Covers.eq_known (h : r.Covers b) (hbinary : r.Binary) : r = known b := by
  obtain ⟨one, zero⟩ := r
  cases b <;> cases one <;> cases zero <;> simp_all [Covers, Binary, known]

theorem Covers.not (h : r.Covers b) : r.not.Covers (!b) := by cases b <;> exact h

theorem Covers.and (hr : r.Covers a) (hs : s.Covers b) : (r.and s).Covers (a && b) := by
  cases a <;> cases b <;> simp_all [Covers, Rails.and]

theorem Covers.or (hr : r.Covers a) (hs : s.Covers b) : (r.or s).Covers (a || b) := by
  cases a <;> cases b <;> simp_all [Covers, Rails.or]

theorem Covers.xor (hr : r.Covers a) (hs : s.Covers b) : (r.xor s).Covers (a ^^ b) := by
  cases a <;> cases b <;> simp_all [Covers, Rails.xor]

theorem not_known : (known b).not = known (!b) := by cases b <;> rfl

theorem and_known : (known a).and (known b) = known (a && b) := by cases a <;> cases b <;> rfl

theorem or_known : (known a).or (known b) = known (a || b) := by cases a <;> cases b <;> rfl

theorem xor_known : (known a).xor (known b) = known (a ^^ b) := by cases a <;> cases b <;> rfl

end Rails

end KeplerFormal.Core
