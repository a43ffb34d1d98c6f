import KeplerFormal.L5Strategy.Btor2Export

/-!
# The export counter

The counter of a run holds the number of the frame until it saturates at its horizon.

* `Clock`, `lines_iff`: the lines of the counter say exactly that.
* `value_atFrame`, `value_before`, `value_firstFrame`: what its conditions mean.
* `timeline_counts`: the three together, for every horizon.
-/
namespace KeplerFormal.ExportTimeline

open Core Btor2Model

variable {r : Btor2Trace Nat ExportState} {n lastFrame : Nat}

/-- In frame `t` the bits are those of the frame number, at most `lastFrame`. -/
def Counts (r : Btor2Trace Nat ExportState) (lastFrame t : Nat) : Prop :=
  ∀ i < bitWidth lastFrame, r.states t (.cycle i) = (min t lastFrame).testBit i

def Clock (r : Btor2Trace Nat ExportState) (n lastFrame : Nat) : Prop :=
  ∀ t ≤ n, Counts r lastFrame t

theorem lt_two_pow_bitWidth {k last : Nat} (h : k ≤ last) : k < 2 ^ bitWidth last := by
  unfold bitWidth
  split
  · rename_i hzero
    subst hzero
    simpa using h
  · exact Nat.lt_of_le_of_lt h Nat.lt_log2_self

theorem bitWidth_ne_zero {last : Nat} : bitWidth last ≠ 0 ↔ last ≠ 0 := by
  unfold bitWidth
  split <;> simp_all

/-! ## The conditions -/

section
variable {t c : Nat} {width : Nat} (hbits : ∀ i < width, r.states t (.cycle i) = c.testBit i)
include hbits

theorem value_bitsAre (frame : Nat) {count : Nat} (hcount : count ≤ width) :
    r.value t (bitsAre frame count) = decide (∀ i < count, c.testBit i = frame.testBit i) := by
  induction count with
  | zero => simp [bitsAre, Btor2Trace.value]
  | succ count ih =>
    have hbit : r.value t (bitIs frame count) =
        decide (c.testBit count = frame.testBit count) := by
      rw [← hbits count hcount, bitIs]
      cases frame.testBit count <;> simp [bit, Btor2Trace.value]
    have hand : r.value t (bitsAre frame (count + 1)) =
        (r.value t (bitsAre frame count) && r.value t (bitIs frame count)) := rfl
    rw [hand, ih (Nat.le_of_succ_le hcount), hbit, ← Bool.decide_and, decide_eq_decide]
    exact Nat.forall_lt_succ_right.symm

theorem value_carry {i : Nat} (hi : i ≤ width) :
    r.value t (carry i) = decide (∀ j < i, c.testBit j = true) := by
  induction i with
  | zero => simp [carry, Btor2Trace.value]
  | succ i ih =>
    have hbit : r.value t (bit i) = decide (c.testBit i = true) := by
      rw [← hbits i hi]
      simp [bit, Btor2Trace.value]
    have hand : r.value t (carry (i + 1)) = (r.value t (carry i) && r.value t (bit i)) := rfl
    rw [hand, ih (Nat.le_of_succ_le hi), hbit, ← Bool.decide_and, decide_eq_decide]
    exact Nat.forall_lt_succ_right.symm

/-- From the top bit down, `less` and `equal` compare what the bits read so far stand
for. -/
theorem value_compare (frame : Nat) {count : Nat} (hcount : count ≤ width)
    (hc : c < 2 ^ width) (hframe : frame < 2 ^ width) :
    r.value t (compare frame width count).1 =
        decide (c / 2 ^ (width - count) < frame / 2 ^ (width - count)) ∧
      r.value t (compare frame width count).2 =
        decide (c / 2 ^ (width - count) = frame / 2 ^ (width - count)) := by
  induction count with
  | zero =>
    rw [Nat.sub_zero, Nat.div_eq_of_lt hc, Nat.div_eq_of_lt hframe]
    exact ⟨rfl, rfl⟩
  | succ count ih =>
    obtain ⟨hless, hequal⟩ := ih (Nat.le_of_succ_le hcount)
    generalize hi : width - (count + 1) = i
    have hprev : width - count = i + 1 := by omega
    rw [hprev] at hless hequal
    have hbit : r.value t (bit i) = c.testBit i := hbits i (by omega)
    have hc' := div_two_pow_eq c i
    have hframe' := div_two_pow_eq frame i
    rw [hc', hframe']
    generalize c / 2 ^ (i + 1) = a at *
    generalize frame / 2 ^ (i + 1) = b at *
    have hparts : compare frame width (count + 1) =
        if frame.testBit i then
          (.or (compare frame width count).1 (.and (compare frame width count).2 (.not (bit i))),
            .and (compare frame width count).2 (bit i))
        else ((compare frame width count).1, .and (compare frame width count).2 (.not (bit i))) := by
      rw [compare, hi]
    have hor : ∀ x y : ExportExpr, r.value t (.or x y) = (r.value t x || r.value t y) :=
      fun _ _ => rfl
    have hand : ∀ x y : ExportExpr, r.value t (.and x y) = (r.value t x && r.value t y) :=
      fun _ _ => rfl
    have hnot : ∀ x : ExportExpr, r.value t (.not x) = !r.value t x := fun _ => rfl
    rw [hparts]
    cases hf : frame.testBit i <;> cases hcb : c.testBit i <;>
      simp only [hcb, if_true, Bool.false_eq_true, if_false, hor, hand, hnot, hless, hequal,
        hbit, Bool.toNat_true, Bool.toNat_false, Bool.not_true, Bool.not_false, Bool.and_true,
        Bool.and_false, Bool.or_false, ← Bool.decide_or] <;>
      constructor <;> first
        | (rw [decide_eq_decide]; omega)
        | (symm; rw [decide_eq_false_iff_not]; omega)

end

/-- The condition of a frame up to the horizon. -/
theorem value_atFrame {t frame : Nat} (hcounts : Counts r lastFrame t)
    (hframe : frame ≤ lastFrame) :
    r.value t (atFrame lastFrame frame) = decide (min t lastFrame = frame) := by
  rw [atFrame, value_bitsAre hcounts frame (Nat.le_refl _), decide_eq_decide]
  exact (eq_iff_bits (lt_two_pow_bitWidth (Nat.min_le_right _ _))
    (lt_two_pow_bitWidth hframe)).symm

theorem value_before {t frame : Nat} (hcounts : Counts r lastFrame t)
    (hframe : frame ≤ lastFrame) :
    r.value t (before lastFrame frame) = decide (t < frame) := by
  have hcompare := (value_compare hcounts frame (Nat.le_refl _)
    (lt_two_pow_bitWidth (Nat.min_le_right _ _)) (lt_two_pow_bitWidth hframe)).1
  rw [before, hcompare, decide_eq_decide, Nat.sub_self, Nat.pow_zero, Nat.div_one, Nat.div_one]
  omega

/-! ## The lines -/

/-- The next value of a bit counts on until the horizon is reached. -/
theorem value_next {t i : Nat} (hcounts : Counts r lastFrame t) (hi : i < bitWidth lastFrame) :
    r.value t (.xor (bit i) (.and (carry i) (.not (atFrame lastFrame lastFrame)))) =
      (min (t + 1) lastFrame).testBit i := by
  have hat := value_atFrame hcounts (Nat.le_refl lastFrame)
  have hcarry := value_carry hcounts (Nat.le_of_lt hi)
  have hbit : r.value t (bit i) = (min t lastFrame).testBit i := hcounts i hi
  have hxor : r.value t (.xor (bit i) (.and (carry i) (.not (atFrame lastFrame lastFrame)))) =
      (r.value t (bit i) ^^ (r.value t (carry i) && !r.value t (atFrame lastFrame lastFrame))) :=
    rfl
  rw [hxor, hat, hcarry, hbit]
  by_cases hend : t < lastFrame
  · have hmin : min t lastFrame = t := Nat.min_eq_left (Nat.le_of_lt hend)
    have hnext : min (t + 1) lastFrame = t + 1 := Nat.min_eq_left hend
    rw [hnext, hmin, decide_eq_false (Nat.ne_of_lt hend), Bool.not_false, Bool.and_true,
      testBit_succ]
  · have hmin : min t lastFrame = lastFrame := by omega
    have hnext : min (t + 1) lastFrame = lastFrame := by omega
    rw [hnext, hmin]
    simp

theorem mem_lines {line : ExportLine} :
    line ∈ lines lastFrame ↔ ∃ i < bitWidth lastFrame,
      line = .state (.cycle i) ("kf_export_cycle_" ++ toString i) ∨
      line = .init (.cycle i) (.const false) ∨
      line = .next (.cycle i)
        (.xor (bit i) (.and (carry i) (.not (atFrame lastFrame lastFrame)))) := by
  simp only [lines, List.mem_append, List.mem_flatMap, List.mem_map, List.mem_range,
    List.mem_cons, List.not_mem_nil, or_false]
  constructor
  · rintro (⟨i, hi, h | h⟩ | ⟨i, hi, rfl⟩)
    · exact ⟨i, hi, .inl h⟩
    · exact ⟨i, hi, .inr (.inl h)⟩
    · exact ⟨i, hi, .inr (.inr rfl)⟩
  · rintro ⟨i, hi, h | h | rfl⟩
    · exact .inl ⟨i, hi, .inl h⟩
    · exact .inl ⟨i, hi, .inr h⟩
    · exact .inr ⟨i, hi, rfl⟩

/-- The lines of the counter say that it is a clock. -/
theorem lines_iff :
    (∀ line ∈ lines lastFrame, LineHolds n r line) ↔ Clock r n lastFrame := by
  constructor
  · intro h t ht
    induction t with
    | zero =>
      intro i hi
      have hinit := h _ (mem_lines.mpr ⟨i, hi, .inr (.inl rfl)⟩)
      rw [Nat.zero_min, Nat.zero_testBit]
      exact hinit
    | succ t ih =>
      intro i hi
      have hnext := h _ (mem_lines.mpr ⟨i, hi, .inr (.inr rfl)⟩) t ht
      rw [hnext]
      exact value_next (ih (Nat.le_of_succ_le ht)) hi
  · intro hclock line hline
    obtain ⟨i, hi, rfl | rfl | rfl⟩ := mem_lines.mp hline
    · trivial
    · have hzero := hclock 0 (Nat.zero_le _) i hi
      rwa [Nat.zero_min, Nat.zero_testBit] at hzero
    · intro t ht
      rw [hclock (t + 1) ht i hi]
      exact (value_next (hclock t (Nat.le_of_lt ht)) hi).symm

/-- The number that the bits stand for. -/
def counter (r : Btor2Trace Nat ExportState) (lastFrame t : Nat) : Nat :=
  Nat.ofBits fun i : Fin (bitWidth lastFrame) => r.states t (.cycle i)

theorem counter_eq {t : Nat} (hcounts : Counts r lastFrame t) :
    counter r lastFrame t = min t lastFrame := by
  refine (eq_iff_bits (Nat.ofBits_lt_two_pow _)
    (lt_two_pow_bitWidth (Nat.min_le_right _ _))).mpr fun i hi => ?_
  have hbit := Nat.testBit_ofBits_lt (fun j : Fin (bitWidth lastFrame) => r.states t (.cycle j)) i hi
  exact hbit.trans (hcounts i hi)

/-- The flag that stands in for an empty counter starts set and is cleared. -/
theorem value_firstFrame (hclock : Clock r n lastFrame)
    (hflag : ∀ line ∈ (firstFrame lastFrame).2, LineHolds n r line) {t : Nat} (ht : t ≤ n) :
    r.value t (firstFrame lastFrame).1 = decide (t = 0) := by
  unfold firstFrame at hflag ⊢
  split
  · rename_i hwidth
    have hlast := bitWidth_ne_zero.mp hwidth
    rw [value_atFrame (hclock t ht) (Nat.zero_le _), decide_eq_decide]
    omega
  · rename_i hwidth
    rw [if_neg hwidth] at hflag
    cases t with
    | zero => exact hflag (.init .initialFrame (.const true)) (by simp)
    | succ t => exact hflag (.next .initialFrame (.const false)) (by simp) t ht

/-- For every horizon the counter holds the frame number until it saturates, and its
conditions single out the frames they name. -/
theorem timeline_counts (lastFrame : Nat) (r : Btor2Trace Nat ExportState) (n : Nat)
    (hrun : Run (lines lastFrame) n r) :
    ∀ t ≤ n, counter r lastFrame t = min t lastFrame ∧
      (∀ frame < lastFrame, r.value t (atFrame lastFrame frame) = decide (t = frame)) ∧
      ∀ frame ≤ lastFrame, r.value t (before lastFrame frame) = decide (t < frame) := by
  intro t ht
  have hcounts := lines_iff.mp (run_iff.mp hrun) t ht
  refine ⟨counter_eq hcounts, fun frame hframe => ?_, fun frame hframe => ?_⟩
  · rw [value_atFrame hcounts (Nat.le_of_lt hframe), decide_eq_decide]
    omega
  · exact value_before hcounts hframe

end KeplerFormal.ExportTimeline
