import KeplerFormal.Core.Runs

/-!
# Safety by a sequence of frames

A frame `F i` is a set of states that holds every state reachable in at most `i` steps. A
search for an inductive invariant starts from frames that say nothing, cuts a set of states
out of the first frames when no step leads into it from outside, and pushes what a frame says
to the next one. It is done when two neighbours agree.

* `Leaves`: what is known of a state from which a step out of frame `i` is taken.
* `FrameSeq`: the frames hold the start states, grow, and a step leads to the next frame.
* `FrameSeq.block`, `FrameSeq.push`, `FrameSeq.extend`, `FrameSeq.restrict`: what the search
  does keeps that.
* `FrameSeq.inductive_of_eq`: where two neighbours agree, the frame is an invariant.
* `CanFail`: sets of states from which a failing run starts.
-/
namespace KeplerFormal.Core

universe u v

namespace LTS
variable {S : Type u} {L : Type v} {T : LTS S L} {J Safe : S → Prop} {F F' : Nat → S → Prop}
  {n k m : Nat}

/-- The start states leave frame 0; a later frame is left from states that are known to be safe
and to satisfy the invariant `J`. -/
structure Leaves (T : LTS S L) (J Safe : S → Prop) (F : Nat → S → Prop) (i : Nat) (s : S) :
    Prop where
  frame : F i s
  start : i = 0 → T.init s
  later : 0 < i → J s ∧ Safe s

/-- The frames `0 .. n`. -/
structure FrameSeq (T : LTS S L) (J Safe : S → Prop) (F : Nat → S → Prop) (n : Nat) : Prop where
  init : ∀ i s, T.init s → F i s
  grows : ∀ i, 0 < i → i < n → ∀ s, F i s → F (i + 1) s
  step : ∀ i < n, ∀ s l t, T.Leaves J Safe F i s → T.step s l t → F (i + 1) t

theorem Leaves.mono {s : S} (h : T.Leaves J Safe F' k s) (hF : F' k s → F k s) :
    T.Leaves J Safe F k s where
  frame := hF h.frame
  start := h.start
  later := h.later

theorem FrameSeq.grows_le (h : T.FrameSeq J Safe F n) {i j : Nat} (hi : 0 < i) (hij : i ≤ j)
    (hj : j ≤ n) {s : S} (hs : F i s) : F j s := by
  induction j with
  | zero => omega
  | succ j ih =>
    rcases Nat.eq_or_lt_of_le hij with rfl | hlt
    · exact hs
    · exact h.grows j (by omega) (by omega) s (ih (by omega) (by omega))

/-- Before any set of states was excluded. -/
theorem frameSeq_zero (hF : ∀ i s, T.init s → F i s) : T.FrameSeq J Safe F 0 where
  init := hF
  grows i hi hi0 := by omega
  step i hi := by omega

/-- A state that leaves an earlier frame leaves frame `k` as well. -/
theorem FrameSeq.leaves_le (h : T.FrameSeq J Safe F n) (hstart : ∀ s, T.init s → J s ∧ Safe s)
    {i : Nat} {s : S} (hs : T.Leaves J Safe F i s) (hik : i ≤ k) (hk : k ≤ n) :
    T.Leaves J Safe F k s := by
  rcases Nat.eq_zero_or_pos i with rfl | hi
  · have hinit := hs.start rfl
    exact ⟨h.init k s hinit, fun _ => hinit, fun _ => hstart s hinit⟩
  · refine ⟨h.grows_le hi hik hk hs.frame, fun hk0 => ?_, fun _ => hs.later hi⟩
    omega

/-- A set without start states, into which no step leads from outside, is cut out of the
frames up to the next one. -/
theorem FrameSeq.block (h : T.FrameSeq J Safe F n) (hstart : ∀ s, T.init s → J s ∧ Safe s)
    (hk : k ≤ n) {z : S → Prop} (hinit : ∀ s, T.init s → ¬ z s)
    (hrel : ∀ s l t, T.Leaves J Safe F k s → ¬ z s → T.step s l t → ¬ z t)
    (hF : ∀ i s, F' i s ↔ F i s ∧ (0 < i → i ≤ k + 1 → ¬ z s)) : T.FrameSeq J Safe F' n where
  init i s hs := (hF i s).mpr ⟨h.init i s hs, fun _ _ => hinit s hs⟩
  grows i hi hin s hs := by
    obtain ⟨hold, hz⟩ := (hF i s).mp hs
    exact (hF (i + 1) s).mpr ⟨h.grows i hi hin s hold, fun _ hle => hz hi (by omega)⟩
  step i hi s l t hs hstep := by
    have hold := hs.mono fun hs' => ((hF i s).mp hs').1
    refine (hF (i + 1) t).mpr ⟨h.step i hi s l t hold hstep, fun _ hle => ?_⟩
    refine hrel s l t (h.leaves_le hstart hold (by omega) hk) ?_ hstep
    rcases Nat.eq_zero_or_pos i with rfl | hpos
    · exact hinit s (hs.start rfl)
    · exact ((hF i s).mp hs.frame).2 hpos (by omega)

/-- What a frame says and every step out of it keeps is pushed to the next frame. -/
theorem FrameSeq.push (h : T.FrameSeq J Safe F n) {c : S → Prop}
    (hc : ∀ s, F k s → c s)
    (hrel : ∀ s l t, T.Leaves J Safe F k s → T.step s l t → c t)
    (hF : ∀ i s, F' i s ↔ F i s ∧ (i = k + 1 → c s)) : T.FrameSeq J Safe F' n where
  init i s hs := (hF i s).mpr ⟨h.init i s hs, fun _ => hc s (h.init k s hs)⟩
  grows i hi hin s hs := by
    have hold := ((hF i s).mp hs).1
    refine (hF (i + 1) s).mpr ⟨h.grows i hi hin s hold, fun heq => ?_⟩
    rw [Nat.add_right_cancel heq] at hold
    exact hc s hold
  step i hi s l t hs hstep := by
    have hold := hs.mono fun hs' => ((hF i s).mp hs').1
    refine (hF (i + 1) t).mpr ⟨h.step i hi s l t hold hstep, fun heq => ?_⟩
    rw [Nat.add_right_cancel heq] at hold
    exact hrel s l t hold hstep

/-- Frame 0 may say what holds of every start state. -/
theorem FrameSeq.restrict (h : T.FrameSeq J Safe F n) {c : S → Prop}
    (hc : ∀ s, T.init s → c s) (hF : ∀ i s, F' i s ↔ F i s ∧ (i = 0 → c s)) :
    T.FrameSeq J Safe F' n where
  init i s hs := (hF i s).mpr ⟨h.init i s hs, fun _ => hc s hs⟩
  grows i hi hin s hs :=
    (hF (i + 1) s).mpr ⟨h.grows i hi hin s ((hF i s).mp hs).1, fun h0 => absurd h0 (by omega)⟩
  step i hi s l t hs hstep :=
    (hF (i + 1) t).mpr ⟨h.step i hi s l t (hs.mono fun hs' => ((hF i s).mp hs').1) hstep,
      fun h0 => absurd h0 (by omega)⟩

/-- A new frame may say what is an invariant of its own and what the frame before says too. -/
theorem FrameSeq.extend (h : T.FrameSeq J Safe F n) {c : S → Prop} (hc : T.Inductive c)
    (hcover : 0 < n → ∀ s, F n s → c s) (hnew : ∀ s, F (n + 1) s)
    (hF : ∀ i s, F' i s ↔ F i s ∧ (i = n + 1 → c s)) : T.FrameSeq J Safe F' (n + 1) where
  init i s hs := (hF i s).mpr ⟨h.init i s hs, fun _ => hc.init s hs⟩
  grows i hi hin s hs := by
    have hold := ((hF i s).mp hs).1
    rcases Nat.eq_or_lt_of_le (Nat.le_of_lt_succ hin) with rfl | hlt
    · exact (hF (i + 1) s).mpr ⟨hnew s, fun _ => hcover hi s hold⟩
    · exact (hF (i + 1) s).mpr ⟨h.grows i hi hlt s hold, fun heq => absurd heq (by omega)⟩
  step i hi s l t hs hstep := by
    have hold := hs.mono fun hs' => ((hF i s).mp hs').1
    rcases Nat.eq_or_lt_of_le (Nat.le_of_lt_succ hi) with rfl | hlt
    · refine (hF (i + 1) t).mpr ⟨hnew t, fun _ => hc.step s l t ?_ hstep⟩
      rcases Nat.eq_zero_or_pos i with rfl | hpos
      · exact hc.init s (hs.start rfl)
      · exact hcover hpos s hold.frame
    · exact (hF (i + 1) t).mpr ⟨h.step i hlt s l t hold hstep, fun heq => absurd heq (by omega)⟩

/-- Two neighbours that agree are an invariant, and a safe one below a safe frame. -/
theorem FrameSeq.inductive_of_eq (h : T.FrameSeq J Safe F n) (hJ : T.Inductive J)
    (hstart : ∀ s, T.init s → Safe s) (hk : 0 < k) (hkm : k ≤ m) (hkn : k < n) (hmn : m ≤ n)
    (hsafe : ∀ s, F m s → J s → Safe s) (heq : ∀ s, F (k + 1) s → F k s) :
    T.Inductive fun s => F k s ∧ J s ∧ Safe s where
  init s hs := ⟨h.init k s hs, hJ.init s hs, hstart s hs⟩
  step s l t hs hstep := by
    obtain ⟨hframe, hj, hsf⟩ := hs
    have hnext : F k t :=
      heq t (h.step k hkn s l t ⟨hframe, fun h0 => by omega, fun _ => ⟨hj, hsf⟩⟩ hstep)
    have hjt := hJ.step s l t hj hstep
    exact ⟨hnext, hjt, hsafe t (h.grows_le hk hkm hmn hnext) hjt⟩

/-- A state is in frame `i` when a run of at most `i` safe steps leads to it. -/
theorem FrameSeq.covers (h : T.FrameSeq J Safe F n) (hJ : T.Inductive J)
    (hstart : ∀ s, T.init s → Safe s) (hsafe : ∀ i, 0 < i → i < n → ∀ s, F i s → J s → Safe s)
    {τ : Nat → S} (hinit : T.init (τ 0)) {d : Nat}
    (hstep : ∀ i < d, ∃ l, T.step (τ i) l (τ (i + 1)))
    (hd : d ≤ n) : F d (τ d) ∧ J (τ d) ∧ (d < n → Safe (τ d)) := by
  induction d with
  | zero => exact ⟨h.init 0 _ hinit, hJ.init _ hinit, fun _ => hstart _ hinit⟩
  | succ d ih =>
    obtain ⟨hframe, hj, hsf⟩ := ih (fun i hi => hstep i (by omega)) (by omega)
    obtain ⟨l, hl⟩ := hstep d (by omega)
    have hleaves : T.Leaves J Safe F d (τ d) :=
      ⟨hframe, fun h0 => by subst h0; exact hinit, fun _ => ⟨hj, hsf (by omega)⟩⟩
    have hnext := h.step d (by omega) _ l _ hleaves hl
    have hjnext := hJ.step _ l _ hj hl
    exact ⟨hnext, hjnext, fun hlt => hsafe (d + 1) (by omega) hlt _ hnext hjnext⟩

/-! ## Failing runs -/

/-- From every state of the set, up to what `Same` leaves open, a run of `d` steps fails. -/
def CanFail (T : LTS S L) (Same : S → S → Prop) (Bad : S → Prop) (d : Nat) (z : S → Prop) : Prop :=
  ∀ s, z s → ∃ τ : Nat → S, Same s (τ 0) ∧ (∀ i < d, ∃ l, T.step (τ i) l (τ (i + 1))) ∧ Bad (τ d)

end LTS

end KeplerFormal.Core
