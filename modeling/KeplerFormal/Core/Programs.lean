import KeplerFormal.Core.Fallible

/-!
# Programs with a state, and their pre- and postconditions

A `Program` reads and writes a state and may stop with an error.

* `iterate`, `scan`: a loop with fuel, and a loop over a list that may be left early.
* `total`: the result of a program that has no error to stop with.
* `Triple P prog Q`: where `P` holds before and the program returns, `Q` holds of the value
  and the state after.
* `Triple.bind`, `Triple.known`, `Triple.mono`: the rules of a sequence.
* `Triple.iterate`, `Triple.scan`, `Triple.scanRange`: the rules of loops. A body that goes on keeps
  `I` and one that leaves ends in `R`, which is `Sum.elim I R` of its value.
-/
namespace KeplerFormal.Core

/-- A program that reads and writes a `σ`, and stops with an `ε` or returns an `α`. -/
abbrev Program (ε σ α : Type) := StateT σ (Except ε) α

namespace Program
variable {ε σ α β γ : Type}

/-- A loop whose body goes on with a new `α` or leaves with a `β`. -/
def iterate (stop : ε) (body : α → Program ε σ (α ⊕ β)) : Nat → α → Program ε σ β
  | 0, _ => throw stop
  | fuel + 1, a => do
    match ← body a with
    | .inl a => iterate stop body fuel a
    | .inr b => return b

/-- A loop over a list whose body goes on with a new `α` or leaves with a `β`. -/
def scan (body : γ → α → Program ε σ (α ⊕ β)) : List γ → α → Program ε σ (α ⊕ β)
  | [], a => return .inl a
  | c :: cs, a => do
    match ← body c a with
    | .inl a => scan body cs a
    | .inr b => return .inr b

/-- A program that cannot stop with an error. -/
def total (prog : Program Empty σ α) (s : σ) : α × σ :=
  match prog s with
  | .ok result => result
  | .error e => e.elim

/-- Partial correctness. -/
def Triple (P : σ → Prop) (prog : Program ε σ α) (Q : α → σ → Prop) : Prop :=
  ∀ s, P s → ∀ a s', prog s = .ok (a, s') → Q a s'

namespace Triple
variable {P P' : σ → Prop} {prog : Program ε σ α} {Q Q' : α → σ → Prop} {R : β → σ → Prop}

theorem mono (h : Triple P prog Q) (hP : ∀ s, P' s → P s) (hQ : ∀ a s, Q a s → Q' a s) :
    Triple P' prog Q' :=
  fun s hs a s' hrun => hQ a s' (h s (hP s hs) a s' hrun)

theorem weaken (h : Triple P prog Q) (hQ : ∀ a s, Q a s → Q' a s) : Triple P prog Q' :=
  h.mono (fun _ hs => hs) hQ

theorem strengthen (h : Triple P prog Q) (hP : ∀ s, P' s → P s) : Triple P' prog Q :=
  h.mono hP fun _ _ hs => hs

theorem total {prog : Program Empty σ α} (h : Triple P prog Q) {s : σ} (hs : P s) :
    Q (prog.total s).1 (prog.total s).2 := by
  unfold Program.total
  split
  · next result hrun => exact h s hs _ _ hrun
  · next e _ => exact e.elim

/-- What does not speak of the state is assumed before the program runs. -/
theorem assume {φ : Prop} (h : φ → Triple P prog Q) : Triple (fun s => φ ∧ P s) prog Q :=
  fun s hs a s' hrun => h hs.1 s hs.2 a s' hrun

theorem ret (a : α) (h : ∀ s, P s → Q a s) : Triple P (pure a : Program ε σ α) Q := by
  intro s hs a' s' hrun
  obtain ⟨rfl, rfl⟩ := Prod.mk.inj (Except.ok.inj hrun)
  exact h s hs

theorem stop (e : ε) : Triple P (throw e : Program ε σ α) Q := by
  intro s _ a s' hrun
  cases hrun

theorem bind {f : α → Program ε σ β} (h : Triple P prog Q) (hf : ∀ a, Triple (Q a) (f a) R) :
    Triple P (prog >>= f) R := by
  intro s hs b s'' hrun
  obtain ⟨⟨a, s'⟩, hprog, hrun⟩ := bind_ok.mp hrun
  exact hf a s' (h s hs a s' hprog) b s'' hrun

/-- What does not speak of the state is known to the rest of the program. -/
theorem known {φ : α → Prop} {f : α → Program ε σ β} (h : Triple P prog fun a s => P' s ∧ φ a)
    (hf : ∀ a, φ a → Triple P' (f a) R) : Triple P (prog >>= f) R :=
  h.bind fun a s hs => hf a hs.2 s hs.1

theorem get : Triple P (get : Program ε σ σ) fun a s => P s ∧ a = s := by
  intro s hs a s' hrun
  obtain ⟨rfl, rfl⟩ := Prod.mk.inj (Except.ok.inj hrun)
  exact ⟨hs, rfl⟩

theorem modify {f : σ → σ} {Q : Unit → σ → Prop} (h : ∀ s, P s → Q () (f s)) :
    Triple P (modify f : Program ε σ Unit) Q := by
  intro s hs a s' hrun
  obtain ⟨rfl, rfl⟩ := Prod.mk.inj (Except.ok.inj hrun)
  exact h s hs

theorem ite {c : Prop} [Decidable c] {prog' : Program ε σ α} (h : c → Triple P prog Q)
    (h' : ¬ c → Triple P prog' Q) : Triple P (if c then prog else prog') Q := by
  split
  · next hc => exact h hc
  · next hc => exact h' hc

/-- A loop keeps its invariant and leaves with what its body leaves with. -/
theorem iterate {stop : ε} {body : α → Program ε σ (α ⊕ β)} {I : α → σ → Prop}
    (hbody : ∀ a, Triple (I a) (body a) (Sum.elim I R)) (fuel : Nat) (a : α) :
    Triple (I a) (iterate stop body fuel a) R := by
  induction fuel generalizing a with
  | zero => exact .stop stop
  | succ fuel ih =>
    refine (hbody a).bind fun next => ?_
    cases next with
    | inl a' => exact ih a'
    | inr b => exact .ret b fun s hs => hs

theorem scan {body : γ → α → Program ε σ (α ⊕ β)} {I : α → σ → Prop} {cs : List γ}
    (hbody : ∀ c ∈ cs, ∀ a, Triple (I a) (body c a) (Sum.elim I R)) (a : α) :
    Triple (I a) (scan body cs a) (Sum.elim I R) := by
  induction cs generalizing a with
  | nil => exact .ret _ fun s hs => hs
  | cons c cs ih =>
    refine (hbody c List.mem_cons_self a).bind fun next => ?_
    cases next with
    | inl a' => exact ih (fun c' hc' => hbody c' (List.mem_cons_of_mem _ hc')) a'
    | inr b => exact .ret _ fun s hs => hs

/-- A loop over a range, with an invariant for each index. -/
theorem scanRange {body : Nat → Unit → Program ε σ (Unit ⊕ β)} {I : Nat → σ → Prop}
    {first count : Nat} (hbody : ∀ i, first ≤ i → i < first + count →
      Triple (I i) (body i ()) (Sum.elim (fun _ => I (i + 1)) R)) :
    Triple (I first) (Program.scan body (List.range' first count) ())
      (Sum.elim (fun _ => I (first + count)) R) := by
  induction count generalizing first with
  | zero => exact .ret _ fun s hs => hs
  | succ count ih =>
    rw [List.range'_succ]
    refine (hbody first (Nat.le_refl _) (by omega)).bind fun next => ?_
    cases next with
    | inl a =>
      have hsum : first + 1 + count = first + (count + 1) := by omega
      exact hsum ▸ @ih (first + 1) fun i hi hlt => hbody i (by omega) (by omega)
    | inr b => exact .ret _ fun s hs => hs

end Triple

end Program

end KeplerFormal.Core
