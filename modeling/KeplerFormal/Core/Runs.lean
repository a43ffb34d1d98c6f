import Mathlib.Logic.Relation

/-!
# Transition systems and their runs

A transition system `LTS S L` has states `S` and labels `L`.

* `LTS.Inductive.reachable`: what the initial states satisfy and every step keeps
  holds in every reachable state.
* `LTS.Inductive.of_steps`: an invariant needs to be checked only on steps from
  states that satisfy another invariant.
* `restrict`: the runs whose steps all meet a condition.
-/
namespace KeplerFormal.Core

universe u v

structure LTS (S : Type u) (L : Type v) where
  init : S → Prop
  step : S → L → S → Prop

namespace LTS
variable {S : Type u} {L : Type v} (T : LTS S L)

inductive Reachable : S → Prop where
  | init {s : S} (h : T.init s) : Reachable s
  | step {s s' : S} {l : L} (h : Reachable s) (hstep : T.step s l s') : Reachable s'

structure Inductive (P : S → Prop) : Prop where
  init : ∀ s, T.init s → P s
  step : ∀ s l s', P s → T.step s l s' → P s'

/-- The runs that only take allowed steps. -/
def restrict (allowed : S → L → Prop) : LTS S L where
  init := T.init
  step s l s' := allowed s l ∧ T.step s l s'

variable {T}

theorem Inductive.reachable {P : S → Prop} (h : T.Inductive P) {s : S} (hs : T.Reachable s) :
    P s := by
  induction hs with
  | init hinit => exact h.init _ hinit
  | step _ hstep ih => exact h.step _ _ _ ih hstep

theorem Reachable.of_restrict {allowed : S → L → Prop} {s : S}
    (h : (T.restrict allowed).Reachable s) : T.Reachable s := by
  induction h with
  | init hinit => exact .init hinit
  | step _ hstep ih => exact .step ih hstep.2

theorem Inductive.of_steps {P Q : S → Prop} (hP : T.Inductive P) (hinit : ∀ s, T.init s → Q s)
    (hstep : ∀ s l s', P s → Q s → T.step s l s' → Q s') : T.Inductive fun s => P s ∧ Q s where
  init s hs := ⟨hP.init s hs, hinit s hs⟩
  step s l s' h hs := ⟨hP.step s l s' h.1 hs, hstep s l s' h.1 h.2 hs⟩

end LTS

end KeplerFormal.Core
