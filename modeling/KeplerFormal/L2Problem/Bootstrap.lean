import KeplerFormal.Core.Runs
import KeplerFormal.L2Problem.System

/-!
# The system after the reset bootstrap

A bootstrap runs `resetBootstrapCycles` frames with the reset controls asserted from
frames that meet the initial assignments; after it the controls are released for good.
Without any initial facts and without reset, the designs start where the observed
outputs match (CraigInterpolatingModelChecker.cpp:2789-2794).

* `BootstrapPrefix`: one bootstrap; `postBootstrap`: the system it starts.
* `reachable_domainValid`, `reachable_released`: what holds in every frame after it.
* `steadyRun`, `reachable_steadyRun`: every reachable frame has a run that goes on.
-/
namespace KeplerFormal.KInductionProblem

open Core

variable (p : KInductionProblem)

structure BootstrapPrefix (τ : Trace) : Prop where
  initial : ∀ a ∈ p.initialStateAssignments, lit (τ 0) a.1 = a.2
  matching : p.resetBootstrapCycles = 0 → p.initialStateAssignments = [] →
    p.hasExplicitInitialState = false →
    ∃ υ : Valuation, (∀ s ∈ p.combinedStateSymbols, lit υ s = lit (τ 0) s) ∧
      p.property.eval υ = true
  domain : p.DomainValid (τ 0)
  path : p.Path τ p.resetBootstrapCycles
  asserted : ∀ k < p.resetBootstrapCycles, p.ResetAsserted (τ k)
  released : p.ResetDeasserted (τ p.resetBootstrapCycles)
  bootstrap : ∀ a ∈ p.bootstrapStateAssignments, lit (τ p.resetBootstrapCycles) a.1 = a.2

def postBootstrap : LTS Valuation Unit where
  init σ := ∃ τ, p.BootstrapPrefix τ ∧ τ p.resetBootstrapCycles = σ
  step σ _ σ' := p.Advance σ σ' ∧ p.ResetDeasserted σ'

variable {p}

theorem BootstrapPrefix.domainValid {τ : Trace} (h : p.BootstrapPrefix τ)
    (hdomain : p.PreservesDomain) : ∀ k ≤ p.resetBootstrapCycles, p.DomainValid (τ k) := by
  intro k hk
  induction k with
  | zero => exact h.domain
  | succ k ih => exact hdomain _ _ (ih (by omega)) (h.path k (by omega))

theorem inductive_domainValid (hdomain : p.PreservesDomain) :
    p.postBootstrap.Inductive p.DomainValid where
  init := by
    rintro _ ⟨τ, hτ, rfl⟩
    exact hτ.domainValid hdomain _ le_rfl
  step σ _ σ' h hstep := hdomain σ σ' h hstep.1

theorem reachable_domainValid (hdomain : p.PreservesDomain) {σ : Valuation}
    (h : p.postBootstrap.Reachable σ) : p.DomainValid σ :=
  (inductive_domainValid hdomain).reachable h

theorem reachable_released {σ : Valuation} (h : p.postBootstrap.Reachable σ) :
    p.ResetDeasserted σ := by
  cases h with
  | init h =>
    obtain ⟨τ, hτ, rfl⟩ := h
    exact hτ.released
  | step _ hstep => exact hstep.2

/-- The run that keeps the inputs of its first frame. -/
def steadyRun (p : KInductionProblem) (σ : Valuation) : Trace
  | 0 => σ
  | k + 1 => p.successor (steadyRun p σ k) σ

theorem steadyRun_input (σ : Valuation) (k : Nat) {s : Nat} (hs : s ∉ p.combinedStateSymbols) :
    lit (p.steadyRun σ k) s = lit σ s := by
  cases k with
  | zero => rfl
  | succ k =>
    refine lit_successor_of_none ?_
    cases hv : p.nextStateOf (p.steadyRun σ k) s with
    | none => rfl
    | some v => exact absurd (mem_combinedStateSymbols_of_nextStateOf hv) hs

/-- Every reachable frame goes on: the steady run stays reachable. -/
theorem reachable_steadyRun {σ : Valuation} (h : p.postBootstrap.Reachable σ) (k : Nat) :
    p.postBootstrap.Reachable (p.steadyRun σ k) := by
  induction k with
  | zero => exact h
  | succ k ih =>
    refine .step (l := ()) ih ⟨advance_successor _ _, fun r hr => ?_⟩
    have hinput := p.resets_input r.1 (List.mem_map.mpr ⟨r, hr, rfl⟩)
    rw [steadyRun_input σ (k + 1) hinput]
    exact reachable_released h r hr

theorem advance_steadyRun (σ : Valuation) (k : Nat) :
    p.Advance (p.steadyRun σ k) (p.steadyRun σ (k + 1)) := advance_successor _ _

end KeplerFormal.KInductionProblem
