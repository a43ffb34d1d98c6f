import KeplerFormal.L4Engine.CraigMiningSound

/-!
# What a mining pass assumes (`src/sec/imc/CraigInterpolatingModelChecker.cpp`)

A local pass closes its candidates over the complement pairs once and then, with the facts that
are known, once more. A constant of the second closure that is no candidate is never checked; it
is right to assume it only where the known facts imply it.

* `localConstants`, `finalAssumptions`: what stays and what is assumed of it in the end.
* `minedFacts_sound`: where the transitions keep the state relations and the assumptions are
  justified, both passes find facts of every reachable state.
* `heldComplements`: states that keep their values beside some that do not.
* `twoComplements`: a state with two complements, where a constant outlives its partner.
-/
namespace KeplerFormal.KInductionProblem

open Core

variable (p : KInductionProblem) {σ : Type} (S : CraigSatSolver σ) (fresh : σ)

/-- The candidates that the checks of a local pass leave.
mirrors src/sec/imc/CraigInterpolatingModelChecker.cpp:2062-2086 -/
def localConstants (choice : MiningChoice) (existing : AuxiliaryStateInvariants) : Constants :=
  let candidates := p.localAuxiliaryCandidateConstants choice existing
  prune (fun cs c => p.transitionPreservesStateConstant S fresh c.1 c.2
    (keptAssumptions candidates (p.localAssumptions choice existing) cs))
    (candidates.length + 1) candidates

/-- What the last checks assume. -/
def finalAssumptions (choice : MiningChoice) (existing : AuxiliaryStateInvariants) : Constants :=
  keptAssumptions (p.localAuxiliaryCandidateConstants choice existing)
    (p.localAssumptions choice existing) (p.localConstants S fresh choice existing)

/-- The constants of a pass are the candidates that stay, closed over the complement pairs. -/
theorem deriveLocal_constants {choice : MiningChoice} {existing : AuxiliaryStateInvariants}
    (hlimit : choice.candidateSymbols.length ≤ kLocalAuxiliaryInvariantSupportMiningLimit)
    (hcandidates : p.localAuxiliaryCandidateConstants choice existing ≠ []) :
    (p.deriveLocalAuxiliaryStateInvariants S fresh choice existing).constants =
      p.closeComplementStateConstants
        ((p.localConstants S fresh choice existing).foldl emplaceConstant []) := by
  unfold deriveLocalAuxiliaryStateInvariants
  rw [if_neg (by omega)]
  dsimp only
  rw [if_neg hcandidates]
  rfl

/-- What is known of the states, and what a pass found, imply the constant. -/
def ImpliesConstant (known found : AuxiliaryStateInvariants) (a : Nat × Bool) : Prop :=
  ∀ σ, p.DomainValid σ → known.Hold σ → found.Hold σ → lit σ a.1 = a.2

/-- Both passes find facts of every reachable state, and assume at the end only what they return,
what was known or what follows from these. -/
structure MinedFacts (enabled : Bool) (choice : MiningChoice)
    (existing : AuxiliaryStateInvariants) : Prop where
  everywhere : ∀ σ, p.postBootstrap.Reachable σ →
    (p.deriveAuxiliaryStateInvariants S fresh enabled).Hold σ
  nearby : ∀ σ, p.postBootstrap.Reachable σ →
    (p.deriveLocalAuxiliaryStateInvariants S fresh choice existing).Hold σ
  assumed : choice.candidateSymbols.length ≤ kLocalAuxiliaryInvariantSupportMiningLimit →
    ∀ a ∈ p.finalAssumptions S fresh choice existing,
      a ∈ (p.deriveLocalAuxiliaryStateInvariants S fresh choice existing).constants ∨
      a ∈ existing.constants ∨
      p.ImpliesConstant existing (p.deriveLocalAuxiliaryStateInvariants S fresh choice existing) a

variable {p S fresh}

/-- Distinct constants of one symbol each are all put into a map. -/
theorem mem_foldl_emplaceConstant_of_nodup {cs ds : Constants} (hnodup : (symbols ds).Nodup)
    (hnew : ∀ c ∈ ds, c.1 ∉ symbols cs) : ds.foldl emplaceConstant cs = cs ++ ds := by
  induction ds generalizing cs with
  | nil => simp
  | cons d ds ih =>
    obtain ⟨hhead, hnodup⟩ := List.nodup_cons.mp hnodup
    have hfirst : emplaceConstant cs d = cs ++ [d] := by
      unfold emplaceConstant
      rw [if_neg]
      rw [List.contains_iff_mem]
      exact hnew d (List.mem_cons_self ..)
    rw [List.foldl_cons, hfirst, ih hnodup, List.append_assoc, List.singleton_append]
    intro c hc hmem
    simp only [symbols, List.map_append, List.map_cons, List.map_nil, List.mem_append,
      List.mem_singleton] at hmem
    rcases hmem with hold | hsame
    · exact hnew c (List.mem_cons_of_mem _ hc) hold
    · exact hhead (hsame ▸ List.mem_map_of_mem hc)

theorem symbols_nodup_append {cs : Constants} (h : (symbols cs).Nodup) {c : Nat × Bool}
    (hnew : c.1 ∉ symbols cs) : (symbols (cs ++ [c])).Nodup := by
  rw [symbols, List.map_append]
  refine List.nodup_append.mpr ⟨h, List.nodup_singleton _, fun s hs t ht hsame => hnew ?_⟩
  rw [List.map_singleton, List.mem_singleton] at ht
  exact ht ▸ hsame ▸ hs

theorem symbols_nodup_emplaceConstant (ds : Constants) {cs : Constants} (h : (symbols cs).Nodup) :
    (symbols (ds.foldl emplaceConstant cs)).Nodup := by
  induction ds generalizing cs with
  | nil => exact h
  | cons d ds ih =>
    refine ih ?_
    unfold emplaceConstant
    split
    · exact h
    · rename_i hnew
      rw [List.contains_iff_mem] at hnew
      exact symbols_nodup_append h hnew

theorem symbols_nodup_closeComplement {pairs : List (Nat × Nat)} {cs : Constants}
    (h : (symbols cs).Nodup) : (symbols (pairs.foldl closeComplementPair cs)).Nodup := by
  induction pairs generalizing cs with
  | nil => exact h
  | cons pr pairs ih =>
    refine ih ?_
    rcases closeComplementPair_cases cs pr with hsame | ⟨v, -, hnew, hadd⟩ | ⟨v, -, hnew, hadd⟩
    · rw [hsame]
      exact h
    · rw [hadd]
      exact symbols_nodup_append h hnew
    · rw [hadd]
      exact symbols_nodup_append h hnew

theorem symbols_nodup_candidates (choice : MiningChoice) (existing : AuxiliaryStateInvariants) :
    (symbols (p.localAuxiliaryCandidateConstants choice existing)).Nodup := by
  unfold localAuxiliaryCandidateConstants
  refine symbols_nodup_closeComplement ?_
  have hnil : (symbols ([] : Constants)).Nodup := List.nodup_nil
  have hall := symbols_nodup_emplaceConstant (p.bootstrapStateAssignments.filter
    fun a => choice.candidateSymbols.contains a.1 && !(symbols existing.constants).contains a.1) hnil
  split
  · exact hall
  · exact hall.sublist (List.filter_sublist.map Prod.fst)

/-- A candidate that stays is returned. -/
theorem mem_deriveLocal {choice : MiningChoice} {existing : AuxiliaryStateInvariants}
    (hlimit : choice.candidateSymbols.length ≤ kLocalAuxiliaryInvariantSupportMiningLimit)
    {a : Nat × Bool} (ha : a ∈ p.localConstants S fresh choice existing) :
    a ∈ (p.deriveLocalAuxiliaryStateInvariants S fresh choice existing).constants := by
  have hsub : (p.localConstants S fresh choice existing).Sublist
      (p.localAuxiliaryCandidateConstants choice existing) := prune_sublist _ _
  have hcandidates : p.localAuxiliaryCandidateConstants choice existing ≠ [] := by
    intro hnil
    have hmem := hsub.subset ha
    rw [hnil] at hmem
    cases hmem
  rw [deriveLocal_constants p S fresh hlimit hcandidates, mem_foldl_emplaceConstant_of_nodup
    ((symbols_nodup_candidates choice existing).sublist (hsub.map Prod.fst)) (by simp [symbols])]
  exact subset_closeComplement _ ha

/-- Both passes find facts of every reachable state where the transitions keep the state relations
and what a local pass assumes beyond its candidates is justified. -/
theorem minedFacts_sound (hdomain : p.PreservesDomain) (enabled : Bool) {choice : MiningChoice}
    {existing : AuxiliaryStateInvariants}
    (hexisting : ∀ σ, p.postBootstrap.Reachable σ → existing.Hold σ)
    (hjustified : p.Justified choice existing) : p.MinedFacts S fresh enabled choice existing where
  everywhere _ hσ := reachable_deriveAuxiliary hdomain enabled hσ
  nearby _ hσ := reachable_deriveLocalAuxiliary hdomain hjustified hexisting hσ
  assumed hlimit a ha := by
    obtain ⟨hmem, hcase⟩ := List.mem_filter.mp ha
    rcases Bool.or_eq_true_iff.mp hcase with hnew | hin
    · exact .inr (.inr fun σ hσ hknown _ => hjustified σ hσ hknown a hmem (by simpa using hnew))
    · exact .inl (mem_deriveLocal hlimit (List.contains_iff_mem.mp hin))

/-! ## Facts that stay -/

/-- States 5 and 9 keep their values and have the complements 6 and 10, which 8 and 13 follow.
State 11 falls in its first step, and 12 follows it. -/
def heldComplements : KInductionProblem where
  bootstrapStateAssignments := [(5, false), (8, true), (9, true), (11, true), (12, true),
    (13, true)]
  state0Symbols := [5, 6, 8, 9, 10, 11, 12, 13]
  allSymbols := [5, 6, 8, 9, 10, 11, 12, 13]
  complementedStatePairs0 := [(5, 6), (9, 10)]
  transitions0 := [(5, .var 5), (8, .var 6), (9, .var 9), (11, .var 5), (12, .var 11),
    (13, .not (.var 10))]
  property := .var 8
  bad := .not (.var 8)

def heldComplementsChoice : MiningChoice where
  candidateSymbols := [5, 8, 11, 12, 13]

/-- State 9 is known to be set. -/
def heldComplementsKnown : AuxiliaryStateInvariants where
  constants := [(9, true)]

theorem heldComplements_preserves : heldComplements.PreservesDomain := by
  intro σ σ' _ hadvance
  have h₅ : σ' 5 = σ 5 := hadvance 5 (σ 5) rfl
  have h₆ : σ' 6 = !σ 5 := hadvance 6 (!σ 5) rfl
  have h₉ : σ' 9 = σ 9 := hadvance 9 (σ 9) rfl
  have h₁₀ : σ' 10 = !σ 9 := hadvance 10 (!σ 9) rfl
  refine ⟨fun pr hpr => ?_, (fun _ h => nomatch h), (fun _ h => nomatch h)⟩
  have hpairs : pr = (5, 6) ∨ pr = (9, 10) := by
    simpa [heldComplements, complementedStatePairs] using hpr
  rcases hpairs with rfl | rfl
  · exact h₆.trans (congrArg (!·) h₅.symm)
  · exact h₁₀.trans (congrArg (!·) h₉.symm)

theorem heldComplementsKnown_hold {σ : Valuation}
    (hσ : heldComplements.postBootstrap.Reachable σ) : heldComplementsKnown.Hold σ := by
  have hset : heldComplements.postBootstrap.Inductive fun σ => lit σ 9 = true :=
    { init := fun σ hσ => by
        obtain ⟨τ, hτ, rfl⟩ := hσ
        exact hτ.bootstrap (9, true) (by decide)
      step := fun σ _ σ' hσ hstep => (hstep.1 9 (σ 9) rfl).trans hσ }
  refine ⟨fun c hc => ?_, nofun⟩
  obtain rfl := List.mem_singleton.mp hc
  exact hset.reachable hσ

/-- The passes keep the facts of the held states and drop those of the falling ones. -/
theorem heldComplements_minedFacts :
    (heldComplements.deriveAuxiliaryStateInvariants craigSolver () true).constants =
      [(5, false), (8, true), (9, true), (13, true), (6, true), (10, false)] ∧
    (heldComplements.deriveLocalAuxiliaryStateInvariants craigSolver () heldComplementsChoice
      heldComplementsKnown).constants = [(5, false), (8, true), (13, true), (6, true)] ∧
    heldComplements.MinedFacts craigSolver () true heldComplementsChoice heldComplementsKnown := by
  refine ⟨by decide +kernel, by decide +kernel, minedFacts_sound heldComplements_preserves true
    (fun σ hσ => heldComplementsKnown_hold hσ) ?_⟩
  intro σ hσ hknown a ha hnew
  have hassumed : ∀ a ∈ heldComplements.localAssumptions heldComplementsChoice
      heldComplementsKnown, a.1 ∈ symbols (heldComplements.localAuxiliaryCandidateConstants
        heldComplementsChoice heldComplementsKnown) ∨ a = (9, true) ∨ a = (10, false) := by
    decide +kernel
  have h₉ : σ 9 = true := hknown.constants (9, true) (List.mem_singleton.mpr rfl)
  rcases (hassumed a ha).resolve_left hnew with rfl | rfl
  · exact h₉
  · have h₁₀ : σ 10 = !σ 9 := hσ.complemented (9, 10) (by decide)
    exact h₁₀.trans (by rw [h₉]; rfl)

/-! ## Two complements of one state -/

/-- State 5 is set by its first step; 6 and 7 are its complements, and 8 follows 7. -/
def twoComplements : KInductionProblem where
  bootstrapStateAssignments := [(6, true), (8, true)]
  state0Symbols := [5, 6, 7, 8]
  allSymbols := [5, 6, 7, 8]
  complementedStatePairs0 := [(5, 7), (5, 6)]
  transitions0 := [(5, .var 1), (8, .var 7)]
  property := .var 8
  bad := .not (.var 8)

def twoComplementsChoice : MiningChoice where
  candidateSymbols := [6, 8]

theorem twoComplements_transition_cases {s : Nat} {e : BoolExpr}
    (h : twoComplements.transitionAt s = some e) : (s = 5 ∧ e = .var 1) ∨ (s = 8 ∧ e = .var 7) := by
  have hlookup : twoComplements.transitionAt s =
      [(5, BoolExpr.var 1), (8, .var 7)].lookup s := by
    unfold transitionAt
    cases hlookup : twoComplements.eagerTransitions.lookup s with
    | none => exact hlookup.symm
    | some e => exact hlookup.symm
  rw [hlookup] at h
  obtain ⟨before, after, hsplit, -⟩ := List.lookup_eq_some_iff.mp h
  have hmem : (s, e) ∈ [(5, BoolExpr.var 1), (8, .var 7)] := by
    rw [hsplit]
    simp
  simpa using hmem

theorem twoComplements_returns : (twoComplements.deriveLocalAuxiliaryStateInvariants craigSolver ()
    twoComplementsChoice {}).constants = [(8, true)] := by
  decide +kernel

/-- The first states of a run. -/
def twoComplementsTrace : Trace
  | 0 => fun s => s == 6 || s == 7 || s == 8
  | 1 => fun s => s == 5 || s == 8
  | _ => fun s => s == 5

theorem twoComplements_domainValid {σ : Valuation} (h₆ : σ 6 = !σ 5) (h₇ : σ 7 = !σ 5) :
    twoComplements.DomainValid σ where
  complemented pr hpr := by
    have hpairs : pr = (5, 7) ∨ pr = (5, 6) := by
      simpa [twoComplements, complementedStatePairs] using hpr
    rcases hpairs with rfl | rfl
    · exact h₇
    · exact h₆
  equal _ h := nomatch h
  rails _ h := nomatch h

theorem twoComplements_preserves : twoComplements.PreservesDomain := by
  intro σ σ' _ hadvance
  have h₅ : σ' 5 = true := hadvance 5 true rfl
  have h₆ : σ' 6 = false := hadvance 6 false rfl
  have h₇ : σ' 7 = false := hadvance 7 false rfl
  exact twoComplements_domainValid (by rw [h₅, h₆]; rfl) (by rw [h₅, h₇]; rfl)

theorem twoComplements_init : twoComplements.postBootstrap.Reachable (twoComplementsTrace 0) :=
  .init ⟨twoComplementsTrace,
    { initial := nofun
      matching := fun _ _ _ => ⟨twoComplementsTrace 0, fun _ _ => rfl, rfl⟩
      domain := twoComplements_domainValid rfl rfl
      path := fun k hk => absurd hk (Nat.not_lt_zero k)
      asserted := fun k hk => absurd hk (Nat.not_lt_zero k)
      released := nofun
      bootstrap := by decide }, rfl⟩

theorem twoComplements_advance (k : Nat) :
    twoComplements.Advance (twoComplementsTrace k) (twoComplementsTrace (k + 1)) := by
  refine advance_of_transitions ?_ fun s e he => ?_
  · match k with
    | 0 => exact twoComplements_domainValid rfl rfl
    | _ + 1 => exact twoComplements_domainValid rfl rfl
  · rcases twoComplements_transition_cases he with ⟨rfl, rfl⟩ | ⟨rfl, rfl⟩
    · match k with
      | 0 => rfl
      | _ + 1 => rfl
    · match k with
      | 0 => rfl
      | 1 => rfl
      | _ + 2 => rfl

/-- A complement of a refuted constant stays assumed, and a register that copies it is taken for
a constant, which it is not. -/
theorem twoComplements_not_minedFacts : twoComplements.PreservesDomain ∧
    (∀ σ, twoComplements.postBootstrap.Reachable σ → AuxiliaryStateInvariants.Hold {} σ) ∧
    ¬ twoComplements.MinedFacts craigSolver () true twoComplementsChoice {} := by
  refine ⟨twoComplements_preserves, fun σ _ => hold_empty σ, fun h => ?_⟩
  have hreach : twoComplements.postBootstrap.Reachable (twoComplementsTrace 2) :=
    .step (l := ()) (.step (l := ()) twoComplements_init ⟨twoComplements_advance 0, nofun⟩)
      ⟨twoComplements_advance 1, nofun⟩
  have hset := (h.nearby _ hreach).constants (8, true)
    (by rw [twoComplements_returns]; exact List.mem_singleton.mpr rfl)
  exact absurd hset (by decide)

end KeplerFormal.KInductionProblem
