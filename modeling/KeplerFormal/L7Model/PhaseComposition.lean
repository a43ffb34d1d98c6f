import KeplerFormal.L1Formula.Remapping
import KeplerFormal.L7Model.DesignModel

/-!
# Positive and negative edges of one domain (`src/sec/model/SequentialDesignModel.cpp`)

A macro-cycle is sampled just before the positive edge, so negative-edge states see the
positive-edge states of their domain already updated.

* `composeSameDomainPhaseTransitions`: in each domain the next-state expressions of the
  positive-edge states are substituted into those of the negative-edge states.
* `twoStep`: the machine that updates in two steps, domain by domain.
* `compose_next`: what each next-state expression becomes.
* `compose_run`: the composed transition relation and the two-step machine have the same
  runs.
-/
namespace KeplerFormal

/-- The specification of the substitution: node by node, without the memo of the code. -/
def plainSubstitution (root : BoolExpr) (replacements : List (Nat × BoolExpr)) : BoolExpr :=
  if replacements = [] then root
  else BoolExpr.simplifyWhenChanged root
    (root.substitute fun id => (replacements.lookup id).getD (.var id))

/-- The recursion of the code, with its memo, gives the same expression. -/
theorem substituteBoolExprVariableExpressions_eq_shared (root : BoolExpr)
    (replacements : List (Nat × BoolExpr)) :
    plainSubstitution root replacements =
      Remapping.substituteBoolExprVariableExpressions replacements root := by
  have hshared := (Remapping.substituteShared_computes
    (Remapping.replacedLeaf replacements) root [] (Core.Memo.valid_nil _)).1
  unfold plainSubstitution Remapping.substituteBoolExprVariableExpressions
  rw [Remapping.substituteBoolExprVariableExpressionsImpl, hshared]
  cases replacements <;> rfl

theorem eval_plainSubstitution {replacements : List (Nat × BoolExpr)}
    (hconst : ∀ r ∈ replacements, 2 ≤ r.1) (root : BoolExpr) (σ : Valuation) :
    (plainSubstitution root replacements).eval σ =
      root.eval fun id => ((replacements.lookup id).getD (.var id)).eval σ := by
  have hkeep : ∀ s < 2, (replacements.lookup s).getD (.var s) = .var s := by
    intro s hs
    cases hlookup : replacements.lookup s with
    | none => rfl
    | some e =>
      obtain ⟨l, r, hsplit, -⟩ := List.lookup_eq_some_iff.mp hlookup
      have h2 := hconst (s, e) (by simp [hsplit])
      omega
  unfold plainSubstitution
  split
  · rename_i hempty
    rw [hempty]
    apply BoolExpr.eval_congr
    intro s _ h2
    exact (BoolExpr.eval_var σ h2).symm
  · rw [BoolExpr.eval_simplifyWhenChanged, BoolExpr.eval_substitute hkeep]

/-- What is read after the substitution. -/
theorem mem_support_plainSubstitution {root : BoolExpr} {replacements : List (Nat × BoolExpr)}
    {s : Nat} (hs : s ∈ (plainSubstitution root replacements).getSupportVars) (h2 : 2 ≤ s) :
    ∃ x ∈ root.getSupportVars, s ∈ ((replacements.lookup x).getD (.var x)).getSupportVars := by
  unfold plainSubstitution at hs
  split at hs
  · rename_i hempty
    rw [hempty]
    exact ⟨s, hs, Finset.mem_singleton_self s⟩
  · exact BoolExpr.mem_support_substitute (BoolExpr.mem_support_simplifyWhenChanged hs h2) h2

/-- An expression that reads no replaced variable is left as it is. -/
theorem plainSubstitution_eq_self {root : BoolExpr} {replacements : List (Nat × BoolExpr)}
    (h : ∀ s ∈ root.getSupportVars, replacements.lookup s = none) :
    plainSubstitution root replacements = root := by
  unfold plainSubstitution
  split
  · rfl
  · rw [BoolExpr.substitute_eq_self fun s hs => by rw [h s hs, Option.getD_none]]
    exact if_pos rfl

namespace ExtractionModel
variable (m : ExtractionModel)

/-- The order of the domains in the maps. -/
def signalKeyLess (lhs rhs : SignalKey) : Prop := lhs.1 < rhs.1 ∨ lhs.1 = rhs.1 ∧ lhs.2 ≤ rhs.2

instance : DecidableRel signalKeyLess := fun lhs rhs => by
  unfold signalKeyLess
  infer_instance

/-- A state of that phase and domain. -/
def inDomain (phase : ClockPhase) (domain : SignalKey) (key : SignalKey) : Bool :=
  (m.clockEventByStateKey key).any fun event => event.phase = phase ∧ event.domain = domain

/-- The state bits of a domain and phase, in order. -/
def statesByDomain (phase : ClockPhase) (domain : SignalKey) : List SignalKey :=
  m.stateBits.filter (m.inDomain phase domain)

/-- The domains of the positive-edge states, each once and in order. -/
def posedgeDomains : List SignalKey :=
  ((m.stateBits.filterMap fun key => (m.clockEventByStateKey key).bind fun event =>
    if event.phase = .Pos then some event.domain else none).dedup).insertionSort signalKeyLess

/-- The next-state expressions of a domain's positive-edge states by variable. -/
def posedgeNextByVarID (domain : SignalKey) : List (Nat × BoolExpr) :=
  (m.statesByDomain .Pos domain).filterMap fun key =>
    match m.inputVarByKey key, m.nextStateExprByStateKey key with
    | some v, some next => some (v, next)
    | _, _ => none

/-- One negative-edge state; the substitution is the plain one, which the code computes with a
memo. -/
def composeState (replacements : List (Nat × BoolExpr)) (m : ExtractionModel)
    (key : SignalKey) : ExtractionModel :=
  match m.nextStateExprByStateKey key with
  | none => m
  | some next =>
    let composed := plainSubstitution next replacements
    { m with nextStateExprByStateKey := Function.update m.nextStateExprByStateKey key composed }

/-- One domain; a domain without negative-edge states is left alone. -/
def composeDomain (m : ExtractionModel) (domain : SignalKey) : ExtractionModel :=
  (m.statesByDomain .Neg domain).foldl (composeState (m.posedgeNextByVarID domain)) m

/-- mirrors src/sec/model/SequentialDesignModel.cpp:4323-4375 -/
def composeSameDomainPhaseTransitions : ExtractionModel :=
  m.posedgeDomains.foldl composeDomain m

/-! ## The two-step machine -/

/-- The positive-edge states of one domain take their next values, all from `σ`. -/
def posStep (domain : SignalKey) (σ : Valuation) : Valuation := fun v =>
  match m.stateKeyOf v with
  | some key =>
    match m.nextStateExprByStateKey key with
    | some next => if m.inDomain .Pos domain key then next.eval σ else σ v
    | none => σ v
  | none => σ v

/-- The next value of a state: a negative-edge state sees its domain after the positive-edge
step, every other state the values before. -/
def twoStepNext (key : SignalKey) (next : BoolExpr) (σ : Valuation) : Bool :=
  match m.clockEventByStateKey key with
  | some event =>
    match event.phase with
    | .Pos => next.eval σ
    | .Neg => next.eval (m.posStep event.domain σ)
  | none => next.eval σ

/-- One macro-cycle of the two-step machine; `inputs` are the values after it. -/
def twoStep (σ inputs : Valuation) : Valuation := fun v =>
  match m.stateKeyOf v with
  | some key =>
    match m.nextStateExprByStateKey key with
    | some next => m.twoStepNext key next σ
    | none => inputs v
  | none => inputs v

/-- One step of a transition relation. -/
def step (σ inputs : Valuation) : Valuation := fun v =>
  match m.stateKeyOf v with
  | some key =>
    match m.nextStateExprByStateKey key with
    | some next => next.eval σ
    | none => inputs v
  | none => inputs v

/-- The values of a run, frame by frame. -/
def run (step : Valuation → Valuation → Valuation) (σ : Valuation) (inputs : Nat → Valuation) :
    Nat → Valuation
  | 0 => σ
  | n + 1 => step (run step σ inputs n) (inputs (n + 1))

/-! ## What each expression becomes -/

variable {m}

theorem inDomain_eq_true {phase : ClockPhase} {domain key : SignalKey} :
    m.inDomain phase domain key = true ↔ ∃ event,
      m.clockEventByStateKey key = some event ∧ event.phase = phase ∧ event.domain = domain := by
  unfold inDomain
  rw [Option.any_eq_true]
  simp

theorem mem_statesByDomain {phase : ClockPhase} {domain key : SignalKey} :
    key ∈ m.statesByDomain phase domain ↔ key ∈ m.stateBits ∧ ∃ event,
      m.clockEventByStateKey key = some event ∧ event.phase = phase ∧ event.domain = domain := by
  unfold statesByDomain
  rw [List.mem_filter, inDomain_eq_true]

/-- The expressions after the domains in `done`. -/
def composedNext (m : ExtractionModel) (done : List SignalKey) : KeyMap BoolExpr := fun key =>
  (m.nextStateExprByStateKey key).map fun next =>
    match m.clockEventByStateKey key with
    | some event =>
      if key ∈ m.stateBits ∧ event.phase = .Neg ∧ event.domain ∈ done then
        plainSubstitution next (m.posedgeNextByVarID event.domain)
      else next
    | none => next

theorem composedNext_nil : m.composedNext [] = m.nextStateExprByStateKey := by
  funext key
  unfold composedNext
  cases hnext : m.nextStateExprByStateKey key with
  | none => rfl
  | some next => cases m.clockEventByStateKey key <;> simp

/-- Positive-edge states keep their expressions. -/
theorem composedNext_pos {done : List SignalKey} {key : SignalKey} {event : ClockEvent}
    (hevent : m.clockEventByStateKey key = some event) (hphase : event.phase = .Pos) :
    m.composedNext done key = m.nextStateExprByStateKey key := by
  unfold composedNext
  cases m.nextStateExprByStateKey key <;> simp [hevent, hphase]

/-- The model with other next-state expressions. -/
def withNext (m : ExtractionModel) (next : KeyMap BoolExpr) : ExtractionModel :=
  { m with nextStateExprByStateKey := next }

@[simp] theorem withNext_next (next : KeyMap BoolExpr) :
    (m.withNext next).nextStateExprByStateKey = next := rfl

theorem withNext_withNext (next next' : KeyMap BoolExpr) :
    (m.withNext next).withNext next' = m.withNext next' := rfl

/-- The listed states read the replacements. -/
def rewritten (replacements : List (Nat × BoolExpr)) (next : KeyMap BoolExpr)
    (keys : List SignalKey) : KeyMap BoolExpr := fun key =>
  if key ∈ keys then
    (next key).map fun root => plainSubstitution root replacements
  else next key

theorem composeState_eq (replacements : List (Nat × BoolExpr)) (m : ExtractionModel)
    (key : SignalKey) : composeState replacements m key =
      m.withNext (rewritten replacements m.nextStateExprByStateKey [key]) := by
  unfold composeState
  cases hnext : m.nextStateExprByStateKey key with
  | none =>
    have hsame : rewritten replacements m.nextStateExprByStateKey [key] =
        m.nextStateExprByStateKey := by
      funext k
      unfold rewritten
      by_cases hk : k = key <;> simp [hk, hnext]
    rw [hsame]
    rfl
  | some next =>
    have hupdate : Function.update m.nextStateExprByStateKey key
        (some (plainSubstitution next replacements)) =
          rewritten replacements m.nextStateExprByStateKey [key] := by
      funext k
      unfold rewritten
      by_cases hk : k = key
      · rw [hk]
        simp [hnext]
      · simp [hk]
    rw [← hupdate]
    rfl

/-- Each listed state is rewritten once. -/
theorem foldl_composeState {replacements : List (Nat × BoolExpr)} {keys : List SignalKey}
    (hkeys : keys.Nodup) (m : ExtractionModel) : keys.foldl (composeState replacements) m =
      m.withNext (rewritten replacements m.nextStateExprByStateKey keys) := by
  induction keys generalizing m with
  | nil => rfl
  | cons key keys ih =>
    obtain ⟨hfresh, hrest⟩ := List.nodup_cons.mp hkeys
    rw [List.foldl_cons, ih hrest, composeState_eq, withNext_withNext]
    congr 1
    funext k
    unfold rewritten
    by_cases hk : k = key
    · rw [hk]
      simp [hfresh]
    · simp [hk]

theorem posedgeNextByVarID_composedNext (done : List SignalKey) (domain : SignalKey) :
    (m.withNext (m.composedNext done)).posedgeNextByVarID domain = m.posedgeNextByVarID domain := by
  unfold posedgeNextByVarID
  apply List.filterMap_congr
  intro key hkey
  obtain ⟨-, event, hevent, hphase, -⟩ := mem_statesByDomain.mp hkey
  have hkeep : m.composedNext done key = m.nextStateExprByStateKey key :=
    composedNext_pos hevent hphase
  rw [withNext_next, hkeep]
  rfl

theorem composeDomain_eq (hwf : m.WellFormed) {done : List SignalKey} {domain : SignalKey}
    (hfresh : domain ∉ done) :
    composeDomain (m.withNext (m.composedNext done)) domain =
      m.withNext (m.composedNext (domain :: done)) := by
  have hstates : (m.withNext (m.composedNext done)).statesByDomain .Neg domain =
      m.statesByDomain .Neg domain := rfl
  have hnodup : (m.statesByDomain .Neg domain).Nodup := hwf.nodup.filter _
  unfold composeDomain
  rw [hstates, foldl_composeState hnodup, posedgeNextByVarID_composedNext, withNext_withNext]
  congr 1
  funext key
  unfold rewritten
  rw [withNext_next]
  split
  · rename_i hkey
    obtain ⟨hmem, event, hevent, hphase, hdomain⟩ := mem_statesByDomain.mp hkey
    unfold composedNext
    cases m.nextStateExprByStateKey key <;> simp [hevent, hphase, hdomain, hmem, hfresh]
  · rename_i hkey
    unfold composedNext
    cases hnext : m.nextStateExprByStateKey key with
    | none => rfl
    | some next =>
      cases hevent : m.clockEventByStateKey key with
      | none => rfl
      | some event =>
        have hother : key ∈ m.stateBits → event.phase = .Neg → event.domain ≠ domain :=
          fun hmem hphase hdomain =>
            hkey (mem_statesByDomain.mpr ⟨hmem, event, hevent, hphase, hdomain⟩)
        simp only [Option.map_some, List.mem_cons, Option.some.injEq]
        refine if_congr ?_ rfl rfl
        refine and_congr_right fun hmem => and_congr_right fun hphase => ?_
        simp [hother hmem hphase]

theorem foldl_composeDomain (hwf : m.WellFormed) {domains done : List SignalKey}
    (hnodup : domains.Nodup) (hfresh : ∀ domain ∈ domains, domain ∉ done) :
    ∃ done', (∀ domain, domain ∈ done' ↔ domain ∈ done ∨ domain ∈ domains) ∧
      domains.foldl composeDomain (m.withNext (m.composedNext done)) =
        m.withNext (m.composedNext done') := by
  induction domains generalizing done with
  | nil => exact ⟨done, by simp, rfl⟩
  | cons domain domains ih =>
    obtain ⟨hhead, hrest⟩ := List.nodup_cons.mp hnodup
    rw [List.foldl_cons, composeDomain_eq hwf (hfresh domain List.mem_cons_self)]
    have hfresh' : ∀ d ∈ domains, d ∉ domain :: done := by
      intro d hd hin
      rcases List.mem_cons.mp hin with rfl | hin
      · exact hhead hd
      · exact hfresh d (List.mem_cons_of_mem _ hd) hin
    obtain ⟨done', hmem, hfold⟩ := ih hrest hfresh'
    refine ⟨done', fun d => ?_, hfold⟩
    rw [hmem, List.mem_cons, List.mem_cons]
    tauto

theorem mem_posedgeDomains {domain : SignalKey} : domain ∈ m.posedgeDomains ↔
    ∃ key ∈ m.stateBits, m.inDomain .Pos domain key = true := by
  unfold posedgeDomains inDomain
  rw [List.mem_insertionSort, List.mem_dedup, List.mem_filterMap]
  refine exists_congr fun key => and_congr_right fun _ => ?_
  cases m.clockEventByStateKey key with
  | none => simp
  | some event => simp

theorem compose_eq (hwf : m.WellFormed) : ∃ done,
    (∀ domain, domain ∈ done ↔ ∃ key ∈ m.stateBits, m.inDomain .Pos domain key = true) ∧
      m.composeSameDomainPhaseTransitions = m.withNext (m.composedNext done) := by
  have hnodup : m.posedgeDomains.Nodup :=
    (List.perm_insertionSort _ _).nodup_iff.mpr (List.nodup_dedup _)
  have hfresh : ∀ domain ∈ m.posedgeDomains, domain ∉ ([] : List SignalKey) :=
    fun _ _ => List.not_mem_nil
  obtain ⟨done, hdone, hfold⟩ := foldl_composeDomain hwf hnodup hfresh
  refine ⟨done, fun domain => ?_, ?_⟩
  · rw [hdone, ← mem_posedgeDomains]
    simp
  · rw [← hfold, composedNext_nil]
    rfl

/-- The replacements are the positive-edge step, seen as a substitution. -/
theorem lookup_posedgeNextByVarID (hwf : m.WellFormed) (domain : SignalKey) (v : Nat)
    (next : BoolExpr) : (m.posedgeNextByVarID domain).lookup v = some next ↔
      ∃ key, m.stateKeyOf v = some key ∧ m.nextStateExprByStateKey key = some next ∧
        m.inDomain .Pos domain key = true := by
  have hmem : ∀ v' next', (v', next') ∈ m.posedgeNextByVarID domain ↔
      ∃ key ∈ m.statesByDomain .Pos domain, m.inputVarByKey key = some v' ∧
        m.nextStateExprByStateKey key = some next' := by
    intro v' next'
    unfold posedgeNextByVarID
    rw [List.mem_filterMap]
    refine exists_congr fun key => and_congr_right fun _ => ?_
    cases m.inputVarByKey key <;> cases m.nextStateExprByStateKey key <;> simp
  have hstate : ∀ v' next', (v', next') ∈ m.posedgeNextByVarID domain ↔
      ∃ key, m.stateKeyOf v' = some key ∧ m.nextStateExprByStateKey key = some next' ∧
        m.inDomain .Pos domain key = true := by
    intro v' next'
    rw [hmem]
    refine exists_congr fun key => ?_
    rw [stateKeyOf_eq_some hwf, statesByDomain, List.mem_filter]
    tauto
  constructor
  · intro h
    obtain ⟨l, r, hsplit, -⟩ := List.lookup_eq_some_iff.mp h
    exact (hstate v next).mp (by simp [hsplit])
  · intro h
    cases hlookup : (m.posedgeNextByVarID domain).lookup v with
    | none =>
      have hnone := List.lookup_eq_none_iff.mp hlookup _ ((hstate v next).mpr h)
      simp at hnone
    | some next' =>
      obtain ⟨l, r, hsplit, -⟩ := List.lookup_eq_some_iff.mp hlookup
      obtain ⟨key', hkey', hnext', -⟩ := (hstate v next').mp (by simp [hsplit])
      obtain ⟨key, hkey, hnext, -⟩ := h
      rw [hkey] at hkey'
      cases hkey'
      rw [← hnext, hnext']

theorem eval_lookup_posedge (hwf : m.WellFormed) (domain : SignalKey) (σ : Valuation) {v : Nat}
    (h2 : 2 ≤ v) : (((m.posedgeNextByVarID domain).lookup v).getD (.var v)).eval σ =
      m.posStep domain σ v := by
  unfold posStep
  cases hlookup : (m.posedgeNextByVarID domain).lookup v with
  | some next =>
    obtain ⟨key, hkey, hnext, hdomain⟩ := (lookup_posedgeNextByVarID hwf domain v next).mp hlookup
    simp [hkey, hnext, hdomain]
  | none =>
    rw [Option.getD_none, BoolExpr.eval_var σ h2]
    cases hkey : m.stateKeyOf v with
    | none => rfl
    | some key =>
      cases hnext : m.nextStateExprByStateKey key with
      | none => simp [hnext]
      | some next =>
        by_cases hdomain : m.inDomain .Pos domain key = true
        · have hsome :=
            (lookup_posedgeNextByVarID hwf domain v next).mpr ⟨key, hkey, hnext, hdomain⟩
          rw [hlookup] at hsome
          cases hsome
        · simp [hnext, hdomain]

theorem eval_substitute_posedge (hwf : m.WellFormed) (domain : SignalKey) (root : BoolExpr)
    (σ : Valuation) :
    (plainSubstitution root (m.posedgeNextByVarID domain)).eval σ =
      root.eval (m.posStep domain σ) := by
  rw [eval_plainSubstitution]
  · apply BoolExpr.eval_congr
    intro v _ h2
    exact eval_lookup_posedge hwf domain σ h2
  · intro r hr
    unfold posedgeNextByVarID at hr
    obtain ⟨key, hkey, hmatch⟩ := List.mem_filterMap.mp hr
    obtain ⟨v, hvar, h2⟩ := hwf.mapped key (List.mem_filter.mp hkey).1
    rw [hvar] at hmatch
    cases hnext : m.nextStateExprByStateKey key with
    | none => simp [hnext] at hmatch
    | some next =>
      simp only [hnext, Option.some.injEq] at hmatch
      rw [← hmatch]
      exact h2

/-- Without positive-edge states the first step does nothing. -/
theorem posStep_eq_self (hwf : m.WellFormed) {domain : SignalKey}
    (h : ¬ ∃ key ∈ m.stateBits, m.inDomain .Pos domain key = true) (σ : Valuation) :
    m.posStep domain σ = σ := by
  funext v
  unfold posStep
  cases hkey : m.stateKeyOf v with
  | none => rfl
  | some key =>
    have hnot : m.inDomain .Pos domain key ≠ true :=
      fun hdomain => h ⟨key, ((stateKeyOf_eq_some hwf).mp hkey).1, hdomain⟩
    cases hnext : m.nextStateExprByStateKey key <;> simp [hnot, hnext]

/-- Each expression is the two-step machine's. -/
theorem compose_next (hwf : m.WellFormed) {key : SignalKey} (hmem : key ∈ m.stateBits) :
    (m.nextStateExprByStateKey key = none ↔
      m.composeSameDomainPhaseTransitions.nextStateExprByStateKey key = none) ∧
    ∀ next, m.nextStateExprByStateKey key = some next →
      ∃ composed, m.composeSameDomainPhaseTransitions.nextStateExprByStateKey key = some composed ∧
        ∀ σ, composed.eval σ = m.twoStepNext key next σ := by
  obtain ⟨done, hdone, heq⟩ := compose_eq hwf
  rw [heq, withNext_next]
  refine ⟨by simp [composedNext], fun next hnext => ⟨_, congrArg (Option.map _) hnext, fun σ => ?_⟩⟩
  unfold twoStepNext
  cases hevent : m.clockEventByStateKey key with
  | none => rfl
  | some event =>
    dsimp only
    cases hphase : event.phase with
    | Pos => simp
    | Neg =>
      by_cases hin : event.domain ∈ done
      · rw [if_pos ⟨hmem, rfl, hin⟩]
        exact eval_substitute_posedge hwf event.domain next σ
      · rw [if_neg fun h => hin h.2.2, posStep_eq_self hwf fun h => hin ((hdone _).mpr h)]

/-- The two machines take the same step. -/
theorem compose_step (hwf : m.WellFormed) :
    m.composeSameDomainPhaseTransitions.step = m.twoStep := by
  have hkeys : m.composeSameDomainPhaseTransitions.stateKeyOf = m.stateKeyOf := by
    obtain ⟨done, -, heq⟩ := compose_eq hwf
    rw [heq]
    rfl
  funext σ inputs v
  unfold step twoStep
  rw [hkeys]
  cases hkey : m.stateKeyOf v with
  | none => rfl
  | some key =>
    obtain ⟨hnone, hsome⟩ := compose_next hwf ((stateKeyOf_eq_some hwf).mp hkey).1
    cases hnext : m.nextStateExprByStateKey key with
    | none =>
      have hcomposed := hnone.mp hnext
      simp [hcomposed, hnext]
    | some next =>
      obtain ⟨composed, hcomposed, hvalue⟩ := hsome next hnext
      simp [hcomposed, hnext, hvalue]

/-- The composed relation has the runs of the two-step machine, and the outputs read them
as before; positive-edge states keep their expressions, and a negative-edge state that holds
keeps the value it had before the macro-cycle. -/
theorem compose_run (hwf : m.WellFormed) :
    (∀ σ inputs n, run m.composeSameDomainPhaseTransitions.step σ inputs n =
      run m.twoStep σ inputs n) ∧
    m.composeSameDomainPhaseTransitions.observedOutputExprByKey = m.observedOutputExprByKey ∧
    (∀ key event, m.clockEventByStateKey key = some event → event.phase = .Pos →
      m.composeSameDomainPhaseTransitions.nextStateExprByStateKey key =
        m.nextStateExprByStateKey key) ∧
    ∀ key ∈ m.stateBits, ∀ event v next enable, m.clockEventByStateKey key = some event →
      event.phase = .Neg → m.inputVarByKey key = some v →
      m.nextStateExprByStateKey key = some next →
      (∀ τ, BoolExpr.eval τ enable = false → next.eval τ = τ v) →
      ∃ composed, m.composeSameDomainPhaseTransitions.nextStateExprByStateKey key = some composed ∧
        ∀ σ, enable.eval (m.posStep event.domain σ) = false → composed.eval σ = σ v := by
  obtain ⟨done, hdone, heq⟩ := compose_eq hwf
  refine ⟨fun σ inputs n => by rw [compose_step hwf], by rw [heq]; rfl, ?_, ?_⟩
  · intro key event hevent hphase
    rw [heq, withNext_next, composedNext_pos hevent hphase]
  · intro key hmem event v next enable hevent hphase hvar hnext hhold
    obtain ⟨composed, hcomposed, hvalue⟩ := (compose_next hwf hmem).2 next hnext
    refine ⟨composed, hcomposed, fun σ hdisabled => ?_⟩
    have hkey : m.stateKeyOf v = some key := (stateKeyOf_eq_some hwf).mpr ⟨hmem, hvar⟩
    have hself : m.posStep event.domain σ v = σ v := by
      simp [posStep, hkey, hnext, inDomain, hevent, hphase]
    rw [hvalue, twoStepNext, hevent]
    dsimp only
    rw [hphase]
    dsimp only
    rw [hhold _ hdisabled, hself]

/-- A positive-edge state 2 that samples input 4, and a negative-edge state 3 that samples
state 2. -/
def sampledModel : ExtractionModel where
  stateBits := [([2], []), ([3], [])]
  allObservedOutputs := []
  inputVarByKey key := if key = ([2], []) then some 2 else if key = ([3], []) then some 3 else none
  displayNameByKey _ := none
  observedOutputExprByKey _ := none
  nextStateExprByStateKey key :=
    if key = ([2], []) then some (.var 4) else if key = ([3], []) then some (.var 2) else none
  clockEventByStateKey key :=
    if key = ([2], []) then some ⟨([0], []), .Pos, none⟩
    else if key = ([3], []) then some ⟨([0], []), .Neg, none⟩ else none
  connectivitySkipInfoByKey _ := none

theorem sampledModel_wellFormed : sampledModel.WellFormed where
  nodup := by decide
  mapped key hkey := by
    rcases List.mem_pair.mp hkey with rfl | rfl
    · exact ⟨2, rfl, by decide⟩
    · exact ⟨3, rfl, by decide⟩
  distinct := by decide

/-- Both states take the input in one macro-cycle. -/
theorem compose_run_sampledModel :
    (∀ σ inputs n, run sampledModel.composeSameDomainPhaseTransitions.step σ inputs n =
      run sampledModel.twoStep σ inputs n) ∧
    ∀ σ inputs, run sampledModel.twoStep σ inputs 1 3 = σ 4 := by
  exact ⟨(compose_run sampledModel_wellFormed).1, fun σ inputs => rfl⟩

end ExtractionModel
end KeplerFormal
