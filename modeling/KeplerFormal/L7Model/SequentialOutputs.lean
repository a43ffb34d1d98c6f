import KeplerFormal.L7Model.NextStateSound

/-!
# What the outputs of a flip-flop show (`src/sec/model/SequentialDesignModel.cpp`)

* `pendingTransition_spec`: the transition of a state belongs to one of its outputs, and the
  complemented keys are those of all outputs of the other polarity.
* `rebuildTransition_shows_iff`: every stored expression is what its output shows of the
  reference cell exactly if the clock's gate is harmless where the clock pins are all pure
  carriers; `rebuildTransition_ungated` is a cell where it is not.
* `storedUpdate_exact_iff`: the update is gated by the active edge of its clock exactly if
  moreover the clock is recognised; `storedUpdate_dynamicPolarity` is a cell whose clock is
  not.
-/
namespace KeplerFormal

open Core

namespace SequentialInstanceScan
variable {scan : SequentialInstanceScan} {inputKeyByTerm : Nat → Option SignalKey}

/-- Every output has its own key. -/
def DistinctKeys (scan : SequentialInstanceScan) (inputKeyByTerm : Nat → Option SignalKey) : Prop :=
  ∀ o ∈ scan.stateOutputs, ∀ o' ∈ scan.stateOutputs, ∀ key,
    inputKeyByTerm o.termID = some key → inputKeyByTerm o'.termID = some key → o = o'

/-- The choice of a primary output starts from the outputs before. -/
theorem primaryOutput_mem {stateIndex : Nat} {primary : StateOutputTerm}
    (h : scan.primaryOutput stateIndex = some primary) :
    primary ∈ scan.stateOutputs ∧ primary.stateIndex = stateIndex := by
  let Chosen (chosen : Option StateOutputTerm) : Prop :=
    ∀ o ∈ chosen, o ∈ scan.stateOutputs ∧ o.stateIndex = stateIndex
  have hnone : Chosen none := by simp [Chosen]
  refine (List.foldlRecOn scan.stateOutputs _ hnone fun chosen hchosen output houtput => ?_ :
    Chosen (scan.primaryOutput stateIndex)) primary h
  intro o ho
  split at ho
  · rename_i hindex
    split at ho
    · cases ho
      exact ⟨houtput, hindex⟩
    · split at ho
      · cases ho
        exact ⟨houtput, hindex⟩
      · exact hchosen o ho
  · exact hchosen o ho

theorem keyAt_ok {termID : Nat} {key : SignalKey} :
    keyAt inputKeyByTerm termID = .ok key ↔ inputKeyByTerm termID = some key := by
  unfold keyAt
  cases inputKeyByTerm termID <;> simp

/-- A transition of a state, as its outputs give it. -/
structure TransitionOf (scan : SequentialInstanceScan) (inputKeyByTerm : Nat → Option SignalKey)
    (stateIndex : Nat) (primary : StateOutputTerm) (pending : PendingTransition) : Prop where
  mem : primary ∈ scan.stateOutputs
  index : primary.stateIndex = stateIndex
  key : inputKeyByTerm primary.termID = some pending.stateKey
  polarity : pending.stateOutputIsComplemented = primary.complemented
  complemented : ∀ key, key ∈ pending.complementedStateKeys ↔
    ∃ o ∈ scan.stateOutputs, (o.termID ≠ primary.termID ∧ o.stateIndex = stateIndex ∧
      o.complemented = !primary.complemented) ∧ inputKeyByTerm o.termID = some key
  modelStateIndex : pending.modelStateIndex = stateIndex
  clock : ExtractionState.ClockTermsListed pending

theorem clockTermIDs_ne_nil {node : Node} (hnode : node ∈ scan.clockedOn.nodes)
    (hop : node.operation = .Term) (hmapped : scan.modelTermIDs node.term ≠ none) :
    scan.clockTermIDs ≠ [] := by
  obtain ⟨termID, htermID⟩ := Option.ne_none_iff_exists'.mp hmapped
  have hmem : termID ∈ scan.clockTermIDs := by
    unfold clockTermIDs
    rw [List.mem_reverse, List.mem_dedup, List.mem_reverse, List.mem_filterMap]
    exact ⟨node, List.mem_filter.mpr ⟨hnode, by simp [hop]⟩, htermID⟩
  exact List.ne_nil_of_mem hmem

theorem pendingTransition_spec {stateIndex : Nat} {pending : PendingTransition}
    (h : scan.pendingTransition inputKeyByTerm stateIndex = .ok (some pending)) :
    ∃ primary, TransitionOf scan inputKeyByTerm stateIndex primary pending := by
  unfold pendingTransition at h
  split at h
  · rename_i primary state hprimary hstate
    split at h
    · cases h
    · obtain ⟨stateKey, hkey, h⟩ := bind_ok.mp h
      obtain ⟨keys, hkeys, h⟩ := bind_ok.mp h
      cases h
      obtain ⟨hmem, hindex⟩ := primaryOutput_mem hprimary
      refine ⟨primary, hmem, hindex, keyAt_ok.mp hkey, rfl, fun key => ?_, rfl,
        fun node hnode hop hmapped => clockTermIDs_ne_nil hnode hop hmapped⟩
      rw [mem_mapM hkeys]
      refine exists_congr fun o => ?_
      rw [List.mem_filter, keyAt_ok, and_assoc]
      refine and_congr_right fun _ => and_congr_left fun _ => ?_
      simp only [not_or, decide_eq_true_eq, not_not, Bool.eq_not_iff, ne_eq]
  · cases h

end SequentialInstanceScan

open SequentialInstanceScan ExtractionState

section Stored
variable {scan : SequentialInstanceScan} {inputKeyByTerm : Nat → Option SignalKey}
  {stateIndex : Nat} {pending : PendingTransition} {s : ExtractionState} {clockExpr : BoolExpr}
  {event : ClockEvent}

/-- The entries of a transition are the stored expression under the primary output's key and
its complement under the others. -/
theorem mem_rebuildTransition {expr : BoolExpr} {session : CarrierSession}
    (h : s.buildNextStateExpr pending = .ok (expr, session)) :
    ∃ entries, s.rebuildTransition pending = .ok (entries, { s with session := session }) ∧
      ∀ key e, (key, e) ∈ entries ↔
        (key = pending.stateKey ∧ e = expr) ∨
          (key ∈ pending.complementedStateKeys ∧ e = .Not expr) := by
  refine ⟨_, bind_ok.mpr ⟨(expr, session), h, rfl⟩, fun key e => ?_⟩
  simp only [List.mem_cons, Prod.mk.injEq, List.mem_map]
  refine or_congr_right ⟨fun hkey => ?_, fun hkey => ⟨key, hkey.1, rfl, hkey.2.symm⟩⟩
  obtain ⟨key', hmem, rfl, rfl⟩ := hkey
  exact ⟨hmem, rfl⟩

/-- Every stored expression is what its output shows of the reference cell, exactly if the
gate is harmless where it is left out. -/
theorem rebuildTransition_shows_iff
    (hpending : scan.pendingTransition inputKeyByTerm stateIndex = .ok (some pending))
    (hkeys : scan.DistinctKeys inputKeyByTerm) (hvalid : s.Valid)
    (hsupported : s.Supported pending) (hcarriers : s.CarriersOnlyInClock pending)
    (hclock : s.ClockRecognised pending clockExpr event) :
    ∃ entries s', s.rebuildTransition pending = .ok (entries, s') ∧
      (∀ o ∈ scan.stateOutputs, o.stateIndex = stateIndex →
        o.complemented ≠ pending.stateOutputIsComplemented → ∀ key,
        inputKeyByTerm o.termID = some key → ∃ e, (key, e) ∈ entries) ∧
      ((∀ o ∈ scan.stateOutputs, ∀ key e, inputKeyByTerm o.termID = some key →
          (key, e) ∈ entries → ∀ σ, e.eval σ =
            (s.referenceNext pending ((clockEventEnableOrTrue event).eval σ) σ ^^
              o.complemented)) ↔
        s.GateHarmless pending event) := by
  obtain ⟨primary, hspec⟩ := pendingTransition_spec hpending
  obtain ⟨expr, session, hrun, hvalue⟩ :=
    buildNextStateExpr_computes hclock hvalid hsupported hcarriers hspec.clock
  obtain ⟨entries, hrebuild, hentries⟩ := mem_rebuildTransition hrun
  refine ⟨entries, _, hrebuild, fun o ho hindex hpolarity key hkey => ?_, fun hshows => ?_,
    fun hharmless o ho key e hkey he σ => ?_⟩
  · refine ⟨.Not expr, (hentries key _).mpr (.inr ⟨(hspec.complemented key).mpr ?_, rfl⟩)⟩
    have hne : o ≠ primary := by
      intro hsame
      rw [hsame, hspec.polarity] at hpolarity
      exact hpolarity rfl
    refine ⟨o, ho, ⟨fun hterm => hne (hkeys o ho primary hspec.mem key hkey ?_), hindex, ?_⟩, hkey⟩
    · rw [← hterm]
      exact hkey
    · rw [Bool.eq_not_iff, ← hspec.polarity]
      exact hpolarity
  · rw [gateHarmless_iff]
    intro σ
    have hprimary := hshows primary hspec.mem pending.stateKey expr hspec.key
      ((hentries _ _).mpr (.inl ⟨rfl, rfl⟩)) σ
    rw [hvalue, hspec.polarity] at hprimary
    exact Bool.xor_left_inj.mp hprimary
  · have hgate := (gateHarmless_iff event).mp hharmless σ
    rcases (hentries key e).mp he with ⟨rfl, rfl⟩ | ⟨hmem, rfl⟩
    · obtain rfl := hkeys o ho primary hspec.mem _ hkey hspec.key
      rw [hvalue, hgate, hspec.polarity]
    · obtain ⟨o', ho', hpolarity, hkey'⟩ := (hspec.complemented key).mp hmem
      obtain rfl := hkeys o ho o' ho' _ hkey hkey'
      rw [BoolExpr.eval_Not, hvalue, hgate, hspec.polarity, hpolarity.2.2]
      simp

/-- An update is stored only for a recognised clock and takes its data exactly at the active
edges of that clock, if and only if the clock is recognised and its gate is harmless where it
is left out. -/
theorem storedUpdate_exact_iff
    (hpending : scan.pendingTransition inputKeyByTerm stateIndex = .ok (some pending))
    (hvalid : s.Valid) (hsupported : s.Supported pending)
    (hcarriers : s.CarriersOnlyInClock pending) :
    (∀ expr session, s.buildNextStateExpr pending = .ok (expr, session) →
      ∃ clockExpr event c carrier, s.ClockRecognised pending clockExpr event ∧
        Recognises clockExpr s.clockEventByCarrierVarID event c carrier ∧
        ∀ σ, expr.eval σ = (s.referenceNext pending (hasActiveEdge clockExpr c carrier.phase σ) σ ^^
          pending.stateOutputIsComplemented)) ↔
    ∃ clockExpr event, s.ClockRecognised pending clockExpr event ∧
      s.GateHarmless pending event := by
  obtain ⟨primary, hspec⟩ := pendingTransition_spec hpending
  constructor
  · intro hexact
    obtain ⟨r, hr⟩ := getLocalClockEnableExpr_ok hsupported
    obtain ⟨update, hrun, -⟩ := buildNextStateExpr_ok hsupported hr
    obtain ⟨clockExpr, event, c, carrier, hclock, hrec, hvalue⟩ := hexact _ _ hrun
    refine ⟨clockExpr, event, hclock, (gateHarmless_iff event).mpr fun σ => ?_⟩
    obtain ⟨expr, session, hrun', hvalue'⟩ :=
      buildNextStateExpr_computes hclock hvalid hsupported hcarriers hspec.clock
    rw [hrun] at hrun'
    cases hrun'
    have hsame := (hvalue' σ).symm.trans (hvalue σ)
    rw [hrec.hasActiveEdge] at hsame
    exact Bool.xor_left_inj.mp hsame
  · intro h expr session hrun
    obtain ⟨clockExpr, event, hclock, hharmless⟩ := h
    obtain ⟨c, carrier, hrec⟩ := classify_recognises hclock.classified
    refine ⟨clockExpr, event, c, carrier, hclock, hrec, fun σ => ?_⟩
    obtain ⟨expr', session', hrun', hvalue⟩ :=
      buildNextStateExpr_computes hclock hvalid hsupported hcarriers hspec.clock
    rw [hrun] at hrun'
    cases hrun'
    rw [hvalue, hrec.hasActiveEdge, (gateHarmless_iff event).mp hharmless σ]

end Stored

/-! ## One flip-flop -/

/-- A table that is one terminal. -/
def termTable (term : Nat) : BooleanExpression where
  nodes := [⟨.Term, false, term, 0, []⟩]
  root := 0
  isValid := true

/-- Terminal 0 and state 0. -/
def stateGatedTable : BooleanExpression where
  nodes := [⟨.Term, false, 0, 0, []⟩, ⟨.State, false, 0, 0, []⟩, ⟨.And, false, 0, 0, [0, 1]⟩]
  root := 2
  isValid := true

/-- One state with data on terminal 1 and one output, which shows it plainly. -/
def flipFlopScan (clockedOn : BooleanExpression) : SequentialInstanceScan where
  states := [⟨termTable 1, none, none, .Zero⟩]
  clockedOn := clockedOn
  modelTermIDs term := if term < 2 then some (term + 10) else none
  stateOutputs := [⟨12, 0, false⟩]
  opaqueStateReasons := [none]

def flipFlopKey (termID : Nat) : Option SignalKey :=
  if termID = 12 then some ([12], []) else none

def flipFlopTransition (clockedOn : BooleanExpression) : PendingTransition where
  stateKey := ([12], [])
  stateTermID := 12
  stateOutputIsComplemented := false
  modelStateIndex := 0
  complementedStateKeys := []
  modelTermIDs := (flipFlopScan clockedOn).modelTermIDs
  stateReferences := [⟨some 12, false⟩]
  sequentialState := ⟨termTable 1, none, none, .Zero⟩
  clockedOn := clockedOn
  clockTermIDs := (flipFlopScan clockedOn).clockTermIDs

/-- The clock pin shows `clockPin`, the data pin variable 3 and the state is variable 5; the
carrier is variable 2. -/
def flipFlopState (clockPin : BoolExpr) (pure : Finset Nat) : ExtractionState where
  termDNLID2varID termID := if termID = 12 then some 5 else none
  outputExprByTerm termID :=
    if termID = 10 then some clockPin else if termID = 11 then some (.var 3) else none
  pureClockCarrierTermIDs := pure
  clockEventByCarrierVarID id := if id = 2 then some ⟨([2], []), .Pos, none⟩ else none
  session := oneCarrierSession

section FlipFlop
variable (clockedOn : BooleanExpression) (clockPin : BoolExpr) (pure : Finset Nat)

theorem flipFlop_pending : (flipFlopScan clockedOn).pendingTransition flipFlopKey 0 =
    .ok (some (flipFlopTransition clockedOn)) := rfl

theorem oneCarrier_mem : 2 ∈ oneCarrierSession.topClockCarrierVarIDs := by decide

theorem dataVar_carrierFree {id : Nat} (hid : id ≠ 2) :
    (flipFlopState clockPin pure).CarrierFree (.var id) := by
  intro s hs _ hcarrier
  have hcarriers : oneCarrierSession.topClockCarrierVarIDs = {2} := by decide
  rw [Finset.mem_singleton.mp hs] at hcarrier
  exact hid (Finset.mem_singleton.mp (hcarriers ▸ hcarrier))

theorem flipFlop_valid : (flipFlopState clockPin pure).Valid where
  session := sessions_inductive.reachable oneCarrierSession_reachable
  events id hid := by
    have h2 : id = 2 := by
      by_contra hne
      simp [flipFlopState, hne] at hid
    rw [h2]
    exact oneCarrier_mem

theorem termTable_wellFormed (term : Nat) : (termTable term).WellFormed where
  valid := rfl
  root := Nat.zero_lt_one
  operands := by simp [termTable]
  arity := by simp [termTable]
  nonempty := by simp [termTable]
  acyclic := ⟨fun _ => 0, fun nodeID node h => by
    have hnode : node ∈ (termTable term).nodes := List.mem_of_getElem? h
    rw [List.mem_singleton.mp hnode]
    simp [termTable]⟩

theorem stateGatedTable_wellFormed : stateGatedTable.WellFormed where
  valid := rfl
  root := by decide
  operands := by simp [stateGatedTable]
  arity := by simp [stateGatedTable]
  nonempty := by simp [stateGatedTable]
  acyclic := ⟨fun nodeID => if nodeID = 2 then 1 else 0, fun nodeID node h => by
    match nodeID with
    | 0 | 1 | 2 =>
      cases h
      simp [stateGatedTable]
    | n + 3 => cases h⟩

/-- Terminals 0 and 1 and state 0 are mapped. -/
theorem flipFlop_supported (hwf : clockedOn.WellFormed)
    (hnodes : ∀ node ∈ clockedOn.nodes, node.term = 0 ∧ node.state = 0) :
    (flipFlopState clockPin pure).Supported (flipFlopTransition clockedOn) where
  tables table htable := by
    rcases List.mem_cons.mp htable with rfl | htable
    · exact hwf
    · rw [List.mem_singleton.mp htable]
      exact termTable_wellFormed 1
  terms table htable node hnode _ := by
    rcases List.mem_cons.mp htable with rfl | htable
    · rw [(hnodes node hnode).1]
      exact ⟨clockPin, rfl⟩
    · rw [List.mem_singleton.mp htable] at hnode
      rw [List.mem_singleton.mp hnode]
      exact ⟨.var 3, rfl⟩
  states table htable node hnode hop := by
    rcases List.mem_cons.mp htable with rfl | htable
    · rw [(hnodes node hnode).2]
      exact ⟨.var 5, rfl⟩
    · rw [List.mem_singleton.mp htable] at hnode
      rw [List.mem_singleton.mp hnode] at hop
      cases hop
  current := ⟨.var 5, rfl⟩
  clearPreset hclear := absurd rfl hclear

theorem flipFlop_carriers :
    (flipFlopState clockPin pure).CarriersOnlyInClock (flipFlopTransition clockedOn) where
  terms table htable node hnode _ r hr := by
    rw [List.mem_singleton.mp htable] at hnode
    rw [List.mem_singleton.mp hnode] at hr
    cases hr
    exact dataVar_carrierFree clockPin pure (by omega)
  states i r hr := by
    cases i with
    | zero =>
      cases hr
      exact dataVar_carrierFree clockPin pure (by omega)
    | succ i => cases hr

end FlipFlop

/-- The clock pin is gated by variable 4. -/
theorem gatedFlipFlop_recognised :
    (flipFlopState (.and (.var 2) (.var 4)) ∅).ClockRecognised (flipFlopTransition (termTable 0))
      (.and (.var 2) (.var 4)) ⟨([2], []), .Pos, some (.var 4)⟩ where
  built := rfl
  classified := by decide +kernel
  enable := dataVar_carrierFree _ _ (by decide)

theorem gatedFlipFlop_exact :
    ∃ clockExpr event,
      (flipFlopState (.and (.var 2) (.var 4)) ∅).ClockRecognised (flipFlopTransition (termTable 0))
        clockExpr event ∧
      (flipFlopState (.and (.var 2) (.var 4)) ∅).GateHarmless (flipFlopTransition (termTable 0))
        event := by
  apply (storedUpdate_exact_iff (flipFlop_pending _) (flipFlop_valid _ _)
    (flipFlop_supported _ _ _ (termTable_wellFormed 0) (by decide)) (flipFlop_carriers _ _ _)).mp
  intro expr session hrun
  obtain ⟨c, carrier, hrec⟩ := classify_recognises gatedFlipFlop_recognised.classified
  obtain ⟨expr', session', hrun', hvalue⟩ := buildNextStateExpr_computes gatedFlipFlop_recognised
    (flipFlop_valid _ _) (flipFlop_supported _ _ _ (termTable_wellFormed 0) (by decide))
    (flipFlop_carriers _ _ _) fun _ _ _ _ => by decide
  rw [hrun] at hrun'
  cases hrun'
  refine ⟨_, _, c, carrier, gatedFlipFlop_recognised, hrec, fun σ => ?_⟩
  rw [hvalue, hrec.hasActiveEdge]
  rfl

/-! ## A flip-flop with clear and preset -/

/-- Terminals 2 and 3 clear and preset the state; its first output shows the complement. -/
def clearedScan : SequentialInstanceScan where
  states := [⟨termTable 1, some (termTable 2), some (termTable 3), .Hold⟩]
  clockedOn := termTable 0
  modelTermIDs term := if term < 4 then some (term + 10) else none
  stateOutputs := [⟨15, 0, true⟩, ⟨14, 0, false⟩]
  opaqueStateReasons := [none]

def clearedKey (termID : Nat) : Option SignalKey :=
  if termID = 14 ∨ termID = 15 then some ([termID], []) else none

def clearedTransition : PendingTransition where
  stateKey := ([14], [])
  stateTermID := 14
  stateOutputIsComplemented := false
  modelStateIndex := 0
  complementedStateKeys := [([15], [])]
  modelTermIDs := clearedScan.modelTermIDs
  stateReferences := [⟨some 14, false⟩]
  sequentialState := ⟨termTable 1, some (termTable 2), some (termTable 3), .Hold⟩
  clockedOn := termTable 0
  clockTermIDs := [10]

/-- The clock is gated by variable 4, the data is variable 3, clear 6, preset 7 and the state 5. -/
def clearedState : ExtractionState where
  termDNLID2varID termID := if termID = 14 then some 5 else none
  outputExprByTerm termID := match termID with
    | 10 => some (.and (.var 2) (.var 4))
    | 11 => some (.var 3)
    | 12 => some (.var 6)
    | 13 => some (.var 7)
    | _ => none
  pureClockCarrierTermIDs := ∅
  clockEventByCarrierVarID id := if id = 2 then some ⟨([2], []), .Pos, none⟩ else none
  session := oneCarrierSession

theorem clearedVar_carrierFree {id : Nat} (hid : id ≠ 2) : clearedState.CarrierFree (.var id) :=
  dataVar_carrierFree (.var 2) ∅ hid

theorem clearedTables {table : BooleanExpression}
    (h : table ∈ clearedTransition.clockedOn :: clearedTransition.updateTables) :
    ∃ term < 4, table = termTable term := by
  rcases List.mem_cons.mp h with rfl | h
  · exact ⟨0, by omega, rfl⟩
  · have htables : table ∈ [termTable 1, termTable 2, termTable 3] := h
    simp only [List.mem_cons, List.not_mem_nil, or_false] at htables
    rcases htables with rfl | rfl | rfl
    · exact ⟨1, by omega, rfl⟩
    · exact ⟨2, by omega, rfl⟩
    · exact ⟨3, by omega, rfl⟩

theorem cleared_supported : clearedState.Supported clearedTransition where
  tables table htable := by
    obtain ⟨term, -, rfl⟩ := clearedTables htable
    exact termTable_wellFormed term
  terms table htable node hnode _ := by
    obtain ⟨term, hterm, rfl⟩ := clearedTables htable
    obtain rfl := List.mem_singleton.mp hnode
    match term, hterm with
    | 0, _ => exact ⟨.and (.var 2) (.var 4), rfl⟩
    | 1, _ => exact ⟨.var 3, rfl⟩
    | 2, _ => exact ⟨.var 6, rfl⟩
    | 3, _ => exact ⟨.var 7, rfl⟩
  states table htable node hnode hop := by
    obtain ⟨term, -, rfl⟩ := clearedTables htable
    rw [List.mem_singleton.mp hnode] at hop
    cases hop
  current := ⟨.var 5, rfl⟩
  clearPreset _ _ := by decide

theorem cleared_carriers : clearedState.CarriersOnlyInClock clearedTransition where
  terms table htable node hnode _ r hr := by
    have htables : table ∈ [termTable 1, termTable 2, termTable 3] := htable
    simp only [List.mem_cons, List.not_mem_nil, or_false] at htables
    rcases htables with rfl | rfl | rfl
    all_goals
      rw [List.mem_singleton.mp hnode] at hr
      cases hr
      exact clearedVar_carrierFree (by omega)
  states i r hr := by
    cases i with
    | zero =>
      cases hr
      exact clearedVar_carrierFree (by omega)
    | succ i => cases hr

theorem cleared_valid : clearedState.Valid where
  session := sessions_inductive.reachable oneCarrierSession_reachable
  events := (flipFlop_valid (.var 2) ∅).events

theorem cleared_recognised : clearedState.ClockRecognised clearedTransition
    (.and (.var 2) (.var 4)) ⟨([2], []), .Pos, some (.var 4)⟩ where
  built := rfl
  classified := by decide +kernel
  enable := clearedVar_carrierFree (by omega)

theorem cleared_distinctKeys : clearedScan.DistinctKeys clearedKey := by
  intro o ho o' ho' key hkey hkey'
  have houtputs : ∀ o ∈ clearedScan.stateOutputs, o = ⟨15, 0, true⟩ ∨ o = ⟨14, 0, false⟩ := by
    intro o ho
    simpa [clearedScan] using ho
  rcases houtputs o ho with rfl | rfl <;> rcases houtputs o' ho' with rfl | rfl
  · rfl
  · cases hkey
    cases hkey'
  · cases hkey
    cases hkey'
  · rfl

/-- Both outputs have an entry, the plain one with the value of the cell and the other one with
its complement. -/
theorem clearedFlipFlop_shows : ∃ entries s',
    clearedState.rebuildTransition clearedTransition = .ok (entries, s') ∧
    (∃ e, (([15], []), e) ∈ entries) ∧
    ∀ e, (([14], []), e) ∈ entries ∨ (([15], []), .Not e) ∈ entries → ∀ σ, e.eval σ =
      if σ 6 then σ 7 && σ 5 else σ 7 || if σ 4 then σ 3 else σ 5 := by
  obtain ⟨entries, s', hrun, hentry, hshows⟩ :=
    rebuildTransition_shows_iff (show clearedScan.pendingTransition clearedKey 0 =
      .ok (some clearedTransition) from rfl) cleared_distinctKeys
      cleared_valid cleared_supported cleared_carriers cleared_recognised
  have hvalue := hshows.mpr fun hpure => absurd hpure (by decide)
  refine ⟨entries, s', hrun, hentry ⟨15, 0, true⟩ (List.mem_cons_self ..) rfl (by decide) _ rfl,
    fun e he σ => ?_⟩
  have hcell : e.eval σ = clearedState.referenceNext clearedTransition (σ 4) σ := by
    rcases he with hplain | hcomplement
    · rw [hvalue ⟨14, 0, false⟩ (by decide) _ e rfl hplain σ, Bool.xor_false]
      rfl
    · have hnot := hvalue ⟨15, 0, true⟩ (by decide) _ _ rfl hcomplement σ
      rw [BoolExpr.eval_Not, Bool.xor_true, Bool.not_inj_iff] at hnot
      exact hnot
  rw [hcell]
  change (if σ 6 then if σ 7 then σ 5 else false else if σ 7 then true else
    if σ 4 then σ 3 else σ 5) = _
  cases σ 6 <;> cases σ 7 <;> rfl

/-! ## Where the update is wrong -/

/-- The clock reads the state besides a pure carrier: the update is stored ungated. -/
theorem rebuildTransition_ungated : ∃ clockExpr event,
    (flipFlopState (.var 2) {10}).ClockRecognised (flipFlopTransition stateGatedTable) clockExpr
      event ∧
    ∃ entries s', (flipFlopState (.var 2) {10}).rebuildTransition
        (flipFlopTransition stateGatedTable) = .ok (entries, s') ∧
      ∃ o ∈ (flipFlopScan stateGatedTable).stateOutputs, ∃ key e,
        flipFlopKey o.termID = some key ∧ (key, e) ∈ entries ∧ ∃ σ, e.eval σ ≠
          ((flipFlopState (.var 2) {10}).referenceNext (flipFlopTransition stateGatedTable)
            ((clockEventEnableOrTrue event).eval σ) σ ^^ o.complemented) := by
  have hrec : (flipFlopState (.var 2) {10}).ClockRecognised (flipFlopTransition stateGatedTable)
      (.And (.var 2) (.var 5)) ⟨([2], []), .Pos, some (.var 5)⟩ :=
    ⟨rfl, by decide +kernel, dataVar_carrierFree _ _ (by decide)⟩
  obtain ⟨expr, session, hrun, hvalue⟩ := buildNextStateExpr_computes hrec (flipFlop_valid _ _)
    (flipFlop_supported _ _ _ stateGatedTable_wellFormed (by decide)) (flipFlop_carriers _ _ _)
    fun _ _ _ _ => by decide
  obtain ⟨entries, hrebuild, hentries⟩ := mem_rebuildTransition hrun
  refine ⟨_, _, hrec, entries, _, hrebuild, ⟨12, 0, false⟩, List.mem_singleton_self _,
    ([12], []), expr, rfl, (hentries _ _).mpr (.inl ⟨rfl, rfl⟩), fun s => s == 3, ?_⟩
  rw [hvalue]
  decide

/-- `clk ^ 4`: the clock rises in every cycle, and the stored update holds where 4 is true. -/
theorem storedUpdate_dynamicPolarity :
    (flipFlopScan (termTable 0)).pendingTransition flipFlopKey 0 =
        .ok (some (flipFlopTransition (termTable 0))) ∧
      (flipFlopState (.xor (.var 2) (.var 4)) ∅).classifyPendingClockEvent
        (flipFlopTransition (termTable 0)) = .ok none ∧
      ∃ expr session, (flipFlopState (.xor (.var 2) (.var 4)) ∅).buildNextStateExpr
          (flipFlopTransition (termTable 0)) = .ok (expr, session) ∧
        ∃ σ, hasActiveEdge (.xor (.var 2) (.var 4)) 2 .Pos σ = true ∧
          expr.eval σ ≠ (flipFlopState (.xor (.var 2) (.var 4)) ∅).referenceNext
            (flipFlopTransition (termTable 0)) true σ := by
  have hnone : classifyClockEventExpression (.xor (.var 2) (.var 4))
      (flipFlopState (.xor (.var 2) (.var 4)) ∅).clockEventByCarrierVarID = none := by
    decide +kernel
  obtain ⟨expr, session, hrun, hvalue⟩ := buildNextStateExpr_unrecognised
    (flipFlop_valid (.xor (.var 2) (.var 4)) ∅)
    (flipFlop_supported (termTable 0) _ _ (termTable_wellFormed 0) (by decide))
    (flipFlop_carriers _ _ _) (by decide) (by decide) (by decide) rfl hnone
  refine ⟨rfl, congrArg Except.ok hnone, expr, session, hrun, fun s => s == 3 || s == 4, rfl, ?_⟩
  rw [hvalue]
  decide

end KeplerFormal
