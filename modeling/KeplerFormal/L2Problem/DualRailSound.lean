import KeplerFormal.L2Problem.DualRailProblem

/-!
# The rails cover the designs

Every run of the two designs, from any values of the state bits without a boot value, is
covered frame by frame by a run of the rails under the same inputs. So an output whose
guarded equality holds in every reachable rail state has equal values in the two designs
wherever both of its rail pairs are binary.

* `lookup_railEntries`: what the two rails of a key get, they keep.
* `covers_mapper`, `CoversStates.step`: one variable, one step.
* `RailRun.coversStates`, `exists_railRun`: whole runs.
* `dualRail_abstraction_sound`: the lift and the two designs together.
-/
namespace KeplerFormal

open Core

variable {κ α : Type}

/-- The rails of a state bit in a rail state. -/
def DualRailSymbolPair.rails (r : DualRailSymbolPair) (ρ : Valuation) : Rails :=
  ⟨lit ρ r.mayBeOne, lit ρ r.mayBeZero⟩

section Tables
variable [DecidableEq κ]

/-- The entries of the first state with a key, where no two states share a rail. -/
theorem railEntries_cons_of_some {states : List (RailState κ)} {entry : κ × α × α}
    {entries : List (κ × α × α)} {rails : DualRailSymbolPair}
    (h : railsByKey states entry.1 = some rails) :
    railEntries states (entry :: entries) =
      [(rails.mayBeOne, entry.2.1), (rails.mayBeZero, entry.2.2)] ++ railEntries states entries := by
  simp [railEntries, h]

theorem railEntries_cons_of_none {states : List (RailState κ)} {entry : κ × α × α}
    {entries : List (κ × α × α)} (h : railsByKey states entry.1 = none) :
    railEntries states (entry :: entries) = railEntries states entries := by
  simp [railEntries, h]

theorem lookup_railEntries {nextSymbol : Nat} {states : List (RailState κ)}
    (hnumbered : RailsFrom nextSymbol states) {entries : List (κ × α × α)} {key : κ}
    {rails : DualRailSymbolPair} (hrails : railsByKey states key = some rails)
    (hkey : key ∈ entries.map Prod.fst) :
    ∃ e, (key, e) ∈ entries ∧ (railEntries states entries).lookup rails.mayBeOne = some e.1 ∧
      (railEntries states entries).lookup rails.mayBeZero = some e.2 := by
  induction entries with
  | nil => cases hkey
  | cons entry entries ih =>
    obtain ⟨st, hst, hstkey, rfl⟩ := mem_of_railsByKey hrails
    by_cases hsame : entry.1 = key
    · -- the first entry of the key
      subst hsame
      have hne : (st.rails.mayBeZero == st.rails.mayBeOne) = false := by
        obtain ⟨i, hi, rfl⟩ := List.mem_iff_getElem.mp hst
        rw [hnumbered i _ (List.getElem?_eq_getElem hi)]
        simp
      refine ⟨entry.2, List.mem_cons_self, ?_, ?_⟩
      · rw [railEntries_cons_of_some hrails]
        simp
      · rw [railEntries_cons_of_some hrails]
        simp [List.lookup_cons, hne]
    · have hrest : key ∈ entries.map Prod.fst := by
        rcases List.mem_cons.mp hkey with rfl | hrest
        · exact absurd rfl hsame
        · exact hrest
      obtain ⟨e, he, hone, hzero⟩ := ih hrest
      have hskip : ∀ s ∈ [st.rails.mayBeOne, st.rails.mayBeZero],
          (railEntries states (entry :: entries)).lookup s =
            (railEntries states entries).lookup s := by
        intro s hs
        cases hrails' : railsByKey states entry.1 with
        | none => rw [railEntries_cons_of_none hrails']
        | some rails' =>
          rw [railEntries_cons_of_some hrails']
          obtain ⟨st', hst', hkey', rfl⟩ := mem_of_railsByKey hrails'
          have hdistinct : s ∉ [st'.rails.mayBeOne, st'.rails.mayBeZero] := by
            intro hs'
            have heq := hnumbered.eq_of_shared hst hst' hs hs'
            exact hsame (by rw [← hkey', ← heq, hstkey])
          simp only [List.mem_cons, List.not_mem_nil, or_false, not_or] at hdistinct
          simp [List.lookup_cons, beq_eq_false_iff_ne.mpr hdistinct.1,
            beq_eq_false_iff_ne.mpr hdistinct.2]
      refine ⟨e, List.mem_cons_of_mem _ he, ?_, ?_⟩
      · rw [hskip _ List.mem_cons_self, hone]
      · rw [hskip _ (List.mem_cons_of_mem _ List.mem_cons_self), hzero]

theorem mem_railEntries {states : List (RailState κ)} {entries : List (κ × α × α)} {key : κ}
    {e : α × α} {rails : DualRailSymbolPair} (hrails : railsByKey states key = some rails)
    (he : (key, e) ∈ entries) :
    (rails.mayBeOne, e.1) ∈ railEntries states entries ∧
      (rails.mayBeZero, e.2) ∈ railEntries states entries := by
  constructor <;> refine List.mem_flatMap.mpr ⟨_, he, ?_⟩ <;> simp [hrails]

/-- With one entry a key, every entry is found. -/
theorem lookup_of_mem {l : List (κ × α)} (hnodup : (l.map Prod.fst).Nodup) {entry : κ × α}
    (h : entry ∈ l) : l.lookup entry.1 = some entry.2 := by
  induction l with
  | nil => cases h
  | cons x l ih =>
    rw [List.map_cons, List.nodup_cons] at hnodup
    cases h with
    | head => exact List.lookup_cons_self
    | tail _ h =>
      have hne : (entry.1 == x.1) = false := by
        refine beq_eq_false_iff_ne.mpr fun heq => hnodup.1 ?_
        rw [← heq]
        exact List.mem_map.mpr ⟨entry, h, rfl⟩
      rw [List.lookup_cons, hne]
      exact ih hnodup.2 h

theorem lookup_of_lookupAt {l : List (κ × α)} {key : κ} {value : α}
    (h : lookupAt l key = .ok value) : l.lookup key = some value := by
  unfold lookupAt at h
  split at h
  · rename_i found hfound
    cases h
    exact hfound
  · cases h

omit [DecidableEq κ] in
/-- Two searches of which each finds what satisfies the other find the same. -/
theorem find?_eq_of_mutual {β : Type} {p q : β → Bool} {l : List β} {a b : β}
    (ha : l.find? p = some a) (hb : l.find? q = some b) (hqa : q a = true) (hpb : p b = true) :
    a = b := by
  induction l with
  | nil => cases ha
  | cons x l ih =>
    rw [List.find?_cons] at ha hb
    split at ha
    · cases ha
      rw [hqa] at hb
      exact Option.some.inj hb
    · rename_i hpx
      split at hb
      · cases hb
        rw [hpb] at hpx
        cases hpx
      · exact ih ha hb

/-- The state that a variable stands for is the one that its key stands for. -/
theorem railsByKey_of_local {model : SequentialDesignModel κ} {nextSymbol : Nat}
    (maps : DualRailStateSymbolMaps model nextSymbol) {x : Nat} {rails : DualRailSymbolPair}
    (h : railsByLocalSymbol maps.states x = some rails) :
    ∃ key ∈ model.stateBits, model.inputVarByKey.lookup key = some x ∧
      railsByKey maps.states key = some rails := by
  obtain ⟨st, hfind, rfl⟩ := Option.map_eq_some_iff.mp h
  have hst := List.mem_of_find?_eq_some hfind
  have hlocal : st.localSymbol = x := by simpa using List.find?_some hfind
  have hvar := maps.localSymbols st hst
  rw [hlocal] at hvar
  refine ⟨st.key, maps.keys ▸ List.mem_map.mpr ⟨st, hst, rfl⟩, hvar, ?_⟩
  have hsome : (maps.states.find? fun s => s.key == st.key).isSome = true := by
    rw [List.find?_isSome]
    exact ⟨st, hst, beq_self_eq_true _⟩
  obtain ⟨st', hfind'⟩ := Option.isSome_iff_exists.mp hsome
  have hkey' : st'.key = st.key := by simpa using List.find?_some hfind'
  have hvar' := maps.localSymbols st' (List.mem_of_find?_eq_some hfind')
  rw [hkey', hvar] at hvar'
  have heq := find?_eq_of_mutual hfind hfind' (beq_self_eq_true _)
    (by simpa using (Option.some.inj hvar').symm)
  subst heq
  unfold railsByKey
  rw [hfind']
  rfl

/-! ## One variable -/

/-- The rails of every state bit cover its value. -/
def CoversStates (model : SequentialDesignModel κ) (states : List (RailState κ))
    (ρ v : Valuation) : Prop :=
  ∀ key ∈ model.stateBits, ∀ rails, railsByKey states key = some rails →
    ∀ x, model.inputVarByKey.lookup key = some x → (rails.rails ρ).Covers (v x)

/-- The symbols of a list of inputs carry the values of their variables. -/
def CarriesDesignInputs (model : SequentialDesignModel κ) (inputSymbols : List (κ × Nat))
    (ρ v : Valuation) : Prop :=
  ∀ input ∈ inputSymbols, ∀ x, model.inputVarByKey.lookup input.1 = some x → lit ρ input.2 = v x

/-- A variable that the mapper knows is a state bit or an aligned input, and its rails
cover its value. -/
theorem covers_mapper {model : SequentialDesignModel κ} {nextSymbol : Nat}
    (maps : DualRailStateSymbolMaps model nextSymbol) {inputSymbols stateSymbols : List (κ × Nat)}
    (hstates : ∀ key symbol, stateSymbols.lookup key = some symbol → key ∈ model.stateBits)
    {unpublished : String} {ρ v : Valuation} (hcovers : CoversStates model maps.states ρ v)
    (hinputs : CarriesDesignInputs model inputSymbols ρ v) {x : Nat} (h2 : 2 ≤ x)
    {w : DualRailBoolExpr} (hw : dualRailVariableMapper unpublished maps.states
      (buildLocalToCombinedMap model inputSymbols stateSymbols) x = .ok w) :
    (w.rails ρ).Covers (v x) := by
  unfold dualRailVariableMapper at hw
  split at hw
  · rename_i rails hrails
    cases hw
    obtain ⟨key, hkey, hvar, hbykey⟩ := railsByKey_of_local maps hrails
    exact hcovers key hkey rails hbykey x hvar
  · rename_i hnone
    rw [if_neg (by omega)] at hw
    split at hw
    · rename_i symbol hsymbol
      cases hw
      have hmem : (x, symbol) ∈ buildLocalToCombinedMap model inputSymbols stateSymbols := by
        obtain ⟨l, r, heq, _⟩ := List.lookup_eq_some_iff.mp hsymbol
        rw [heq]
        simp
      obtain ⟨entry, hentry, hmapped⟩ := List.mem_filterMap.mp hmem
      have hvar : model.inputVarByKey.lookup entry.1 = some entry.2 :=
        lookup_of_mem model.inputVar_nodup hentry
      split at hmapped
      · rename_i symbol' hinput
        cases hmapped
        have hcarried : lit ρ symbol = v entry.2 := by
          obtain ⟨l, r, heq, _⟩ := List.lookup_eq_some_iff.mp hinput
          exact hinputs (entry.1, symbol) (by rw [heq]; simp) _ hvar
        have hrails : DualRailBoolExpr.rails ⟨.var symbol, .Not (.var symbol)⟩ ρ =
            Rails.known (lit ρ symbol) := by
          simp [DualRailBoolExpr.rails, Rails.known]
        rw [hrails, hcarried]
        exact Rails.covers_known
      · -- a state bit of the design has rails
        obtain ⟨symbol', hstate, hpair⟩ := Option.map_eq_some_iff.mp hmapped
        cases hpair
        have hkey := hstates _ _ hstate
        rw [← maps.keys] at hkey
        obtain ⟨st, hst, hstkey⟩ := List.mem_map.mp hkey
        have hlocal := maps.localSymbols st hst
        rw [hstkey, hvar] at hlocal
        have hfound : (maps.states.find? fun s => s.localSymbol == entry.2).isSome = true := by
          rw [List.find?_isSome]
          exact ⟨st, hst, by simpa using (Option.some.inj hlocal).symm⟩
        rw [railsByLocalSymbol, Option.map_eq_none_iff] at hnone
        rw [hnone] at hfound
        cases hfound
    · cases hw

/-! ## One step -/

omit [DecidableEq κ] in
/-- The message of a mapper does not matter to a lift. -/
theorem Lifts.of_mapper {unpublished unpublished' : String} {states : List (RailState κ)}
    {binaryMap : List (Nat × Nat)} {e : BoolExpr} {w : DualRailBoolExpr}
    (h : Lifts (dualRailVariableMapper unpublished states binaryMap) e w) :
    Lifts (dualRailVariableMapper unpublished' states binaryMap) e w := by
  have hok : ∀ s w, dualRailVariableMapper unpublished states binaryMap s = .ok w →
      dualRailVariableMapper unpublished' states binaryMap s = .ok w := by
    intro s w hw
    unfold dualRailVariableMapper at hw ⊢
    cases hrails : railsByLocalSymbol states s with
    | some rails =>
      rw [hrails] at hw
      exact hw
    | none =>
      rw [hrails] at hw
      by_cases h2 : s < 2
      · simp only [h2, if_true] at hw ⊢
        exact hw
      · simp only [h2, if_false] at hw ⊢
        cases hmap : binaryMap.lookup s with
        | some mapped =>
          rw [hmap] at hw
          exact hw
        | none =>
          rw [hmap] at hw
          cases hw
  have hrails : mapperRails (dualRailVariableMapper unpublished states binaryMap) =
      mapperRails (dualRailVariableMapper unpublished' states binaryMap) := by
    funext ρ s
    unfold mapperRails dualRailVariableMapper
    cases railsByLocalSymbol states s with
    | some rails => rfl
    | none =>
      by_cases h2 : s < 2
      · simp only [h2, if_true]
      · simp only [h2, if_false]
        cases binaryMap.lookup s <;> rfl
  refine ⟨fun s hs h2 => ?_, fun ρ => ?_, fun x hx h2 => ?_⟩
  · obtain ⟨w, hw⟩ := h.mapped s hs h2
    exact ⟨w, hok s w hw⟩
  · rw [← hrails]
    exact h.rails ρ
  · obtain ⟨s, hs, hs2, w, hw, hx⟩ := h.support x hx h2
    exact ⟨s, hs, hs2, w, hok s w hw, hx⟩

/-- What the eager transitions of a design are: the lift of each state bit's expression. -/
theorem eagerDualRailTransitions_spec {model : SequentialDesignModel κ}
    {mapper : DualRailVariableMapper} {keys : List κ} {memo : DualRailMemo}
    {entries : List (κ × BoolExpr × BoolExpr)} (hmemo : memo.Valid mapper)
    (h : eagerDualRailTransitions model mapper keys memo = .ok entries) :
    entries.map Prod.fst = keys ∧ ∀ entry ∈ entries, ∃ e w,
      model.nextStateExprByStateKey.lookup entry.1 = some e ∧ Lifts mapper e w ∧
        entry.2 = (w.mayBeOne, w.mayBeZero) := by
  induction keys generalizing memo entries with
  | nil =>
    cases h
    exact ⟨rfl, fun entry hentry => by cases hentry⟩
  | cons key keys ih =>
    obtain ⟨e, he, h⟩ := Except.of_bind_ok h
    obtain ⟨⟨w, memo'⟩, hw, h⟩ := Except.of_bind_ok h
    obtain ⟨rest, hrest, h⟩ := Except.of_bind_ok h
    cases h
    obtain ⟨hlift, hmemo'⟩ := buildDualRailBoolExpr_lifts hmemo hw
    obtain ⟨hkeys, hentries⟩ := ih hmemo' hrest
    refine ⟨by rw [List.map_cons, hkeys], fun entry hentry => ?_⟩
    cases hentry with
    | head => exact ⟨e, w, lookup_of_lookupAt he, hlift, rfl⟩
    | tail _ hentry => exact hentries entry hentry

theorem lazyDualRailTransitions_spec {designIndex : Nat} {model : SequentialDesignModel κ}
    {states : List (RailState κ)} {binaryMap : List (Nat × Nat)} {keys : List κ}
    {entries : List (κ × LazyTransition × LazyTransition)}
    (h : lazyDualRailTransitions designIndex model states binaryMap keys = .ok entries) :
    entries.map Prod.fst = keys ∧ ∀ entry ∈ entries, ∃ e w,
      model.nextStateExprByStateKey.lookup entry.1 = some e ∧
        Lifts (lazyDualRailVariableMapper designIndex states binaryMap) e w ∧
        (entry.2.1.expr, entry.2.2.expr) = (w.mayBeOne, w.mayBeZero) := by
  induction keys generalizing entries with
  | nil =>
    cases h
    exact ⟨rfl, fun entry hentry => by cases hentry⟩
  | cons key keys ih =>
    obtain ⟨e, he, h⟩ := Except.of_bind_ok h
    obtain ⟨next, hnext, h⟩ := Except.of_bind_ok h
    obtain ⟨rest, hrest, h⟩ := Except.of_bind_ok h
    cases h
    obtain ⟨hkeys, hentries⟩ := ih hrest
    refine ⟨by rw [List.map_cons, hkeys], fun entry hentry => ?_⟩
    cases hentry with
    | head =>
      unfold materializeLazyDualRailTransition at hnext
      split at hnext
      · cases hnext
      · rename_i w memo hw
        cases hnext
        exact ⟨e, w, lookup_of_lookupAt he,
          (buildDualRailBoolExpr_lifts (DualRailMemo.valid_nil _) hw).1, rfl⟩
    | tail _ hentry => exact hentries entry hentry

/-- The transitions of the two rails of a key are the lift of its next-state expression. -/
def LiftsNext (p : KInductionProblem) (model : SequentialDesignModel κ)
    (states : List (RailState κ)) (mapper : DualRailVariableMapper) : Prop :=
  ∀ key ∈ model.stateBits, ∀ rails, railsByKey states key = some rails →
    ∃ e w, model.nextStateExprByStateKey.lookup key = some e ∧ Lifts mapper e w ∧
      p.transitionAt rails.mayBeOne = some w.mayBeOne ∧
      p.transitionAt rails.mayBeZero = some w.mayBeZero

/-- One step keeps the rails covering the design. -/
theorem CoversStates.step {p : KInductionProblem} {model : SequentialDesignModel κ}
    {nextSymbol : Nat} (maps : DualRailStateSymbolMaps model nextSymbol)
    {inputSymbols stateSymbols : List (κ × Nat)}
    (hstates : ∀ key symbol, stateSymbols.lookup key = some symbol → key ∈ model.stateBits)
    {unpublished : String} (hnext : LiftsNext p model maps.states (dualRailVariableMapper
      unpublished maps.states (buildLocalToCombinedMap model inputSymbols stateSymbols)))
    {v : Trace} (hrun : DesignRun model v) {ρ ρ' : Valuation} {n : Nat}
    (hcovers : CoversStates model maps.states ρ (v n))
    (hinputs : CarriesDesignInputs model inputSymbols ρ (v n)) (hstep : p.Advance ρ ρ') :
    CoversStates model maps.states ρ' (v (n + 1)) := by
  intro key hkey rails hrails x hx
  obtain ⟨e, w, he, hlift, hone, hzero⟩ := hnext key hkey rails hrails
  have hrails' : rails.rails ρ' = w.rails ρ := by
    rw [DualRailSymbolPair.rails, hstep.transition hone, hstep.transition hzero]
    rfl
  rw [hrails', hlift.rails, hrun.step n key hkey x hx e he]
  refine covers_evalRails fun s hs h2 => ?_
  obtain ⟨w', hw'⟩ := hlift.mapped s hs h2
  rw [mapperRails, hw']
  exact covers_mapper maps hstates hcovers hinputs h2 hw'

/-- The boot state covers every value of a state bit without a boot value. -/
theorem coversStates_boot {model : SequentialDesignModel κ} {states : List (RailState κ)}
    {v : Trace} (hrun : DesignRun model v) {ρ : Valuation}
    (hboot : ∀ a ∈ dualRailInitialAssignments model states, lit ρ a.1 = a.2) :
    CoversStates model states ρ (v 0) := by
  intro key hkey rails hrails x hx
  have hentry : (key, dualRailStateAssignment (model.initialStateValueByKey.lookup key)) ∈
      model.stateBits.map fun key =>
        (key, dualRailStateAssignment (model.initialStateValueByKey.lookup key)) :=
    List.mem_map.mpr ⟨key, hkey, rfl⟩
  obtain ⟨hone, hzero⟩ := mem_railEntries hrails hentry
  have hrails' : rails.rails ρ = ⟨(dualRailStateAssignment
      (model.initialStateValueByKey.lookup key)).1, (dualRailStateAssignment
      (model.initialStateValueByKey.lookup key)).2⟩ := by
    rw [DualRailSymbolPair.rails, hboot _ hone, hboot _ hzero]
  rw [hrails']
  cases hinit : model.initialStateValueByKey.lookup key with
  | none => exact Rails.covers_unknown
  | some b =>
    rw [hrun.boot key hkey x hx b hinit]
    exact Rails.covers_known

/-! ## The problem that is built -/

/-- Both lifts of every output. -/
theorem buildDualRailOutputs_spec {model0 model1 : SequentialDesignModel κ}
    {mapper0 mapper1 : DualRailVariableMapper} {aligned : AlignedSignals κ}
    {memo0 memo1 memo0' memo1' : DualRailMemo}
    {outputs : List (DualRailBoolExpr × DualRailBoolExpr)} (h0 : memo0.Valid mapper0)
    (h1 : memo1.Valid mapper1)
    (h : buildDualRailOutputs model0 model1 mapper0 mapper1 aligned memo0 memo1 =
      .ok (outputs, memo0', memo1')) :
    memo0'.Valid mapper0 ∧ memo1'.Valid mapper1 ∧ List.Forall₂ (fun keys out =>
      ∃ e0 e1, model0.observedOutputExprByKey.lookup keys.1 = some e0 ∧
        model1.observedOutputExprByKey.lookup keys.2 = some e1 ∧
        Lifts mapper0 e0 out.1 ∧ Lifts mapper1 e1 out.2) aligned outputs := by
  induction aligned generalizing memo0 memo1 outputs with
  | nil =>
    cases h
    exact ⟨h0, h1, .nil⟩
  | cons keys aligned ih =>
    obtain ⟨e0, he0, h⟩ := Except.of_bind_ok h
    obtain ⟨⟨out0, m0⟩, hout0, h⟩ := Except.of_bind_ok h
    obtain ⟨e1, he1, h⟩ := Except.of_bind_ok h
    obtain ⟨⟨out1, m1⟩, hout1, h⟩ := Except.of_bind_ok h
    obtain ⟨⟨rest, memos⟩, hrest, h⟩ := Except.of_bind_ok h
    cases h
    obtain ⟨hlift0, hm0⟩ := buildDualRailBoolExpr_lifts h0 hout0
    obtain ⟨hlift1, hm1⟩ := buildDualRailBoolExpr_lifts h1 hout1
    obtain ⟨hvalid0, hvalid1, hall⟩ := ih hm0 hm1 hrest
    exact ⟨hvalid0, hvalid1, .cons ⟨e0, e1, lookup_of_lookupAt he0, lookup_of_lookupAt he1, hlift0,
      hlift1⟩ hall⟩

/-- What is known of a problem that was built. -/
structure BuiltFrom (model0 model1 : SequentialDesignModel κ)
    (alignedInputs alignedOutputs : AlignedSignals κ) (b : DualRailSecProblem κ) (first : Nat)
    (maps0 : DualRailStateSymbolMaps model0 first)
    (maps1 : DualRailStateSymbolMaps model1 (first + 2 * model0.stateBits.length)) : Prop where
  space : b.symbolSpace = buildSharedSecSymbolSpace model0 model1 alignedInputs
  first_eq : first = nextUnusedProofSymbol b.symbolSpace.allSymbols
  states0 : b.states0 = maps0.states
  states1 : b.states1 = maps1.states
  symbols0 : b.problem.state0Symbols = railSymbols maps0.states
  symbols1 : b.problem.state1Symbols = railSymbols maps1.states
  auxiliary : b.problem.auxiliaryStateSymbols = []
  complemented : b.problem.complementedStatePairs = []
  assignments : b.problem.initialStateAssignments =
    dualRailInitialAssignments model0 maps0.states ++ dualRailInitialAssignments model1 maps1.states
  next0 : LiftsNext b.problem model0 maps0.states
    (secDualRailVariableMapper maps0.states b.symbolSpace.localToCombined0)
  next1 : LiftsNext b.problem model1 maps1.states
    (secDualRailVariableMapper maps1.states b.symbolSpace.localToCombined1)
  outputs : List.Forall₂ (fun keys out =>
    ∃ e0 e1, model0.observedOutputExprByKey.lookup keys.1 = some e0 ∧
      model1.observedOutputExprByKey.lookup keys.2 = some e1 ∧
      Lifts (secDualRailVariableMapper maps0.states b.symbolSpace.localToCombined0) e0 out.1 ∧
      Lifts (secDualRailVariableMapper maps1.states b.symbolSpace.localToCombined1) e1 out.2)
    alignedOutputs b.outputs
  exprs : b.problem.observedOutputExprs0 =
    b.outputs.map fun o => dualRailGuardedEquality o.1 o.2

theorem lookup_append_of_not_mem {l l' : List (Nat × α)} {s : Nat} (h : s ∉ l.map Prod.fst) :
    (l ++ l').lookup s = l'.lookup s := by
  have hnone : l.lookup s = none := by
    rw [List.lookup_eq_none_iff]
    intro entry hentry
    refine bne_iff_ne.mpr fun heq => h ?_
    rw [heq]
    exact List.mem_map.mpr ⟨entry, hentry, rfl⟩
  rw [List.lookup_append, hnone, Option.none_or]

/-- The rails of the two designs do not overlap. -/
theorem not_mem_railEntries_of_second {model0 model1 : SequentialDesignModel κ} {first : Nat}
    (maps0 : DualRailStateSymbolMaps model0 first)
    (maps1 : DualRailStateSymbolMaps model1 (first + 2 * model0.stateBits.length))
    {entries : List (κ × α × α)} {s : Nat} (hs : s ∈ railSymbols maps1.states) :
    s ∉ (railEntries maps0.states entries).map Prod.fst := by
  intro hmem
  have hlow := (maps0.numbered.bounds (mem_railSymbols_of_railEntries hmem)).2
  have hhigh := maps1.le_of_mem hs
  rw [← maps0.keys, List.length_map] at hhigh
  omega

theorem lookup_append_of_some {l l' : List (Nat × α)} {s : Nat} {a : α} (h : l.lookup s = some a) :
    (l ++ l').lookup s = some a := by
  rw [List.lookup_append, h, Option.some_or]

/-- Where the transitions of a key are found, eager or lazy. -/
theorem liftsNext_of_lookup {p : KInductionProblem} {model : SequentialDesignModel κ}
    {nextSymbol : Nat} (maps : DualRailStateSymbolMaps model nextSymbol)
    {entries : List (κ × α × α)} {f : α → BoolExpr} {mapper : DualRailVariableMapper}
    (hkeys : entries.map Prod.fst = model.stateBits)
    (hentries : ∀ entry ∈ entries, ∃ e w, model.nextStateExprByStateKey.lookup entry.1 = some e ∧
      Lifts mapper e w ∧ (f entry.2.1, f entry.2.2) = (w.mayBeOne, w.mayBeZero))
    (hfound : ∀ s ∈ railSymbols maps.states, ∀ a,
      (railEntries maps.states entries).lookup s = some a → p.transitionAt s = some (f a)) :
    LiftsNext p model maps.states mapper := by
  intro key hkey rails hrails
  obtain ⟨a, ha, hone, hzero⟩ := lookup_railEntries maps.numbered hrails (hkeys ▸ hkey)
  obtain ⟨e, w, he, hlift, hpair⟩ := hentries _ ha
  obtain ⟨st, hst, _, rfl⟩ := mem_of_railsByKey hrails
  obtain ⟨hmemone, hmemzero⟩ := mem_railSymbols hst
  obtain ⟨hw1, hw0⟩ := Prod.mk.inj hpair
  exact ⟨e, w, he, hlift, by rw [hfound _ hmemone _ hone, hw1],
    by rw [hfound _ hmemzero _ hzero, hw0]⟩

theorem buildDualRailSecProblem_spec {model0 model1 : SequentialDesignModel κ}
    {alignedInputs alignedOutputs : AlignedSignals κ} {isLazy : Bool} {b : DualRailSecProblem κ}
    (h : buildDualRailSecProblem model0 model1 alignedInputs alignedOutputs isLazy = .ok b) :
    ∃ first maps0 maps1, BuiltFrom model0 model1 alignedInputs alignedOutputs b first maps0 maps1 := by
  obtain ⟨maps0, _, h⟩ := Except.of_bind_ok h
  obtain ⟨maps1, _, h⟩ := Except.of_bind_ok h
  obtain ⟨⟨outputs, memo0, memo1⟩, houtputs, h⟩ := Except.of_bind_ok h
  obtain ⟨transitions, htransitions, h⟩ := Except.of_bind_ok h
  obtain ⟨hmemo0, hmemo1, hall⟩ := buildDualRailOutputs_spec (DualRailMemo.valid_nil _)
    (DualRailMemo.valid_nil _) houtputs
  cases h
  have hnext : ∀ q : KInductionProblem, q.transitions0 = transitions.transitions0 →
      q.transitions1 = transitions.transitions1 → q.auxiliaryTransitions = [] →
      q.lazyTransitions = transitions.lazyTransitions →
      LiftsNext q model0 maps0.states (secDualRailVariableMapper maps0.states
        (buildSharedSecSymbolSpace model0 model1 alignedInputs).localToCombined0) ∧
      LiftsNext q model1 maps1.states (secDualRailVariableMapper maps1.states
        (buildSharedSecSymbolSpace model0 model1 alignedInputs).localToCombined1) := by
    intro q h0 h1 haux hlazy
    unfold buildDualRailTransitions at htransitions
    cases isLazy with
    | true =>
      simp only [if_true] at htransitions
      obtain ⟨next0, hnext0, htransitions⟩ := Except.of_bind_ok htransitions
      obtain ⟨next1, hnext1, htransitions⟩ := Except.of_bind_ok htransitions
      cases htransitions
      obtain ⟨hkeys0, hentries0⟩ := lazyDualRailTransitions_spec hnext0
      obtain ⟨hkeys1, hentries1⟩ := lazyDualRailTransitions_spec hnext1
      have hat : ∀ s a, (railEntries maps0.states next0 ++ railEntries maps1.states next1).lookup s =
          some a → q.transitionAt s = some a.expr := by
        intro s a ha
        unfold KInductionProblem.transitionAt KInductionProblem.eagerTransitions
          KInductionProblem.lazyTransitionAt
        rw [h0, h1, haux, hlazy]
        simp [ha]
      refine ⟨liftsNext_of_lookup maps0 (f := LazyTransition.expr) hkeys0
        (fun entry hentry => ?_) fun s _ a ha => hat s a (lookup_append_of_some ha),
        liftsNext_of_lookup maps1 (f := LazyTransition.expr) hkeys1
        (fun entry hentry => ?_) fun s hs a ha => hat s a ?_⟩
      · obtain ⟨e, w, he, hlift, hpair⟩ := hentries0 entry hentry
        exact ⟨e, w, he, hlift.of_mapper, hpair⟩
      · obtain ⟨e, w, he, hlift, hpair⟩ := hentries1 entry hentry
        exact ⟨e, w, he, hlift.of_mapper, hpair⟩
      · rw [lookup_append_of_not_mem (not_mem_railEntries_of_second maps0 maps1 hs)]
        exact ha
    | false =>
      simp only [Bool.false_eq_true, if_false] at htransitions
      obtain ⟨next0, hnext0, htransitions⟩ := Except.of_bind_ok htransitions
      obtain ⟨next1, hnext1, htransitions⟩ := Except.of_bind_ok htransitions
      cases htransitions
      obtain ⟨hkeys0, hentries0⟩ := eagerDualRailTransitions_spec hmemo0 hnext0
      obtain ⟨hkeys1, hentries1⟩ := eagerDualRailTransitions_spec hmemo1 hnext1
      have hat : ∀ s a, (railEntries maps0.states next0 ++ railEntries maps1.states next1).lookup s =
          some a → q.transitionAt s = some a := by
        intro s a ha
        unfold KInductionProblem.transitionAt KInductionProblem.eagerTransitions
        rw [h0, h1, haux, List.append_nil, ha]
      refine ⟨liftsNext_of_lookup maps0 (f := id) hkeys0 (fun entry hentry => ?_)
        fun s _ a ha => hat s a (lookup_append_of_some ha),
        liftsNext_of_lookup maps1 (f := id) hkeys1 (fun entry hentry => ?_)
        fun s hs a ha => hat s a ?_⟩
      · exact hentries0 entry hentry
      · exact hentries1 entry hentry
      · rw [lookup_append_of_not_mem (not_mem_railEntries_of_second maps0 maps1 hs)]
        exact ha
  refine ⟨_, maps0, maps1, rfl, rfl, rfl, rfl, rfl, rfl, rfl, rfl, rfl, ?_, ?_, hall, rfl⟩
  · exact (hnext _ rfl rfl rfl rfl).1
  · exact (hnext _ rfl rfl rfl rfl).2

/-! ## Whole runs -/

/-- The value of a guarded equality: not two opposite binary values. -/
theorem eval_dualRailGuardedEquality (o0 o1 : DualRailBoolExpr) (ρ : Valuation) :
    (dualRailGuardedEquality o0 o1).eval ρ =
      !(((o0.mayBeOne.eval ρ ^^ o0.mayBeZero.eval ρ) &&
        (o1.mayBeOne.eval ρ ^^ o1.mayBeZero.eval ρ)) &&
        (o0.mayBeOne.eval ρ ^^ o1.mayBeOne.eval ρ)) := by
  simp [dualRailGuardedEquality, buildDualRailBinaryDefinedExpr]

/-- Where the guarded equality holds, covering binary pairs are one value. -/
theorem eq_of_guardedEquality {o0 o1 : DualRailBoolExpr} {ρ : Valuation} {b0 b1 : Bool}
    (h : (dualRailGuardedEquality o0 o1).eval ρ = true) (h0 : (o0.rails ρ).Covers b0)
    (h1 : (o1.rails ρ).Covers b1) (hbinary0 : (o0.rails ρ).Binary)
    (hbinary1 : (o1.rails ρ).Binary) : b0 = b1 := by
  rw [eval_dualRailGuardedEquality] at h
  have hone0 := congrArg Rails.mayBeOne (h0.eq_known hbinary0)
  have hzero0 := congrArg Rails.mayBeZero (h0.eq_known hbinary0)
  have hone1 := congrArg Rails.mayBeOne (h1.eq_known hbinary1)
  have hzero1 := congrArg Rails.mayBeZero (h1.eq_known hbinary1)
  simp only [DualRailBoolExpr.rails, Rails.known] at hone0 hzero0 hone1 hzero1
  rw [hone0, hzero0, hone1, hzero1] at h
  cases b0 <;> cases b1 <;> first | rfl | cases h

section Built
variable {model0 model1 : SequentialDesignModel κ} {alignedInputs alignedOutputs : AlignedSignals κ}
  {b : DualRailSecProblem κ} {first : Nat} {maps0 : DualRailStateSymbolMaps model0 first}
  {maps1 : DualRailStateSymbolMaps model1 (first + 2 * model0.stateBits.length)}

theorem mem_stateBits_of_zipIdx {l : List κ} {n symbol : Nat} {key : κ}
    (h : (l.zipIdx n).lookup key = some symbol) : key ∈ l := by
  obtain ⟨l₁, l₂, heq, _⟩ := List.lookup_eq_some_iff.mp h
  have hmem : (key, symbol) ∈ l.zipIdx n := by
    rw [heq]
    simp
  obtain ⟨_, _, hkey⟩ := List.mem_zipIdx hmem
  rw [hkey]
  exact List.getElem_mem _

omit [DecidableEq κ] in
theorem CarriesInputs.left [DecidableEq κ] {v0 v1 ρ : Trace}
    (h : CarriesInputs model0 model1 alignedInputs v0 v1 ρ) (n : Nat) :
    CarriesDesignInputs model0
      ((inputSymbolsFrom model0 model1 alignedInputs).map fun i => (i.1.1, i.2)) (ρ n) (v0 n) := by
  intro input hinput x hx
  obtain ⟨i, hi, rfl⟩ := List.mem_map.mp hinput
  exact (h i hi n).1 x hx

omit [DecidableEq κ] in
theorem CarriesInputs.right [DecidableEq κ] {v0 v1 ρ : Trace}
    (h : CarriesInputs model0 model1 alignedInputs v0 v1 ρ) (n : Nat) :
    CarriesDesignInputs model1
      ((inputSymbolsFrom model0 model1 alignedInputs).map fun i => (i.1.2, i.2)) (ρ n) (v1 n) := by
  intro input hinput x hx
  obtain ⟨i, hi, rfl⟩ := List.mem_map.mp hinput
  exact (h i hi n).2 x hx

/-- In every frame of a run the rails cover both designs. -/
theorem RailRun.coversStates (hb : BuiltFrom model0 model1 alignedInputs alignedOutputs b first
    maps0 maps1) {v0 v1 ρ : Trace} (h0 : DesignRun model0 v0) (h1 : DesignRun model1 v1)
    (hinputs : CarriesInputs model0 model1 alignedInputs v0 v1 ρ) (hρ : RailRun b.problem ρ)
    (n : Nat) : CoversStates model0 maps0.states (ρ n) (v0 n) ∧
      CoversStates model1 maps1.states (ρ n) (v1 n) := by
  have hboot := hρ.boot
  rw [hb.assignments] at hboot
  have hnext0 := hb.next0
  have hnext1 := hb.next1
  rw [hb.space] at hnext0 hnext1
  induction n with
  | zero =>
    exact ⟨coversStates_boot h0 fun a ha => hboot a (List.mem_append_left _ ha),
      coversStates_boot h1 fun a ha => hboot a (List.mem_append_right _ ha)⟩
  | succ n ih =>
    exact ⟨ih.1.step maps0 (fun _ _ => mem_stateBits_of_zipIdx) hnext0 h0 (hinputs.left n)
        (hρ.step n),
      ih.2.step maps1 (fun _ _ => mem_stateBits_of_zipIdx) hnext1 h1 (hinputs.right n) (hρ.step n)⟩

/-- The lift of an expression of the first design covers its value. -/
theorem covers_lift0 (hb : BuiltFrom model0 model1 alignedInputs alignedOutputs b first maps0 maps1)
    {v0 v1 ρ : Trace} {n : Nat} (hcovers : CoversStates model0 maps0.states (ρ n) (v0 n))
    (hinputs : CarriesInputs model0 model1 alignedInputs v0 v1 ρ) {e : BoolExpr}
    {w : DualRailBoolExpr} (hlift : Lifts (secDualRailVariableMapper maps0.states
      b.symbolSpace.localToCombined0) e w) : (w.rails (ρ n)).Covers (e.eval (v0 n)) := by
  rw [hlift.rails]
  refine covers_evalRails fun s hs h2 => ?_
  obtain ⟨w', hw'⟩ := hlift.mapped s hs h2
  rw [mapperRails, hw']
  rw [hb.space] at hw'
  exact covers_mapper maps0 (fun _ _ => mem_stateBits_of_zipIdx) hcovers (hinputs.left n) h2 hw'

theorem covers_lift1 (hb : BuiltFrom model0 model1 alignedInputs alignedOutputs b first maps0 maps1)
    {v0 v1 ρ : Trace} {n : Nat} (hcovers : CoversStates model1 maps1.states (ρ n) (v1 n))
    (hinputs : CarriesInputs model0 model1 alignedInputs v0 v1 ρ) {e : BoolExpr}
    {w : DualRailBoolExpr} (hlift : Lifts (secDualRailVariableMapper maps1.states
      b.symbolSpace.localToCombined1) e w) : (w.rails (ρ n)).Covers (e.eval (v1 n)) := by
  rw [hlift.rails]
  refine covers_evalRails fun s hs h2 => ?_
  obtain ⟨w', hw'⟩ := hlift.mapped s hs h2
  rw [mapperRails, hw']
  rw [hb.space] at hw'
  exact covers_mapper maps1 (fun _ _ => mem_stateBits_of_zipIdx) hcovers (hinputs.right n) h2 hw'

omit [DecidableEq κ] in
/-- A symbol names one aligned input. -/
theorem eq_of_inputSymbols {input input' : (κ × κ) × Nat}
    (h : input ∈ inputSymbolsFrom model0 model1 alignedInputs)
    (h' : input' ∈ inputSymbolsFrom model0 model1 alignedInputs) (hs : input.2 = input'.2) :
    input = input' := by
  obtain ⟨keys, symbol⟩ := input
  obtain ⟨keys', symbol'⟩ := input'
  obtain rfl : symbol = symbol' := hs
  obtain ⟨_, _, hkeys⟩ := List.mem_zipIdx h
  obtain ⟨_, _, hkeys'⟩ := List.mem_zipIdx h'
  rw [hkeys, hkeys']

/-- The value of an input symbol, read from the first design that has the input. -/
def inputValue (model0 model1 : SequentialDesignModel κ) (alignedInputs : AlignedSignals κ)
    (v0 v1 : Trace) : Trace := fun n s =>
  match (inputSymbolsFrom model0 model1 alignedInputs).find? fun input => input.2 == s with
  | some input =>
    match model0.inputVarByKey.lookup input.1.1, model1.inputVarByKey.lookup input.1.2 with
    | some x, _ => v0 n x
    | none, some x => v1 n x
    | none, none => false
  | none => false

theorem inputValue_of_mem {v0 v1 : Trace} (hsame : SameInputs model0 model1 alignedInputs v0 v1)
    {input : (κ × κ) × Nat} (h : input ∈ inputSymbolsFrom model0 model1 alignedInputs) (n : Nat) :
    (∀ x, model0.inputVarByKey.lookup input.1.1 = some x →
      inputValue model0 model1 alignedInputs v0 v1 n input.2 = v0 n x) ∧
    (∀ x, model1.inputVarByKey.lookup input.1.2 = some x →
      inputValue model0 model1 alignedInputs v0 v1 n input.2 = v1 n x) := by
  have hfind : ((inputSymbolsFrom model0 model1 alignedInputs).find? fun i => i.2 == input.2) =
      some input := by
    cases hfound : (inputSymbolsFrom model0 model1 alignedInputs).find? fun i => i.2 == input.2 with
    | none =>
      have hnone := List.find?_eq_none.mp hfound input h
      simp at hnone
    | some input' =>
      have hmem := List.mem_of_find?_eq_some hfound
      have hs : input'.2 = input.2 := by simpa using List.find?_some hfound
      rw [eq_of_inputSymbols hmem h hs]
  have hkeys : input.1 ∈ alignedInputs := List.fst_mem_of_mem_zipIdx h
  unfold inputValue
  rw [hfind]
  refine ⟨fun x hx => by simp only [hx], fun x hx => ?_⟩
  cases hleft : model0.inputVarByKey.lookup input.1.1 with
  | none => simp only [hleft, hx]
  | some x0 =>
    simp only [hleft]
    exact hsame _ hkeys x0 x hleft hx n

/-- The two rails of a key get one value each. -/
theorem railEntries_functional {nextSymbol : Nat} {states : List (RailState κ)}
    (hnumbered : RailsFrom nextSymbol states) {keys : List κ} {f : κ → α × α} {s : Nat} {a a' : α}
    (h : (s, a) ∈ railEntries states (keys.map fun key => (key, f key)))
    (h' : (s, a') ∈ railEntries states (keys.map fun key => (key, f key))) : a = a' := by
  have hentry : ∀ a, (s, a) ∈ railEntries states (keys.map fun key => (key, f key)) →
      ∃ st ∈ states, (s = st.rails.mayBeOne ∧ a = (f st.key).1) ∨
        (s = st.rails.mayBeZero ∧ a = (f st.key).2) := by
    intro a ha
    obtain ⟨entry, hentry, ha⟩ := List.mem_flatMap.mp ha
    obtain ⟨key, _, rfl⟩ := List.mem_map.mp hentry
    split at ha
    · rename_i rails hrails
      obtain ⟨st, hst, hkey, rfl⟩ := mem_of_railsByKey hrails
      obtain rfl : st.key = key := hkey
      exact ⟨st, hst, by simpa using ha⟩
    · cases ha
  obtain ⟨st, hst, hcase⟩ := hentry a h
  obtain ⟨st', hst', hcase'⟩ := hentry a' h'
  have hmem : s ∈ [st.rails.mayBeOne, st.rails.mayBeZero] := by
    rcases hcase with ⟨rfl, _⟩ | ⟨rfl, _⟩ <;> simp
  have hmem' : s ∈ [st'.rails.mayBeOne, st'.rails.mayBeZero] := by
    rcases hcase' with ⟨rfl, _⟩ | ⟨rfl, _⟩ <;> simp
  obtain rfl := hnumbered.eq_of_shared hst hst' hmem hmem'
  have hne : st.rails.mayBeOne ≠ st.rails.mayBeZero := by
    obtain ⟨i, hi, rfl⟩ := List.mem_iff_getElem.mp hst
    rw [hnumbered i _ (List.getElem?_eq_getElem hi)]
    simp
  rcases hcase with ⟨hs, rfl⟩ | ⟨hs, rfl⟩ <;> rcases hcase' with ⟨hs', rfl⟩ | ⟨hs', rfl⟩
  · rfl
  · exact absurd (hs.symm.trans hs') hne
  · exact absurd (hs'.symm.trans hs) hne
  · rfl

theorem mem_railSymbols_of_assignment {model : SequentialDesignModel κ}
    {states : List (RailState κ)} {a : Nat × Bool} (h : a ∈ dualRailInitialAssignments model states) :
    a.1 ∈ railSymbols states :=
  mem_railSymbols_of_railEntries (List.mem_map.mpr ⟨a, h, rfl⟩)

theorem BuiltFrom.le_of_assignment (hb : BuiltFrom model0 model1 alignedInputs alignedOutputs b
    first maps0 maps1) {a : Nat × Bool} (h : a ∈ b.problem.initialStateAssignments) :
    first ≤ a.1 := by
  rw [hb.assignments, List.mem_append] at h
  rcases h with h | h
  · exact maps0.le_of_mem (mem_railSymbols_of_assignment h)
  · exact (Nat.le_add_right _ _).trans (maps1.le_of_mem (mem_railSymbols_of_assignment h))

theorem BuiltFrom.assignment_functional (hb : BuiltFrom model0 model1 alignedInputs alignedOutputs
    b first maps0 maps1) {s : Nat} {v v' : Bool} (h : (s, v) ∈ b.problem.initialStateAssignments)
    (h' : (s, v') ∈ b.problem.initialStateAssignments) : v = v' := by
  have hdisjoint : ∀ w w', (s, w) ∈ dualRailInitialAssignments model0 maps0.states →
      (s, w') ∈ dualRailInitialAssignments model1 maps1.states → False := by
    intro w w' hw hw'
    exact not_mem_railEntries_of_second maps0 maps1 (mem_railSymbols_of_assignment hw')
      (List.mem_map.mpr ⟨_, hw, rfl⟩)
  rw [hb.assignments, List.mem_append] at h h'
  rcases h with h | h <;> rcases h' with h' | h'
  · exact railEntries_functional maps0.numbered h h'
  · exact (hdisjoint _ _ h h').elim
  · exact (hdisjoint _ _ h' h).elim
  · exact railEntries_functional maps1.numbered h h'

theorem BuiltFrom.lt_of_inputSymbol (hb : BuiltFrom model0 model1 alignedInputs alignedOutputs b
    first maps0 maps1) {input : (κ × κ) × Nat}
    (h : input ∈ inputSymbolsFrom model0 model1 alignedInputs) :
    2 ≤ input.2 ∧ input.2 < first := by
  refine ⟨?_, ?_⟩
  · have hle := List.le_snd_of_mem_zipIdx h
    omega
  · rw [hb.first_eq]
    refine (nextUnusedProofSymbol_spec _).2 _ ?_
    rw [hb.space]
    exact List.mem_append_right _ (List.mem_map.mpr ⟨input, h, rfl⟩)

/-- The boot state and then one step after the other, under the inputs of the designs. -/
theorem exists_railRun (hb : BuiltFrom model0 model1 alignedInputs alignedOutputs b first maps0
    maps1) {v0 v1 : Trace} (hsame : SameInputs model0 model1 alignedInputs v0 v1) :
    ∃ ρ, RailRun b.problem ρ ∧ CarriesInputs model0 model1 alignedInputs v0 v1 ρ := by
  let input := inputValue model0 model1 alignedInputs v0 v1
  let boot : Valuation := fun s => (b.problem.initialStateAssignments.lookup s).getD (input 0 s)
  let ρ : Trace := fun n => Nat.rec boot (fun n σ => b.problem.successor σ (input (n + 1))) n
  have htwo := (nextUnusedProofSymbol_spec b.symbolSpace.allSymbols).1
  rw [← hb.first_eq] at htwo
  refine ⟨ρ, ⟨fun a ha => ?_, fun n => KInductionProblem.advance_successor _ _⟩, ?_⟩
  · rw [lit_of_two_le _ (htwo.trans (hb.le_of_assignment ha))]
    show (b.problem.initialStateAssignments.lookup a.1).getD _ = a.2
    cases hlookup : b.problem.initialStateAssignments.lookup a.1 with
    | none =>
      have hne := List.lookup_eq_none_iff.mp hlookup a ha
      simp at hne
    | some v =>
      obtain ⟨l, r, heq, _⟩ := List.lookup_eq_some_iff.mp hlookup
      have hv : (a.1, v) ∈ b.problem.initialStateAssignments := by
        rw [heq]
        simp
      exact hb.assignment_functional hv ha
  · -- an input symbol is no rail, so it keeps the value of the input
    intro i hi n
    obtain ⟨h2, hlt⟩ := hb.lt_of_inputSymbol hi
    have hvalue : lit (ρ n) i.2 = input n i.2 := by
      cases n with
      | zero =>
        rw [lit_of_two_le _ h2]
        show (b.problem.initialStateAssignments.lookup i.2).getD _ = _
        cases hlookup : b.problem.initialStateAssignments.lookup i.2 with
        | none => rfl
        | some v =>
          obtain ⟨l, r, heq, _⟩ := List.lookup_eq_some_iff.mp hlookup
          have hle := hb.le_of_assignment (a := (i.2, v)) (by rw [heq]; simp)
          exact absurd hle (Nat.not_le.mpr hlt)
      | succ n =>
        show lit (b.problem.successor (ρ n) (input (n + 1))) i.2 = _
        rw [KInductionProblem.lit_successor_of_none, lit_of_two_le _ h2]
        cases hv : b.problem.nextStateOf (ρ n) i.2 with
        | none => rfl
        | some v =>
          have hstate := KInductionProblem.mem_combinedStateSymbols_of_nextStateOf hv
          rw [KInductionProblem.combinedStateSymbols, hb.symbols0, hb.symbols1, hb.auxiliary,
            List.append_nil, List.mem_append] at hstate
          rcases hstate with hstate | hstate
          · exact absurd (maps0.le_of_mem hstate) (Nat.not_le.mpr hlt)
          · exact absurd ((Nat.le_add_right _ _).trans (maps1.le_of_mem hstate))
              (Nat.not_le.mpr hlt)
    rw [hvalue]
    exact inputValue_of_mem hsame hi n

end Built
end Tables

/-! ## The abstraction -/

/-- What the lift of an expression says about its values. -/
structure LiftCovers (mapVariable : DualRailVariableMapper) (e : BoolExpr) (v : DualRailBoolExpr)
    (ρ : Valuation) : Prop where
  covers : ∀ σ : Valuation, (∀ s ∈ e.getSupportVars, 2 ≤ s →
    (mapperRails mapVariable ρ s).Covers (σ s)) → (v.rails ρ).Covers (e.eval σ)
  nonempty : (∀ s ∈ e.getSupportVars, 2 ≤ s → (mapperRails mapVariable ρ s).Nonempty) →
    (v.rails ρ).Nonempty
  exact : ∀ σ : Valuation, (∀ s ∈ e.getSupportVars, 2 ≤ s →
    mapperRails mapVariable ρ s = .known (σ s)) → v.rails ρ = .known (e.eval σ)

theorem Lifts.liftCovers {mapVariable : DualRailVariableMapper} {e : BoolExpr}
    {v : DualRailBoolExpr} (h : Lifts mapVariable e v) (ρ : Valuation) :
    LiftCovers mapVariable e v ρ where
  covers σ hleaf := by
    rw [h.rails]
    exact covers_evalRails hleaf
  nonempty hleaf := by
    rw [h.rails]
    exact nonempty_evalRails hleaf
  exact σ hleaf := by
    rw [h.rails]
    exact known_evalRails hleaf

/-- What a built problem says about two designs that run under the same inputs. -/
structure Abstracts [DecidableEq κ] (model0 model1 : SequentialDesignModel κ)
    (alignedInputs alignedOutputs : AlignedSignals κ) (b : DualRailSecProblem κ)
    (v0 v1 : Trace) : Prop where
  /-- some run of the rails has these inputs -/
  simulates : ∃ ρ, RailRun b.problem ρ ∧ CarriesInputs model0 model1 alignedInputs v0 v1 ρ
  /-- every such run covers all state bits of both designs -/
  states : ∀ ρ, RailRun b.problem ρ → CarriesInputs model0 model1 alignedInputs v0 v1 ρ → ∀ n,
    CoversStates model0 b.states0 (ρ n) (v0 n) ∧ CoversStates model1 b.states1 (ρ n) (v1 n)
  /-- the rail pairs of an output cover its two values -/
  outputs : ∀ ρ, RailRun b.problem ρ → CarriesInputs model0 model1 alignedInputs v0 v1 ρ →
    ∀ (n i : Nat) (keys : κ × κ), alignedOutputs[i]? = some keys →
    ∃ (out : DualRailBoolExpr × DualRailBoolExpr) (e0 e1 : BoolExpr), b.outputs[i]? = some out ∧
      model0.observedOutputExprByKey.lookup keys.1 = some e0 ∧
      model1.observedOutputExprByKey.lookup keys.2 = some e1 ∧
      (out.1.rails (ρ n)).Covers (e0.eval (v0 n)) ∧ (out.2.rails (ρ n)).Covers (e1.eval (v1 n))
  /-- an output that is safe in all reachable rail states is equal where both pairs are known -/
  equal : ∀ (i : Nat) (out : DualRailBoolExpr × DualRailBoolExpr) (guarded : BoolExpr),
    b.outputs[i]? = some out →
    b.problem.observedOutputExprs0[i]? = some guarded →
    (∀ σ, RailReachable b.problem σ → guarded.eval σ = true) →
    ∀ (keys : κ × κ) (e0 e1 : BoolExpr), alignedOutputs[i]? = some keys →
      model0.observedOutputExprByKey.lookup keys.1 = some e0 →
      model1.observedOutputExprByKey.lookup keys.2 = some e1 →
    ∀ ρ, RailRun b.problem ρ → CarriesInputs model0 model1 alignedInputs v0 v1 ρ → ∀ n,
      (out.1.rails (ρ n)).Binary → (out.2.rails (ρ n)).Binary → e0.eval (v0 n) = e1.eval (v1 n)

theorem BuiltFrom.abstracts [DecidableEq κ] {model0 model1 : SequentialDesignModel κ}
    {alignedInputs alignedOutputs : AlignedSignals κ} {b : DualRailSecProblem κ} {first : Nat}
    {maps0 : DualRailStateSymbolMaps model0 first}
    {maps1 : DualRailStateSymbolMaps model1 (first + 2 * model0.stateBits.length)}
    (hb : BuiltFrom model0 model1 alignedInputs alignedOutputs b first maps0 maps1) {v0 v1 : Trace}
    (h0 : DesignRun model0 v0) (h1 : DesignRun model1 v1)
    (hsame : SameInputs model0 model1 alignedInputs v0 v1) :
    Abstracts model0 model1 alignedInputs alignedOutputs b v0 v1 := by
  have hcovers : ∀ ρ, RailRun b.problem ρ → CarriesInputs model0 model1 alignedInputs v0 v1 ρ →
      ∀ (n i : Nat) (keys : κ × κ), alignedOutputs[i]? = some keys →
      ∃ (out : DualRailBoolExpr × DualRailBoolExpr) (e0 e1 : BoolExpr), b.outputs[i]? = some out ∧
        model0.observedOutputExprByKey.lookup keys.1 = some e0 ∧
        model1.observedOutputExprByKey.lookup keys.2 = some e1 ∧
        (out.1.rails (ρ n)).Covers (e0.eval (v0 n)) ∧
        (out.2.rails (ρ n)).Covers (e1.eval (v1 n)) := by
    intro ρ hρ hinputs n i keys hkeys
    obtain ⟨hlength, hget⟩ := List.forall₂_iff_get.mp hb.outputs
    obtain ⟨hi, rfl⟩ := List.getElem?_eq_some_iff.mp hkeys
    obtain ⟨e0, e1, he0, he1, hlift0, hlift1⟩ := hget i hi (hlength ▸ hi)
    have hstates := hρ.coversStates hb h0 h1 hinputs n
    exact ⟨_, e0, e1, List.getElem?_eq_getElem _, he0, he1, covers_lift0 hb hstates.1 hinputs hlift0,
      covers_lift1 hb hstates.2 hinputs hlift1⟩
  refine ⟨exists_railRun hb hsame, fun ρ hρ hinputs n => ?_, hcovers, ?_⟩
  · rw [hb.states0, hb.states1]
    exact hρ.coversStates hb h0 h1 hinputs n
  · intro i out guarded hout hguarded hsafe keys e0 e1 hkeys he0 he1 ρ hρ hinputs n hb0 hb1
    obtain ⟨out', e0', e1', hout', he0', he1', hc0, hc1⟩ := hcovers ρ hρ hinputs n i keys hkeys
    rw [hout] at hout'
    rw [he0] at he0'
    rw [he1] at he1'
    cases hout'
    cases he0'
    cases he1'
    rw [hb.exprs, List.getElem?_map, hout, Option.map_some] at hguarded
    cases hguarded
    exact eq_of_guardedEquality (hsafe _ ⟨ρ, n, hρ, rfl⟩) hc0 hc1 hb0 hb1

/-- The dual-rail abstraction is sound: the lift of every expression, in any order with one
table, and every pair of designs. -/
theorem dualRail_abstraction_sound :
    (∀ (mapVariable : DualRailVariableMapper) (roots : List BoolExpr)
      (outs : List DualRailBoolExpr) (memo : DualRailMemo),
      buildDualRailBoolExprs mapVariable roots [] = .ok (outs, memo) →
      List.Forall₂ (fun root out => ∀ ρ, LiftCovers mapVariable root out ρ) roots outs) ∧
    (∀ (κ : Type) [DecidableEq κ] (model0 model1 : SequentialDesignModel κ)
      (alignedInputs alignedOutputs : AlignedSignals κ) (isLazy : Bool) (b : DualRailSecProblem κ),
      buildDualRailSecProblem model0 model1 alignedInputs alignedOutputs isLazy = .ok b →
      ∀ v0 v1, DesignRun model0 v0 → DesignRun model1 v1 →
        SameInputs model0 model1 alignedInputs v0 v1 →
        Abstracts model0 model1 alignedInputs alignedOutputs b v0 v1) := by
  refine ⟨fun mapVariable roots outs memo h => ?_, fun κ _ model0 model1 alignedInputs
    alignedOutputs isLazy b h v0 v1 h0 h1 hsame => ?_⟩
  · have hlifts := (buildDualRailBoolExprs_lifts (DualRailMemo.valid_nil _) h).1
    exact hlifts.imp fun _ _ hlift ρ => hlift.liftCovers ρ
  · obtain ⟨first, maps0, maps1, hb⟩ := buildDualRailSecProblem_spec h
    exact hb.abstracts h0 h1 hsame

/-- A register (key 0, variable 2) without a boot value that takes the input (key 1,
variable 3); the output (key 2) is the register. -/
def delayModel : SequentialDesignModel Nat where
  stateBits := [0]
  inputVarByKey := [(0, 2), (1, 3)]
  observedOutputExprByKey := [(2, .var 2)]
  nextStateExprByStateKey := [(0, .var 3)]
  initialStateValueByKey := []
  complementedStateRelations := []
  inputVar_nodup := by decide

/-- The input is one in every frame, and the register starts at `boot`. -/
def delayTrace (boot : Bool) : Trace := fun n s => if s = 2 ∧ n = 0 then boot else true

theorem delayTrace_run (boot : Bool) : DesignRun delayModel (delayTrace boot) := by
  refine ⟨fun key _ x _ b hb => ?_, fun n key hkey x hx e he => ?_⟩
  · cases hb
  obtain rfl : key = 0 := by simpa [delayModel] using hkey
  cases hx
  cases he
  rfl

/-- The delay against itself, from opposite values of the register. -/
theorem dualRail_abstraction_sound_delay : ∃ b,
    buildDualRailSecProblem delayModel delayModel [(1, 1)] [(2, 2)] false = .ok b ∧
      Abstracts delayModel delayModel [(1, 1)] [(2, 2)] b (delayTrace false) (delayTrace true) := by
  refine ⟨_, rfl, dualRail_abstraction_sound.2 Nat delayModel delayModel _ _ false _ rfl _ _
    (delayTrace_run false) (delayTrace_run true) fun keys hkeys x0 x1 h0 h1 n => ?_⟩
  obtain rfl : keys = (1, 1) := by simpa using hkeys
  cases h0
  cases h1
  rfl

end KeplerFormal
