import KeplerFormal.L1Formula.DualRailEncoding
import KeplerFormal.L2Problem.System

/-!
# The dual-rail problem of two designs (`src/sec/strategy/SequentialEquivalenceStrategy.cpp`)

Every state bit of the two designs gets two symbols, a boot value that is unknown unless
the design has one, and the lift of its next-state expression; an observed output gets the
property that its two lifted values are never opposite binary values.

* `SequentialDesignModel`, `SharedSecSymbolSpace`: what extraction delivers, and the symbols
  that both designs share.
* `buildDualRailSecProblem`: the problem, with eager or lazy transitions.
* `DesignRun`, `RailRun`: the runs of a design, and of the rails from the boot state.
-/
namespace KeplerFormal

open Core

variable {κ α : Type}

/-- What the dual-rail problem reads of an extracted design. The maps are lists of entries
of which the first of a key counts.
mirrors src/sec/model/SequentialDesignModel.h:43-76 -/
structure SequentialDesignModel (κ : Type) where
  stateBits : List κ
  inputVarByKey : List (κ × Nat)
  observedOutputExprByKey : List (κ × BoolExpr)
  nextStateExprByStateKey : List (κ × BoolExpr)
  initialStateValueByKey : List (κ × Bool)
  /-- the primary and the complemented key -/
  complementedStateRelations : List (κ × κ)
  /-- one variable a key -/
  inputVar_nodup : (inputVarByKey.map Prod.fst).Nodup

/-- The keys of one signal in the two designs. -/
abbrev AlignedSignals (κ : Type) := List (κ × κ)

/-- `std::unordered_map::at`. -/
def lookupAt [BEq κ] (entries : List (κ × α)) (key : κ) : Except String α :=
  match entries.lookup key with
  | some value => .ok value
  | none => .error "unordered_map::at"

/-! ## Shared symbols -/

/-- mirrors src/sec/strategy/SequentialEquivalenceStrategy.cpp:388-396 -/
structure SharedSecSymbolSpace where
  inputSymbols : List Nat
  allSymbols : List Nat
  localToCombined0 : List (Nat × Nat)
  localToCombined1 : List (Nat × Nat)
  deriving DecidableEq, Repr

section Build
variable [DecidableEq κ]

/-- mirrors src/sec/strategy/SequentialEquivalenceStrategy.cpp:3580-3598 -/
def buildLocalToCombinedMap (model : SequentialDesignModel κ)
    (inputSymbols stateSymbols : List (κ × Nat)) : List (Nat × Nat) :=
  model.inputVarByKey.filterMap fun entry =>
    match inputSymbols.lookup entry.1 with
    | some symbol => some (entry.2, symbol)
    | none => (stateSymbols.lookup entry.1).map fun symbol => (entry.2, symbol)

/-- The aligned inputs with their symbols. -/
def inputSymbolsFrom (model0 model1 : SequentialDesignModel κ) (alignedInputs : AlignedSignals κ) :
    List ((κ × κ) × Nat) :=
  alignedInputs.zipIdx (2 + model0.stateBits.length + model1.stateBits.length)

/-- mirrors src/sec/strategy/SequentialEquivalenceStrategy.cpp:2241-2302, 3568-3578 -/
def buildSharedSecSymbolSpace (model0 model1 : SequentialDesignModel κ)
    (alignedInputs : AlignedSignals κ) : SharedSecSymbolSpace :=
  let state0Symbols := model0.stateBits.zipIdx 2
  let state1Symbols := model1.stateBits.zipIdx (2 + model0.stateBits.length)
  let inputs := inputSymbolsFrom model0 model1 alignedInputs
  { inputSymbols := inputs.map (·.2)
    allSymbols := state0Symbols.map (·.2) ++ state1Symbols.map (·.2) ++ inputs.map (·.2)
    localToCombined0 :=
      buildLocalToCombinedMap model0 (inputs.map fun i => (i.1.1, i.2)) state0Symbols
    localToCombined1 :=
      buildLocalToCombinedMap model1 (inputs.map fun i => (i.1.2, i.2)) state1Symbols }

omit [DecidableEq κ] in
/-- mirrors src/sec/strategy/SequentialEquivalenceStrategy.cpp:2304-2310 -/
def nextUnusedProofSymbol (allSymbols : List Nat) : Nat :=
  allSymbols.foldl (fun nextSymbol symbol => max nextSymbol (symbol + 1)) 2

/-! ## Rails of the states -/

/-- One entry of `state0ByKey`, `localState0BySymbol` and `dualRailStatePairs`. -/
structure RailState (κ : Type) where
  key : κ
  localSymbol : Nat
  rails : DualRailSymbolPair
  deriving DecidableEq, Repr

/-- mirrors src/sec/strategy/SequentialEquivalenceStrategy.cpp:2481-2488, 2560-2592 -/
def allocateDualRailStates (model : SequentialDesignModel κ) :
    List κ → Nat → Except String (List (RailState κ))
  | [], _ => .ok []
  | key :: keys, nextSymbol => do
    let localSymbol ← lookupAt model.inputVarByKey key
    let states ← allocateDualRailStates model keys (nextSymbol + 2)
    return ⟨key, localSymbol, nextSymbol, nextSymbol + 1⟩ :: states

def railsByKey (states : List (RailState κ)) (key : κ) : Option DualRailSymbolPair :=
  (states.find? fun st => st.key == key).map (·.rails)

omit [DecidableEq κ] in
def railsByLocalSymbol (states : List (RailState κ)) (symbol : Nat) : Option DualRailSymbolPair :=
  (states.find? fun st => st.localSymbol == symbol).map (·.rails)

omit [DecidableEq κ] in
def railSymbols (states : List (RailState κ)) : List Nat :=
  states.flatMap fun st => [st.rails.mayBeOne, st.rails.mayBeZero]

/-- What the two rails of a key get, for every key of the list. -/
def railEntries (states : List (RailState κ)) (entries : List (κ × α × α)) : List (Nat × α) :=
  entries.flatMap fun entry =>
    match railsByKey states entry.1 with
    | some rails => [(rails.mayBeOne, entry.2.1), (rails.mayBeZero, entry.2.2)]
    | none => []

/-- mirrors src/sec/strategy/SequentialEquivalenceStrategy.cpp:2490-2505 -/
def dualRailStateAssignment : Option Bool → Bool × Bool
  | some value => (value, !value)
  | none => (true, true)

/-- mirrors src/sec/strategy/SequentialEquivalenceStrategy.cpp:2517-2527 -/
def dualRailInitialAssignments (model : SequentialDesignModel κ) (states : List (RailState κ)) :
    List (Nat × Bool) :=
  railEntries states (model.stateBits.map fun key =>
    (key, dualRailStateAssignment (model.initialStateValueByKey.lookup key)))

/-- mirrors src/sec/strategy/SequentialEquivalenceStrategy.cpp:2542-2558 -/
def dualRailComplementStateEqualities (model : SequentialDesignModel κ)
    (states : List (RailState κ)) : List (Nat × Nat) :=
  model.complementedStateRelations.flatMap fun relation =>
    match railsByKey states relation.1, railsByKey states relation.2 with
    | some primary, some complemented =>
      [(complemented.mayBeOne, primary.mayBeZero), (complemented.mayBeZero, primary.mayBeOne)]
    | _, _ => []

/-! ## Lifted expressions -/

omit [DecidableEq κ] in
/-- The mapper of a design; `unpublished` is its message for a symbol without a meaning.
mirrors src/sec/strategy/SequentialEquivalenceStrategy.cpp:507-552,
src/sec/proof/TransitionExprResolver.cpp:26-62, 201-218 -/
def dualRailVariableMapper (unpublished : String) (states : List (RailState κ))
    (binarySymbolMap : List (Nat × Nat)) : DualRailVariableMapper := fun symbol =>
  match railsByLocalSymbol states symbol with
  | some rails => .ok ⟨.var rails.mayBeOne, .var rails.mayBeZero⟩
  | none =>
    if symbol < 2 then
      .ok (if symbol = 1 then ⟨.createTrue, .createFalse⟩ else ⟨.createFalse, .createTrue⟩)
    else match binarySymbolMap.lookup symbol with
      | some mapped => .ok ⟨.var mapped, .Not (.var mapped)⟩
      | none => .error (unpublished ++ toString symbol)

omit [DecidableEq κ] in
def secDualRailVariableMapper (states : List (RailState κ)) (binarySymbolMap : List (Nat × Nat)) :
    DualRailVariableMapper :=
  dualRailVariableMapper "SEC formula contains unpublished internal support v" states
    binarySymbolMap

omit [DecidableEq κ] in
def lazyDualRailVariableMapper (designIndex : Nat) (states : List (RailState κ))
    (binarySymbolMap : List (Nat × Nat)) : DualRailVariableMapper :=
  dualRailVariableMapper
    ("SEC lazy transition for design" ++ toString designIndex ++
      " contains unpublished internal support v") states binarySymbolMap

/-- mirrors src/sec/strategy/SequentialEquivalenceStrategy.cpp:2626-2631 -/
def buildDualRailBinaryDefinedExpr (value : DualRailBoolExpr) : BoolExpr :=
  (BoolExpr.Xor value.mayBeOne value.mayBeZero).simplify

/-- mirrors src/sec/strategy/SequentialEquivalenceStrategy.cpp:2638-2657 (`guardedEquality`) -/
def dualRailGuardedEquality (value0 value1 : DualRailBoolExpr) : BoolExpr :=
  let bothValuesDefined := (BoolExpr.And (buildDualRailBinaryDefinedExpr value0)
    (buildDualRailBinaryDefinedExpr value1)).simplify
  let binaryMismatch := BoolExpr.And bothValuesDefined
    (BoolExpr.Xor value0.mayBeOne value1.mayBeOne)
  (BoolExpr.Not binaryMismatch).simplify

/-- Both lifts of every output, with one table for each design.
mirrors src/sec/strategy/SequentialEquivalenceStrategy.cpp:2890-2935 -/
def buildDualRailOutputs (model0 model1 : SequentialDesignModel κ)
    (mapper0 mapper1 : DualRailVariableMapper) :
    AlignedSignals κ → DualRailMemo → DualRailMemo →
      Except String (List (DualRailBoolExpr × DualRailBoolExpr) × DualRailMemo × DualRailMemo)
  | [], memo0, memo1 => .ok ([], memo0, memo1)
  | (key0, key1) :: outputs, memo0, memo1 => do
    let expr0 ← lookupAt model0.observedOutputExprByKey key0
    let (out0, memo0) ← buildDualRailBoolExpr mapper0 expr0 memo0
    let expr1 ← lookupAt model1.observedOutputExprByKey key1
    let (out1, memo1) ← buildDualRailBoolExpr mapper1 expr1 memo1
    let (outs, memos) ← buildDualRailOutputs model0 model1 mapper0 mapper1 outputs memo0 memo1
    return ((out0, out1) :: outs, memos)

/-- The eager transitions of a design: the two rails of every state bit.
mirrors src/sec/strategy/SequentialEquivalenceStrategy.cpp:2944-2962 -/
def eagerDualRailTransitions (model : SequentialDesignModel κ) (mapper : DualRailVariableMapper) :
    List κ → DualRailMemo → Except String (List (κ × BoolExpr × BoolExpr))
  | [], _ => .ok []
  | key :: keys, memo => do
    let expr ← lookupAt model.nextStateExprByStateKey key
    let (next, memo) ← buildDualRailBoolExpr mapper expr memo
    let rest ← eagerDualRailTransitions model mapper keys memo
    return (key, next.mayBeOne, next.mayBeZero) :: rest

omit [DecidableEq κ] in
/-- Both rails of every state that the source reads, and the symbols of its inputs.
mirrors src/sec/proof/TransitionExprResolver.cpp:234-260 -/
def remappedDualRailSupport (states : List (RailState κ)) (binaryMap : List (Nat × Nat))
    (formula : BoolExpr) : Finset Nat :=
  formula.getSupportVars.biUnion fun symbol =>
    match railsByLocalSymbol states symbol with
    | some rails => {rails.mayBeOne, rails.mayBeZero}
    | none => match binaryMap.lookup symbol with
      | some mapped => {mapped}
      | none => ∅

/-! ## Facts about the parts -/

theorem mem_of_railsByKey {states : List (RailState κ)} {key : κ} {rails : DualRailSymbolPair}
    (h : railsByKey states key = some rails) :
    ∃ st ∈ states, st.key = key ∧ st.rails = rails := by
  obtain ⟨st, hfind, rfl⟩ := Option.map_eq_some_iff.mp h
  exact ⟨st, List.mem_of_find?_eq_some hfind, by simpa using List.find?_some hfind, rfl⟩

omit [DecidableEq κ] in
theorem mem_railSymbols {states : List (RailState κ)} {st : RailState κ} (h : st ∈ states) :
    st.rails.mayBeOne ∈ railSymbols states ∧ st.rails.mayBeZero ∈ railSymbols states :=
  ⟨List.mem_flatMap.mpr ⟨st, h, by simp⟩, List.mem_flatMap.mpr ⟨st, h, by simp⟩⟩

theorem mem_railSymbols_of_railEntries {states : List (RailState κ)} {entries : List (κ × α × α)}
    {s : Nat} (h : s ∈ (railEntries states entries).map Prod.fst) : s ∈ railSymbols states := by
  obtain ⟨pair, hpair, rfl⟩ := List.mem_map.mp h
  obtain ⟨entry, _, hentry⟩ := List.mem_flatMap.mp hpair
  split at hentry
  · rename_i rails hrails
    obtain ⟨st, hst, _, rfl⟩ := mem_of_railsByKey hrails
    obtain ⟨hone, hzero⟩ := mem_railSymbols hst
    simp only [List.mem_cons, List.not_mem_nil, or_false] at hentry
    rcases hentry with rfl | rfl
    · exact hone
    · exact hzero
  · cases hentry

omit [DecidableEq κ] in
/-- A lift reads rails of states that its source reads, and symbols of its inputs. -/
theorem Lifts.mem_remappedDualRailSupport {unpublished : String} {states : List (RailState κ)}
    {binaryMap : List (Nat × Nat)} {e : BoolExpr} {v : DualRailBoolExpr}
    (h : Lifts (dualRailVariableMapper unpublished states binaryMap) e v) {x : Nat}
    (hx : x ∈ v.supportVars) (h2 : 2 ≤ x) : x ∈ remappedDualRailSupport states binaryMap e := by
  obtain ⟨s, hs, hs2, w, hw, hxw⟩ := h.support x hx h2
  refine Finset.mem_biUnion.mpr ⟨s, hs, ?_⟩
  unfold dualRailVariableMapper at hw
  split at hw
  · rename_i rails hrails
    cases hw
    simpa [DualRailBoolExpr.supportVars, BoolExpr.getSupportVars] using hxw
  · rename_i hrails
    rw [if_neg (by omega)] at hw
    split at hw
    · rename_i mapped hmapped
      cases hw
      rcases Finset.mem_union.mp hxw with hvar | hnot
      · exact hvar
      · exact BoolExpr.mem_support_Not hnot h2
    · cases hw

/-! ## The problem -/

/-- Both rails of a lazy transition. The table that the lazy lifts of a design share only
saves work (`buildDualRailBoolExpr_lifts`), so each starts with an empty one.
mirrors src/sec/proof/TransitionExprResolver.cpp:277-303 -/
def materializeLazyDualRailTransition (designIndex : Nat) (states : List (RailState κ))
    (binaryMap : List (Nat × Nat)) (expr : BoolExpr) :
    Except String (LazyTransition × LazyTransition) :=
  match h : buildDualRailBoolExpr (lazyDualRailVariableMapper designIndex states binaryMap) expr
      [] with
  | .error message => .error message
  | .ok (v, _) =>
    let lifts := (buildDualRailBoolExpr_lifts (DualRailMemo.valid_nil _) h).1
    .ok (⟨v.mayBeOne, remappedDualRailSupport states binaryMap expr, fun _ hs h2 =>
        lifts.mem_remappedDualRailSupport (Finset.mem_union_left _ hs) h2⟩,
      ⟨v.mayBeZero, remappedDualRailSupport states binaryMap expr, fun _ hs h2 =>
        lifts.mem_remappedDualRailSupport (Finset.mem_union_right _ hs) h2⟩)

/-- mirrors src/sec/strategy/SequentialEquivalenceStrategy.cpp:2594-2624 -/
def lazyDualRailTransitions (designIndex : Nat) (model : SequentialDesignModel κ)
    (states : List (RailState κ)) (binaryMap : List (Nat × Nat)) :
    List κ → Except String (List (κ × LazyTransition × LazyTransition))
  | [] => .ok []
  | key :: keys => do
    let expr ← lookupAt model.nextStateExprByStateKey key
    let next ← materializeLazyDualRailTransition designIndex states binaryMap expr
    let rest ← lazyDualRailTransitions designIndex model states binaryMap keys
    return (key, next) :: rest

/-- The transitions of both designs: eager lists, or a lazy store. -/
structure DualRailTransitions (symbols : List Nat) where
  transitions0 : List (Nat × BoolExpr) := []
  transitions1 : List (Nat × BoolExpr) := []
  lazyTransitions : Option LazyTransitionStore := none
  states : ∀ s ∈ (transitions0 ++ transitions1).map Prod.fst ++
    (lazyTransitions.getD []).map Prod.fst, s ∈ symbols

/-- mirrors src/sec/strategy/SequentialEquivalenceStrategy.cpp:2937-2962 -/
def buildDualRailTransitions (model0 model1 : SequentialDesignModel κ)
    (states0 states1 : List (RailState κ)) (symbolSpace : SharedSecSymbolSpace)
    (useLazyTransitionRemapping : Bool) (memo0 memo1 : DualRailMemo) :
    Except String (DualRailTransitions (railSymbols states0 ++ railSymbols states1)) := do
  if useLazyTransitionRemapping then
    let next0 ← lazyDualRailTransitions 0 model0 states0 symbolSpace.localToCombined0
      model0.stateBits
    let next1 ← lazyDualRailTransitions 1 model1 states1 symbolSpace.localToCombined1
      model1.stateBits
    return { lazyTransitions := some (railEntries states0 next0 ++ railEntries states1 next1)
             states := fun s hs => by
              simp only [List.append_nil, List.map_nil, List.nil_append, Option.getD_some,
                List.map_append, List.mem_append] at hs ⊢
              exact hs.imp mem_railSymbols_of_railEntries mem_railSymbols_of_railEntries }
  else
    let next0 ← eagerDualRailTransitions model0
      (secDualRailVariableMapper states0 symbolSpace.localToCombined0) model0.stateBits memo0
    let next1 ← eagerDualRailTransitions model1
      (secDualRailVariableMapper states1 symbolSpace.localToCombined1) model1.stateBits memo1
    return { transitions0 := railEntries states0 next0
             transitions1 := railEntries states1 next1
             states := fun s hs => by
              simp only [Option.getD_none, List.map_nil, List.append_nil, List.map_append,
                List.mem_append] at hs ⊢
              exact hs.imp mem_railSymbols_of_railEntries mem_railSymbols_of_railEntries }

omit [DecidableEq κ] in
/-- Rails are numbered two by two from `nextSymbol` on. -/
def RailsFrom (nextSymbol : Nat) (states : List (RailState κ)) : Prop :=
  ∀ (i : Nat) (st : RailState κ), states[i]? = some st → st.rails = ⟨nextSymbol + 2 * i, nextSymbol + 2 * i + 1⟩

theorem allocateDualRailStates_spec {model : SequentialDesignModel κ} {keys : List κ}
    {nextSymbol : Nat} {states : List (RailState κ)}
    (h : allocateDualRailStates model keys nextSymbol = .ok states) :
    RailsFrom nextSymbol states ∧ states.map (·.key) = keys ∧
      ∀ st ∈ states, model.inputVarByKey.lookup st.key = some st.localSymbol := by
  induction keys generalizing nextSymbol states with
  | nil =>
    cases h
    exact ⟨fun i st hst => by simp at hst, rfl, fun st hst => by cases hst⟩
  | cons key keys ih =>
    obtain ⟨localSymbol, hlocal, h⟩ := Except.of_bind_ok h
    obtain ⟨rest, hrest, h⟩ := Except.of_bind_ok h
    cases h
    obtain ⟨hrails, hkeys, hsymbols⟩ := ih hrest
    refine ⟨fun i st hst => ?_, by simp [hkeys], fun st hst => ?_⟩
    · cases i with
      | zero =>
        cases hst
        rfl
      | succ i =>
        rw [hrails i st hst]
        exact congrArg₂ _ (by omega) (by omega)
    · cases hst with
      | head =>
        unfold lookupAt at hlocal
        split at hlocal
        · rename_i value hvalue
          cases hlocal
          exact hvalue
        · cases hlocal
      | tail _ hst => exact hsymbols st hst

omit [DecidableEq κ] in
theorem RailsFrom.bounds {nextSymbol : Nat} {states : List (RailState κ)}
    (h : RailsFrom nextSymbol states) {s : Nat} (hs : s ∈ railSymbols states) :
    nextSymbol ≤ s ∧ s < nextSymbol + 2 * states.length := by
  obtain ⟨st, hst, hmem⟩ := List.mem_flatMap.mp hs
  obtain ⟨i, hi, rfl⟩ := List.mem_iff_getElem.mp hst
  rw [h i _ (List.getElem?_eq_getElem hi)] at hmem
  simp only [List.mem_cons, List.not_mem_nil, or_false] at hmem
  omega

omit [DecidableEq κ] in
/-- A symbol that both states use makes them the same state. -/
theorem RailsFrom.eq_of_shared {nextSymbol : Nat} {states : List (RailState κ)}
    (h : RailsFrom nextSymbol states) {st st' : RailState κ} (hst : st ∈ states)
    (hst' : st' ∈ states) {s : Nat} (hs : s ∈ [st.rails.mayBeOne, st.rails.mayBeZero])
    (hs' : s ∈ [st'.rails.mayBeOne, st'.rails.mayBeZero]) : st = st' := by
  obtain ⟨i, hi, rfl⟩ := List.mem_iff_getElem.mp hst
  obtain ⟨j, hj, rfl⟩ := List.mem_iff_getElem.mp hst'
  rw [h i _ (List.getElem?_eq_getElem hi)] at hs
  rw [h j _ (List.getElem?_eq_getElem hj)] at hs'
  simp only [List.mem_cons, List.not_mem_nil, or_false] at hs hs'
  obtain rfl : i = j := by omega
  rfl

theorem nextUnusedProofSymbol_spec (allSymbols : List Nat) :
    2 ≤ nextUnusedProofSymbol allSymbols ∧
      ∀ s ∈ allSymbols, s < nextUnusedProofSymbol allSymbols := by
  have hfold : ∀ (symbols : List Nat) (n : Nat),
      n ≤ symbols.foldl (fun nextSymbol symbol => max nextSymbol (symbol + 1)) n ∧
        ∀ s ∈ symbols, s < symbols.foldl (fun nextSymbol symbol => max nextSymbol (symbol + 1)) n := by
    intro symbols
    induction symbols with
    | nil => exact fun n => ⟨Nat.le_refl n, fun s hs => by cases hs⟩
    | cons x symbols ih =>
      intro n
      obtain ⟨hle, hlt⟩ := ih (max n (x + 1))
      refine ⟨(Nat.le_max_left _ _).trans hle, fun s hs => ?_⟩
      cases hs with
      | head => exact (Nat.le_max_right n (x + 1)).trans hle
      | tail _ hs => exact hlt s hs
  exact hfold allSymbols 2

/-- The rails of a design's states, numbered from `nextSymbol` on.
mirrors src/sec/strategy/SequentialEquivalenceStrategy.cpp:403-410 -/
structure DualRailStateSymbolMaps (model : SequentialDesignModel κ) (nextSymbol : Nat) where
  states : List (RailState κ)
  numbered : RailsFrom nextSymbol states
  keys : states.map (·.key) = model.stateBits
  localSymbols : ∀ st ∈ states, model.inputVarByKey.lookup st.key = some st.localSymbol

def allocateDualRailStateMaps (model : SequentialDesignModel κ) (nextSymbol : Nat) :
    Except String (DualRailStateSymbolMaps model nextSymbol) :=
  match h : allocateDualRailStates model model.stateBits nextSymbol with
  | .error message => .error message
  | .ok states =>
    let spec := allocateDualRailStates_spec h
    .ok ⟨states, spec.1, spec.2.1, spec.2.2⟩

omit [DecidableEq κ] in
theorem DualRailStateSymbolMaps.le_of_mem [DecidableEq κ] {model : SequentialDesignModel κ}
    {nextSymbol : Nat} (maps : DualRailStateSymbolMaps model nextSymbol) {s : Nat}
    (hs : s ∈ railSymbols maps.states) : nextSymbol ≤ s := (maps.numbered.bounds hs).1

/-- The problem, and the maps and lifted outputs that it is built from. -/
structure DualRailSecProblem (κ : Type) where
  symbolSpace : SharedSecSymbolSpace
  states0 : List (RailState κ)
  states1 : List (RailState κ)
  outputs : List (DualRailBoolExpr × DualRailBoolExpr)
  problem : KInductionProblem

/-- mirrors src/sec/strategy/SequentialEquivalenceStrategy.cpp:2842-2992 -/
def buildDualRailSecProblem (model0 model1 : SequentialDesignModel κ)
    (alignedInputs alignedOutputs : AlignedSignals κ) (useLazyTransitionRemapping : Bool) :
    Except String (DualRailSecProblem κ) := do
  let symbolSpace := buildSharedSecSymbolSpace model0 model1 alignedInputs
  let nextSymbol := nextUnusedProofSymbol symbolSpace.allSymbols
  let maps0 ← allocateDualRailStateMaps model0 nextSymbol
  let maps1 ← allocateDualRailStateMaps model1 (nextSymbol + 2 * model0.stateBits.length)
  let (outputs, memo0, memo1) ← buildDualRailOutputs model0 model1
    (secDualRailVariableMapper maps0.states symbolSpace.localToCombined0)
    (secDualRailVariableMapper maps1.states symbolSpace.localToCombined1) alignedOutputs [] []
  let transitions ← buildDualRailTransitions model0 model1 maps0.states maps1.states symbolSpace
    useLazyTransitionRemapping memo0 memo1
  let guardedEqualities := outputs.map fun o => dualRailGuardedEquality o.1 o.2
  let property := guardedEqualities.foldl .And .createTrue
  let inductionProperty := BoolExpr.And .createTrue property
  let states := maps0.states ++ maps1.states
  return {
    symbolSpace
    states0 := maps0.states
    states1 := maps1.states
    outputs
    problem := {
      initialStateAssignments := dualRailInitialAssignments model0 maps0.states ++
        dualRailInitialAssignments model1 maps1.states
      state0Symbols := railSymbols maps0.states
      state1Symbols := railSymbols maps1.states
      allSymbols := symbolSpace.inputSymbols ++ railSymbols states
      sameFrameStateEqualityPairs0 := dualRailComplementStateEqualities model0 maps0.states
      sameFrameStateEqualityPairs1 := dualRailComplementStateEqualities model1 maps1.states
      dualRailStatePairs := states.map (·.rails)
      observedOutputExprs0 := guardedEqualities
      observedOutputExprs1 := outputs.map fun _ => .createTrue
      dualRailOutputSkipReasons := outputs.map fun _ => ""
      transitions0 := transitions.transitions0
      transitions1 := transitions.transitions1
      lazyTransitions := transitions.lazyTransitions
      initialCondition := some .createTrue
      initializedStateCount := 2 * model0.stateBits.length + 2 * model1.stateBits.length
      totalStateCount := (railSymbols maps0.states).length + (railSymbols maps1.states).length
      property := property.simplify
      bad := (BoolExpr.Not property.simplify).simplify
      inductionProperty := some inductionProperty.simplify
      inductionBad := some (BoolExpr.Not inductionProperty.simplify).simplify
      usesDualRailStateEncoding := true
      reserved := fun s hs => by
        have h2 := (nextUnusedProofSymbol_spec symbolSpace.allSymbols).1
        rw [List.append_nil, List.mem_append] at hs
        rcases hs with hs | hs
        · exact h2.trans (maps0.le_of_mem hs)
        · exact h2.trans ((Nat.le_add_right _ _).trans (maps1.le_of_mem hs))
      transitions_state := fun s hs => by
        rw [List.append_nil] at hs ⊢
        exact transitions.states s hs
      complements_state := fun s hs => by cases hs
      resets_input := fun s hs => by cases hs } }

end Build

/-! ## Runs -/

section Runs
variable [DecidableEq κ]

/-- Values of the variables of a design, frame by frame: state bits with a boot value
start with it, and every state bit follows its next-state expression. -/
structure DesignRun (model : SequentialDesignModel κ) (v : Trace) : Prop where
  boot : ∀ key ∈ model.stateBits, ∀ x, model.inputVarByKey.lookup key = some x →
    ∀ b, model.initialStateValueByKey.lookup key = some b → v 0 x = b
  step : ∀ n, ∀ key ∈ model.stateBits, ∀ x, model.inputVarByKey.lookup key = some x →
    ∀ e, model.nextStateExprByStateKey.lookup key = some e → v (n + 1) x = e.eval (v n)

/-- The aligned inputs of the two designs carry the same values. -/
def SameInputs (model0 model1 : SequentialDesignModel κ) (alignedInputs : AlignedSignals κ)
    (v0 v1 : Trace) : Prop :=
  ∀ keys ∈ alignedInputs, ∀ x0 x1, model0.inputVarByKey.lookup keys.1 = some x0 →
    model1.inputVarByKey.lookup keys.2 = some x1 → ∀ n, v0 n x0 = v1 n x1

/-- The input symbols of the problem carry the values of the inputs of both designs. -/
def CarriesInputs (model0 model1 : SequentialDesignModel κ) (alignedInputs : AlignedSignals κ)
    (v0 v1 ρ : Trace) : Prop :=
  ∀ input ∈ inputSymbolsFrom model0 model1 alignedInputs, ∀ n,
    (∀ x, model0.inputVarByKey.lookup input.1.1 = some x → lit (ρ n) input.2 = v0 n x) ∧
    (∀ x, model1.inputVarByKey.lookup input.1.2 = some x → lit (ρ n) input.2 = v1 n x)

end Runs

/-- A run of the rails from the boot state, under any inputs. -/
structure RailRun (p : KInductionProblem) (ρ : Trace) : Prop where
  boot : ∀ a ∈ p.initialStateAssignments, lit (ρ 0) a.1 = a.2
  step : ∀ n, p.Advance (ρ n) (ρ (n + 1))

/-- A rail state that some run reaches. -/
def RailReachable (p : KInductionProblem) (σ : Valuation) : Prop :=
  ∃ ρ n, RailRun p ρ ∧ ρ n = σ

end KeplerFormal
