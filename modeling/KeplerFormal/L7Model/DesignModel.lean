import KeplerFormal.L7Model.ClockEvents

/-!
# Extracted designs (`src/sec/model/SequentialDesignModel.h`)

* `ExtractionModel`: the fields of a model that the passes after the transition rebuild use;
  a map by key is a function.
* `WellFormed`: every state bit is listed once and has its own variable.
* `stateKeyOf`: the state bit of a variable.
-/
namespace KeplerFormal

/-- A map by key. -/
abbrev KeyMap (α : Type) := SignalKey → Option α

inductive ConnectivitySkipOrigin where
  | NoDriver
  | MultiDriver
  | LogicalLoop
  | MultiClockDomain
  | OpaqueInternal
  | UnknownConstant
  deriving DecidableEq, Repr

structure ConnectivitySkipInfo where
  origin : ConnectivitySkipOrigin
  detail : String
  deriving DecidableEq

/-- mirrors src/sec/model/SequentialDesignModel.h:47-74 -/
structure ExtractionModel where
  stateBits : List SignalKey
  allObservedOutputs : List SignalKey
  observedOutputs : List SignalKey := []
  skippedStateBits : List SignalKey := []
  skippedObservedOutputs : List SignalKey := []
  inputVarByKey : KeyMap Nat
  displayNameByKey : KeyMap String
  observedOutputExprByKey : KeyMap BoolExpr
  nextStateExprByStateKey : KeyMap BoolExpr
  initialStateValueByKey : KeyMap Bool := fun _ => none
  clockEventByStateKey : KeyMap ClockEvent
  connectivitySkipInfoByKey : KeyMap ConnectivitySkipInfo
  unsupportedReasons : List String := []

namespace ExtractionModel

/-- The state bits are a set, and every one has its own variable. -/
structure WellFormed (m : ExtractionModel) : Prop where
  nodup : m.stateBits.Nodup
  mapped : ∀ key ∈ m.stateBits, ∃ v, m.inputVarByKey key = some v ∧ 2 ≤ v
  distinct : ∀ key ∈ m.stateBits, ∀ key' ∈ m.stateBits,
    m.inputVarByKey key = m.inputVarByKey key' → key = key'

/-- The state of a variable. -/
def stateKeyOf (m : ExtractionModel) (v : Nat) : Option SignalKey :=
  m.stateBits.find? fun key => m.inputVarByKey key = some v

theorem stateKeyOf_eq_some {m : ExtractionModel} (hwf : m.WellFormed) {v : Nat}
    {key : SignalKey} :
    m.stateKeyOf v = some key ↔ key ∈ m.stateBits ∧ m.inputVarByKey key = some v := by
  unfold stateKeyOf
  constructor
  · intro h
    exact ⟨List.mem_of_find?_eq_some h, by simpa using List.find?_some h⟩
  · intro h
    obtain ⟨hmem, hvar⟩ := h
    cases hfind : m.stateBits.find? fun key => m.inputVarByKey key = some v with
    | none =>
      have hnone := List.find?_eq_none.mp hfind key hmem
      simp [hvar] at hnone
    | some key' =>
      have hvar' : m.inputVarByKey key' = some v := by simpa using List.find?_some hfind
      have hsame := hwf.distinct key' (List.mem_of_find?_eq_some hfind) key hmem
        (hvar'.trans hvar.symm)
      rw [hsame]

end ExtractionModel

end KeplerFormal
