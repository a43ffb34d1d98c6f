import KeplerFormal.Core.Fallible
import KeplerFormal.L4Engine.ExactInit
import KeplerFormal.L7Model.ClockEvents

/-!
# Variable numbers of an extraction (`src/sec/model/SequentialDesignModel.cpp`)

A builder numbers its inputs by position, so a build with fewer inputs gives other numbers; its
formulas are renamed to the numbers of the first build. Memory cells get numbers above those
that are published.

* `initVarNames`, `mergeBuilderTermVarIDs`, `buildStableBuilderVarRemap`: the tables.
* `materialize`: one batch; some inputs are left out, for they are rebuilt as logic.
* `assignStructuredMemoryStateVars`: the numbers of the memory cells.
* `extract_spec`: what is reached by any batches.
* `extract_oneMeaning_iff`: every number has one meaning exactly when no unpublished input
  stands where the cells' numbers are.
-/
namespace KeplerFormal

open Core

/-- The numbers of terminals. -/
abbrev VarTable := Nat → Option Nat

/-- What extraction sees of a netlist; `pos` is the clause builder, which makes a formula of a
root over the numbers of its inputs. -/
structure BuilderNetlist where
  termCount : Nat
  constantTable : Nat → Option Bool
  constantIso : Nat → Option Bool
  isConstantInternalOutput : Nat → Bool
  inputKeyByTerm : Nat → Option SignalKey
  pos : VarTable → List Nat → Nat → Option BoolExpr

/-- `BoolExpr.createFalse` and `createTrue` have the numbers 0 and 1. -/
def constantNumber (value : Bool) : Nat := if value then 1 else 0

def VarTable.set (table : VarTable) (termID varID : Nat) : VarTable :=
  Function.update table termID (some varID)

/-- The numbers of a merged table.
mirrors src/sec/model/SequentialDesignModel.cpp:604-620 -/
def mergeBuilderTermVarIDs (dest src : VarTable) : VarTable := fun termID =>
  match dest termID with
  | some varID => some varID
  | none => src termID

/-- mirrors src/sec/model/SequentialDesignModel.cpp:589-598 -/
def appendUniqueTermIDs (dest src : List Nat) : List Nat :=
  src.foldl (fun dest termID => if termID ∈ dest then dest else dest ++ [termID]) dest

/-- The pairs that are stored; of two with the same source the first counts. -/
def remapEntries (termCount : Nat) (source stable : VarTable) : List (Nat × Nat) :=
  (List.range termCount).filterMap fun termID =>
    match source termID, stable termID with
    | some sourceVarID, some stableVarID =>
      if sourceVarID < 2 then none else some (sourceVarID, stableVarID)
    | _, _ => none

/-- mirrors src/sec/model/SequentialDesignModel.cpp:641-663 -/
def buildStableBuilderVarRemap (termCount : Nat) (source stable : VarTable) : Nat → Option Nat :=
  fun varID => (remapEntries termCount source stable).lookup varID

/-- mirrors src/sec/model/SequentialDesignModel.cpp:665-673 -/
def varRemapChangesAnySymbol (termCount : Nat) (source stable : VarTable) : Bool :=
  (remapEntries termCount source stable).any fun entry =>
    (buildStableBuilderVarRemap termCount source stable entry.1).any fun stableVarID =>
      entry.1 ≠ stableVarID

/-- `emplace` of a number. -/
def emplaceVar (vars : List (SignalKey × Nat)) (entry : SignalKey × Nat) :
    List (SignalKey × Nat) :=
  if entry.1 ∈ vars.map Prod.fst then vars else vars ++ [entry]

/-- What extraction knows of numbers. -/
structure Numbering where
  inputs : List Nat
  table : VarTable
  inputVarByKey : List (SignalKey × Nat) := []
  outputExprByTerm : List (Nat × BoolExpr) := []

/-- The roots of a build, and the inputs that it rebuilds as logic. -/
structure Batch where
  roots : List Nat
  nonTopRootsToBuild : List Nat

namespace BuilderNetlist
variable (net : BuilderNetlist)

/-- The number of an input by its position, unless its truth table is constant. -/
def inputNumber (termID position : Nat) : Nat :=
  match net.constantTable termID with
  | some value => constantNumber value
  | none => position + 2

/-- mirrors src/strategies/miter/BuildPrimaryOutputClauses.cpp:794-838 -/
def initVarNames (inputs : List Nat) : VarTable := fun termID =>
  match net.constantIso termID with
  | some value => some (constantNumber value)
  | none =>
    inputs.zipIdx.foldl (fun (table : VarTable) input =>
      table.set input.1 (net.inputNumber input.1 input.2)) (fun _ => none) termID

/-- The number of an input that is published. -/
def publishedVar (table : VarTable) (termID : Nat) : Option (SignalKey × Nat) :=
  if net.isConstantInternalOutput termID then none
  else
    match net.inputKeyByTerm termID, table termID with
    | some key, some varID => if varID < 2 then none else some (key, varID)
    | _, _ => none

/-- mirrors src/sec/model/SequentialDesignModel.cpp:3311-3336 -/
def recordBoundaryInputVars (s : Numbering) : Numbering :=
  { s with inputVarByKey :=
      (s.inputs.filterMap (net.publishedVar s.table)).foldl emplaceVar s.inputVarByKey }

/-- The first build.
mirrors src/sec/model/SequentialDesignModel.cpp:4908-4929 -/
def start (inputs roots : List Nat) : Numbering :=
  net.recordBoundaryInputVars
    { inputs := inputs
      table := net.initVarNames inputs
      outputExprByTerm := roots.filterMap fun root =>
        (net.pos (net.initVarNames inputs) inputs root).map (root, ·) }

/-- The formula of one root, over stable numbers.
mirrors src/sec/model/SequentialDesignModel.cpp:937-955 -/
def stableExpr (source stable : VarTable) (inputs : List Nat) (root : Nat) :
    Except String (Option (Nat × BoolExpr)) :=
  match net.pos source inputs root with
  | none => .ok none
  | some expr =>
    if varRemapChangesAnySymbol net.termCount source stable then do
      let expr ← expr.remapBoolExprVariables (buildStableBuilderVarRemap net.termCount source stable)
      return some (root, expr)
    else .ok (some (root, expr))

/-- One batch.
mirrors src/sec/model/SequentialDesignModel.cpp:829-962 -/
def materialize (s : Numbering) (batch : Batch) : Except String Numbering := do
  let inputs := s.inputs.filter fun termID => termID ∉ batch.nonTopRootsToBuild
  let source := net.initVarNames inputs
  let stable := mergeBuilderTermVarIDs s.table source
  let exprs ← batch.roots.mapM (net.stableExpr source stable inputs)
  return net.recordBoundaryInputVars
    { s with
      inputs := appendUniqueTermIDs s.inputs inputs
      table := mergeBuilderTermVarIDs s.table stable
      outputExprByTerm := exprs.reduceOption ++ s.outputExprByTerm }

/-- mirrors src/sec/model/SequentialDesignModel.cpp:3347-3353 -/
def getNextSyntheticVarID (vars : List (SignalKey × Nat)) : Nat :=
  vars.foldl (fun nextVarID entry => max nextVarID (entry.2 + 1)) 2

/-- mirrors src/sec/model/SequentialDesignModel.cpp:3355-3365 -/
def assignStructuredMemoryStateVars (s : Numbering) (cells : List SignalKey) : Numbering :=
  let nextVarID := getNextSyntheticVarID s.inputVarByKey
  { s with inputVarByKey :=
      (cells.mapIdx fun index cell => (cell, nextVarID + index)).foldl emplaceVar s.inputVarByKey }

/-- The batch of the memories' terminals, if there is one.
mirrors src/sec/model/SequentialDesignModel.cpp:4933-4954 -/
def materializeMemories (s : Numbering) : Option Batch → Except String Numbering
  | some batch => net.materialize s batch
  | none => .ok s

/-- An extraction: the first build, the batch of the memories' terminals if there is one, the
cells, and then any batches.
mirrors src/sec/model/SequentialDesignModel.cpp:4864-5010 -/
def extract (inputs roots : List Nat) (memoryBatch : Option Batch) (cells : List SignalKey)
    (batches : List Batch) : Except String Numbering := do
  let s ← net.materializeMemories (net.start inputs roots) memoryBatch
  batches.foldlM net.materialize (assignStructuredMemoryStateVars s cells)

/-! ## The first table -/

variable {net}

theorem constantNumber_lt (value : Bool) : constantNumber value < 2 := by
  cases value <;> decide

/-- A terminal that no constant drives. -/
def Free (net : BuilderNetlist) (termID : Nat) : Prop :=
  net.constantIso termID = none ∧ net.constantTable termID = none

theorem foldl_set {f : Nat × Nat → Nat} {entries : List (Nat × Nat)}
    (hnodup : (entries.map Prod.fst).Nodup) (table : VarTable) (termID : Nat) :
    (∀ entry ∈ entries, entry.1 = termID →
      entries.foldl (fun (table : VarTable) e => table.set e.1 (f e)) table termID =
        some (f entry)) ∧
    (termID ∉ entries.map Prod.fst →
      entries.foldl (fun (table : VarTable) e => table.set e.1 (f e)) table termID =
        table termID) := by
  induction entries generalizing table with
  | nil => exact ⟨by simp, fun _ => rfl⟩
  | cons entry entries ih =>
    obtain ⟨hnew, hnodup⟩ := List.nodup_cons.mp hnodup
    obtain ⟨hmem, hnot⟩ := ih hnodup (table.set entry.1 (f entry))
    refine ⟨fun e he hsame => ?_, fun hother => ?_⟩
    · rcases List.mem_cons.mp he with rfl | he
      · rw [List.foldl_cons, hnot (hsame ▸ hnew), ← hsame]
        exact Function.update_self _ _ _
      · rw [List.foldl_cons]
        exact hmem e he hsame
    · rw [List.map_cons, List.mem_cons, not_or] at hother
      rw [List.foldl_cons, hnot hother.2]
      exact Function.update_of_ne hother.1 _ _

theorem initVarNames_of_mem {inputs : List Nat} (hnodup : inputs.Nodup) {i termID : Nat}
    (hi : inputs[i]? = some termID) (hiso : net.constantIso termID = none) :
    net.initVarNames inputs termID = some (net.inputNumber termID i) := by
  unfold initVarNames
  rw [hiso]
  exact (foldl_set (f := fun input => net.inputNumber input.1 input.2)
    (by rw [List.zipIdx_map_fst]; exact hnodup) _ termID).1 (termID, i)
    (List.mk_mem_zipIdx_iff_getElem?.mpr hi) rfl

theorem initVarNames_of_notMem {inputs : List Nat} (hnodup : inputs.Nodup) {termID : Nat}
    (hmem : termID ∉ inputs) (hiso : net.constantIso termID = none) :
    net.initVarNames inputs termID = none := by
  unfold initVarNames
  rw [hiso]
  exact (foldl_set (f := fun input => net.inputNumber input.1 input.2)
    (by rw [List.zipIdx_map_fst]; exact hnodup) _ termID).2 (by rw [List.zipIdx_map_fst]; exact hmem)

/-- The numbers from 2 on are the positions of the free inputs. -/
theorem initVarNames_eq_some {inputs : List Nat} (hnodup : inputs.Nodup) {termID n : Nat}
    (h2 : 2 ≤ n) : net.initVarNames inputs termID = some n ↔
      net.Free termID ∧ ∃ i, inputs[i]? = some termID ∧ n = i + 2 := by
  cases hiso : net.constantIso termID with
  | some value =>
    have hconst : net.initVarNames inputs termID = some (constantNumber value) := by
      rw [initVarNames, hiso]
    rw [hconst]
    constructor
    · intro h
      have := constantNumber_lt value
      rw [Option.some.inj h] at this
      omega
    · intro h
      rw [h.1.1] at hiso
      cases hiso
  | none =>
    by_cases hmem : termID ∈ inputs
    · obtain ⟨i, hi⟩ := List.mem_iff_getElem?.mp hmem
      rw [initVarNames_of_mem hnodup hi hiso, Option.some.injEq]
      unfold inputNumber Free
      cases htable : net.constantTable termID with
      | some value =>
        have := constantNumber_lt value
        simp
        omega
      | none =>
        constructor
        · intro h
          exact ⟨⟨hiso, rfl⟩, i, hi, h.symm⟩
        · intro h
          obtain ⟨-, j, hj, rfl⟩ := h
          have hsame := (List.getElem?_inj (List.getElem?_eq_some_iff.mp hi).1 hnodup).mp
            (hi.trans hj.symm)
          rw [hsame]
    · rw [initVarNames_of_notMem hnodup hmem hiso]
      refine ⟨nofun, fun h => ?_⟩
      obtain ⟨-, i, hi, -⟩ := h
      exact absurd (List.mem_of_getElem? hi) hmem

theorem exists_number (net : BuilderNetlist) {inputs : List Nat} (hnodup : inputs.Nodup) {termID : Nat}
    (hmem : termID ∈ inputs) : ∃ n, net.initVarNames inputs termID = some n ∧
      (2 ≤ n ↔ net.Free termID) := by
  cases hiso : net.constantIso termID with
  | some value =>
    refine ⟨constantNumber value, by rw [initVarNames, hiso], ?_⟩
    have := constantNumber_lt value
    simp only [Free, hiso, reduceCtorEq, false_and, iff_false]
    omega
  | none =>
    obtain ⟨i, hi⟩ := List.mem_iff_getElem?.mp hmem
    refine ⟨_, initVarNames_of_mem hnodup hi hiso, ?_⟩
    unfold inputNumber Free
    cases htable : net.constantTable termID with
    | some value =>
      have := constantNumber_lt value
      simp
      omega
    | none => simp [hiso]

/-- Two terminals never share a number from 2 on. -/
theorem initVarNames_injective {inputs : List Nat} (hnodup : inputs.Nodup) {t t' n : Nat}
    (h2 : 2 ≤ n) (h : net.initVarNames inputs t = some n)
    (h' : net.initVarNames inputs t' = some n) : t = t' := by
  obtain ⟨-, i, hi, rfl⟩ := (initVarNames_eq_some hnodup h2).mp h
  obtain ⟨-, j, hj, hsame⟩ := (initVarNames_eq_some hnodup h2).mp h'
  have hij : i = j := by omega
  rw [← hij, hi] at hj
  exact Option.some.inj hj

/-- A build with fewer inputs names no other terminal. -/
theorem merge_eq {inputs fewer : List Nat} (hnodup : inputs.Nodup) (hfewer : fewer.Sublist inputs) :
    mergeBuilderTermVarIDs (net.initVarNames inputs) (net.initVarNames fewer) =
      net.initVarNames inputs := by
  funext termID
  unfold mergeBuilderTermVarIDs
  cases hnumber : net.initVarNames inputs termID with
  | some n => rfl
  | none =>
    dsimp only
    cases hiso : net.constantIso termID with
    | some value =>
      rw [initVarNames, hiso] at hnumber
      cases hnumber
    | none =>
      refine initVarNames_of_notMem (hnodup.sublist hfewer) (fun hmem => ?_) hiso
      obtain ⟨n, hn, -⟩ := exists_number net hnodup (hfewer.subset hmem)
      rw [hn] at hnumber
      cases hnumber

/-- What holds of a netlist and its builder: the inputs are a set of terminals, terminals and
cells have different keys, and a formula is over the numbers of its build's inputs. -/
structure WellBuilt (net : BuilderNetlist) (inputs : List Nat) (cells : List SignalKey) : Prop where
  nodup : inputs.Nodup
  bounded : ∀ t ∈ inputs, t < net.termCount
  keys : ∀ t t' key, net.inputKeyByTerm t = some key → net.inputKeyByTerm t' = some key → t = t'
  cellsNodup : cells.Nodup
  cellKeys : ∀ t, ∀ cell ∈ cells, net.inputKeyByTerm t ≠ some cell
  support : ∀ fewer root e, fewer.Sublist inputs →
    net.pos (net.initVarNames fewer) fewer root = some e → ∀ n ∈ e.getSupportVars, 2 ≤ n →
      ∃ t, net.initVarNames fewer t = some n

/-- One simultaneous and injective renaming of numbers, terminal by terminal. -/
structure Renames (source stable : VarTable) (ρ : Nat → Nat) : Prop where
  number : ∀ t n, 2 ≤ n → source t = some n → 2 ≤ ρ n ∧ stable t = some (ρ n)
  injective : ∀ t t' n n', 2 ≤ n → 2 ≤ n' → source t = some n → source t' = some n' →
    ρ n = ρ n' → n = n'

/-- The formula stored for a root is the one of some build, renamed to the numbers of `table`. -/
def Means (net : BuilderNetlist) (inputs : List Nat) (table : VarTable)
    (entry : Nat × BoolExpr) : Prop :=
  ∃ fewer e ρ, fewer.Sublist inputs ∧
    net.pos (net.initVarNames fewer) fewer entry.1 = some e ∧
    Renames (net.initVarNames fewer) table ρ ∧
    ∀ ν : Valuation, entry.2.eval ν = e.eval fun n => ν (ρ n)

/-! ## The renaming of a batch -/

section Renaming
variable {inputs fewer : List Nat} {cells : List SignalKey}

theorem mem_remapEntries {termCount n k : Nat} {source stable : VarTable} :
    (n, k) ∈ remapEntries termCount source stable ↔
      2 ≤ n ∧ ∃ t < termCount, source t = some n ∧ stable t = some k := by
  unfold remapEntries
  rw [List.mem_filterMap]
  constructor
  · intro h
    obtain ⟨t, ht, hentry⟩ := h
    rw [List.mem_range] at ht
    split at hentry
    · rename_i hsource hstable
      split at hentry
      · cases hentry
      · obtain ⟨rfl, rfl⟩ := Prod.mk.inj (Option.some.inj hentry)
        exact ⟨by omega, t, ht, hsource, hstable⟩
    · cases hentry
  · intro h
    obtain ⟨h2, t, ht, hsource, hstable⟩ := h
    refine ⟨t, List.mem_range.mpr ht, ?_⟩
    simp only [hsource, hstable]
    rw [if_neg (by omega)]

theorem exists_lookup {entries : List (Nat × Nat)} {n k : Nat} (h : (n, k) ∈ entries) :
    ∃ k', entries.lookup n = some k' ∧ (n, k') ∈ entries := by
  cases hlookup : entries.lookup n with
  | none =>
    rw [List.lookup_eq_none_iff] at hlookup
    exact absurd (hlookup _ h) (by simp)
  | some k' =>
    obtain ⟨before, after, hsplit, -⟩ := List.lookup_eq_some_iff.mp hlookup
    refine ⟨k', rfl, ?_⟩
    rw [hsplit]
    simp

/-- The number of a terminal in a build with fewer inputs is sent to its stable number. -/
theorem remap_of_number (hnet : net.WellBuilt inputs cells) (hfewer : fewer.Sublist inputs)
    {t n : Nat} (h2 : 2 ≤ n) (ht : net.initVarNames fewer t = some n) :
    ∃ k, buildStableBuilderVarRemap net.termCount (net.initVarNames fewer)
        (net.initVarNames inputs) n = some k ∧ 2 ≤ k ∧ net.initVarNames inputs t = some k := by
  have hnodup := hnet.nodup.sublist hfewer
  obtain ⟨hfree, i, hi, -⟩ := (initVarNames_eq_some hnodup h2).mp ht
  have hmem := hfewer.subset (List.mem_of_getElem? hi)
  obtain ⟨k, hk, hfreeIff⟩ := exists_number net hnet.nodup hmem
  obtain ⟨k', hlookup, hentry⟩ := exists_lookup
    (mem_remapEntries.mpr ⟨h2, t, hnet.bounded t hmem, ht, hk⟩)
  -- every entry with this source is of the same terminal
  obtain ⟨-, t', -, ht', hk'⟩ := mem_remapEntries.mp hentry
  obtain rfl := initVarNames_injective hnodup h2 ht ht'
  exact ⟨k', hlookup, by
    rw [hk] at hk'
    rw [← Option.some.inj hk']
    exact hfreeIff.mpr hfree, hk'⟩

/-- The renaming of a batch. -/
def renamed (net : BuilderNetlist) (inputs fewer : List Nat) (n : Nat) : Nat :=
  (buildStableBuilderVarRemap net.termCount (net.initVarNames fewer)
    (net.initVarNames inputs) n).getD n

theorem renames_renamed (hnet : net.WellBuilt inputs cells) (hfewer : fewer.Sublist inputs) :
    Renames (net.initVarNames fewer) (net.initVarNames inputs) (net.renamed inputs fewer) where
  number t n h2 ht := by
    obtain ⟨k, hremap, hk2, hk⟩ := remap_of_number hnet hfewer h2 ht
    unfold renamed
    rw [hremap]
    exact ⟨hk2, hk⟩
  injective t t' n n' h2 h2' ht ht' hsame := by
    obtain ⟨k, hremap, hk2, hk⟩ := remap_of_number hnet hfewer h2 ht
    obtain ⟨k', hremap', -, hk'⟩ := remap_of_number hnet hfewer h2' ht'
    unfold renamed at hsame
    rw [hremap, hremap', Option.getD_some, Option.getD_some] at hsame
    subst hsame
    obtain rfl := initVarNames_injective hnet.nodup hk2 hk hk'
    rw [ht] at ht'
    exact Option.some.inj ht'

theorem varRemapChangesAnySymbol_eq_false {termCount : Nat} {source stable : VarTable}
    (h : varRemapChangesAnySymbol termCount source stable = false) {n k : Nat}
    (hremap : buildStableBuilderVarRemap termCount source stable n = some k) : n = k := by
  unfold varRemapChangesAnySymbol at h
  rw [List.any_eq_false] at h
  obtain ⟨before, after, hsplit, -⟩ := List.lookup_eq_some_iff.mp hremap
  have hsame := h (n, k) (by rw [hsplit]; simp)
  rw [hremap] at hsame
  simpa using hsame

/-- Every formula of a build is stored under its terminals' stable numbers. -/
theorem stableExpr_spec (hnet : net.WellBuilt inputs cells) (hfewer : fewer.Sublist inputs)
    (root : Nat) :
    ∃ entry, net.stableExpr (net.initVarNames fewer) (net.initVarNames inputs) fewer root =
      .ok entry ∧ ∀ stored ∈ entry, net.Means inputs (net.initVarNames inputs) stored := by
  have hrenames := renames_renamed hnet hfewer
  unfold stableExpr
  cases hpos : net.pos (net.initVarNames fewer) fewer root with
  | none => exact ⟨none, rfl, nofun⟩
  | some e =>
    have hmeans : ∀ stored : BoolExpr,
        (∀ ν : Valuation, stored.eval ν = e.eval fun n => ν (net.renamed inputs fewer n)) →
        net.Means inputs (net.initVarNames inputs) (root, stored) := fun stored heval =>
      ⟨fewer, e, _, hfewer, hpos, hrenames, heval⟩
    by_cases hchanges : varRemapChangesAnySymbol net.termCount (net.initVarNames fewer)
        (net.initVarNames inputs) = true
    · have hremap : ∀ ν : Valuation, ∃ r, e.remapBoolExprVariables
          (buildStableBuilderVarRemap net.termCount (net.initVarNames fewer)
            (net.initVarNames inputs)) = .ok r ∧
          r.eval ν = e.eval fun n => ν (net.renamed inputs fewer n) := by
        intro ν
        refine eval_remapBoolExprVariables ν _ e fun n hn h2 => ?_
        obtain ⟨t, ht⟩ := hnet.support fewer root e hfewer hpos n hn h2
        obtain ⟨k, hk, hk2, -⟩ := remap_of_number hnet hfewer h2 ht
        refine ⟨k, hk, ?_⟩
        rw [lit_of_two_le _ hk2, lit_of_two_le _ h2]
        unfold renamed
        rw [hk]
        rfl
      obtain ⟨r, hr, -⟩ := hremap fun _ => false
      refine ⟨some (root, r), ?_, fun stored hstored => ?_⟩
      · simp only [hchanges, if_true, hr]
        rfl
      · obtain rfl := Option.some.inj hstored
        refine hmeans r fun ν => ?_
        obtain ⟨r', hr', heval⟩ := hremap ν
        rw [hr] at hr'
        rw [Except.ok.inj hr']
        exact heval
    · refine ⟨some (root, e), by simp only [hchanges]; rfl, fun stored hstored => ?_⟩
      obtain rfl := Option.some.inj hstored
      refine hmeans e fun ν => BoolExpr.eval_congr fun n hn h2 => ?_
      obtain ⟨t, ht⟩ := hnet.support fewer root e hfewer hpos n hn h2
      obtain ⟨k, hk, -, -⟩ := remap_of_number hnet hfewer h2 ht
      have hsame := varRemapChangesAnySymbol_eq_false (Bool.not_eq_true _ ▸ hchanges) hk
      unfold renamed
      rw [hk, Option.getD_some, ← hsame]

end Renaming

/-! ## The published numbers -/

section Published
variable {vars entries : List (SignalKey × Nat)}

theorem foldl_emplaceVar_of_known (h : ∀ entry ∈ entries, entry.1 ∈ vars.map Prod.fst) :
    entries.foldl emplaceVar vars = vars := by
  induction entries with
  | nil => rfl
  | cons entry entries ih =>
    rw [List.foldl_cons, emplaceVar, if_pos (h entry (List.mem_cons_self ..))]
    exact ih fun e he => h e (List.mem_cons_of_mem _ he)

theorem foldl_emplaceVar_of_new (hnodup : (entries.map Prod.fst).Nodup)
    (h : ∀ entry ∈ entries, entry.1 ∉ vars.map Prod.fst) :
    entries.foldl emplaceVar vars = vars ++ entries := by
  induction entries generalizing vars with
  | nil => simp
  | cons entry entries ih =>
    obtain ⟨hhead, hnodup⟩ := List.nodup_cons.mp hnodup
    rw [List.foldl_cons, emplaceVar, if_neg (h entry (List.mem_cons_self ..)), ih hnodup,
      List.append_assoc, List.singleton_append]
    intro e he
    rw [List.map_append, List.mem_append, not_or]
    refine ⟨h e (List.mem_cons_of_mem _ he), fun hsame => hhead ?_⟩
    rw [← List.mem_singleton.mp hsame]
    exact List.mem_map_of_mem he

theorem foldl_max_spec (vars : List (SignalKey × Nat)) (first : Nat) :
    first ≤ vars.foldl (fun nextVarID entry => max nextVarID (entry.2 + 1)) first ∧
    (∀ entry ∈ vars,
      entry.2 < vars.foldl (fun nextVarID entry => max nextVarID (entry.2 + 1)) first) ∧
    (vars.foldl (fun nextVarID entry => max nextVarID (entry.2 + 1)) first = first ∨
      ∃ entry ∈ vars,
        vars.foldl (fun nextVarID entry => max nextVarID (entry.2 + 1)) first = entry.2 + 1) := by
  induction vars generalizing first with
  | nil => simp
  | cons entry vars ih =>
    obtain ⟨hle, hlt, hlast⟩ := ih (max first (entry.2 + 1))
    rw [List.foldl_cons]
    refine ⟨by omega, fun e he => ?_, ?_⟩
    · rcases List.mem_cons.mp he with rfl | he
      · omega
      · exact hlt e he
    · rcases hlast with hlast | ⟨e, he, hlast⟩
      · rcases Nat.le_total first (entry.2 + 1) with hmax | hmax
        · exact .inr ⟨entry, List.mem_cons_self .., by rw [hlast]; omega⟩
        · exact .inl (by rw [hlast]; omega)
      · exact .inr ⟨e, List.mem_cons_of_mem _ he, hlast⟩

end Published

/-- An input whose number, if it has one, is published. -/
def Published (net : BuilderNetlist) (termID : Nat) : Prop :=
  net.isConstantInternalOutput termID = false ∧ ∃ key, net.inputKeyByTerm termID = some key

section Extraction
variable {inputs roots : List Nat} {cells : List SignalKey}

theorem publishedVar_eq_some {table : VarTable} {t n : Nat} {key : SignalKey} :
    net.publishedVar table t = some (key, n) ↔
      net.isConstantInternalOutput t = false ∧ net.inputKeyByTerm t = some key ∧
        table t = some n ∧ 2 ≤ n := by
  unfold publishedVar
  cases net.isConstantInternalOutput t with
  | true => simp
  | false =>
    cases net.inputKeyByTerm t with
    | none => simp
    | some key' =>
      cases table t with
      | none => simp
      | some n' =>
        by_cases hsmall : n' < 2 <;> simp [hsmall] <;> omega

/-- The published entries of the first build. -/
def publishedVars (net : BuilderNetlist) (inputs : List Nat) : List (SignalKey × Nat) :=
  inputs.filterMap (net.publishedVar (net.initVarNames inputs))

theorem mem_publishedVars {key : SignalKey} {n : Nat} : (key, n) ∈ net.publishedVars inputs ↔
    ∃ t ∈ inputs, net.isConstantInternalOutput t = false ∧ net.inputKeyByTerm t = some key ∧
      net.initVarNames inputs t = some n ∧ 2 ≤ n := by
  unfold publishedVars
  rw [List.mem_filterMap]
  exact exists_congr fun t => and_congr_right fun _ => publishedVar_eq_some

theorem publishedVars_nodup (hnet : net.WellBuilt inputs cells) :
    ((net.publishedVars inputs).map Prod.fst).Nodup := by
  unfold publishedVars
  rw [List.map_filterMap]
  refine hnet.nodup.filterMap fun t t' key ht ht' => ?_
  obtain ⟨⟨_, n⟩, hentry, rfl⟩ := Option.mem_map.mp ht
  obtain ⟨⟨_, n'⟩, hentry', hsame⟩ := Option.mem_map.mp ht'
  have hkey := (publishedVar_eq_some.mp hentry).2.1
  have hkey' := (publishedVar_eq_some.mp hentry').2.1
  dsimp only at hsame
  exact hnet.keys t t' _ hkey (hsame ▸ hkey')

theorem start_inputVarByKey (hnet : net.WellBuilt inputs cells) :
    (net.start inputs roots).inputVarByKey = net.publishedVars inputs := by
  unfold start recordBoundaryInputVars
  dsimp only
  exact foldl_emplaceVar_of_new (publishedVars_nodup hnet) (by simp)

/-- What every batch keeps: the first inputs and their numbers, the published entries, and
formulas over these numbers. -/
structure Stable (net : BuilderNetlist) (inputs : List Nat) (s : Numbering) : Prop where
  sameInputs : s.inputs = inputs
  sameTable : s.table = net.initVarNames inputs
  published : ∀ entry ∈ net.publishedVars inputs, entry ∈ s.inputVarByKey
  exprs : ∀ entry ∈ s.outputExprByTerm, net.Means inputs s.table entry

theorem means_self {root : Nat} {e : BoolExpr}
    (hpos : net.pos (net.initVarNames inputs) inputs root = some e) :
    net.Means inputs (net.initVarNames inputs) (root, e) :=
  ⟨inputs, e, id, List.Sublist.refl _, hpos,
    { number := fun _ _ h2 ht => ⟨h2, ht⟩
      injective := fun _ _ _ _ _ _ _ _ hsame => hsame }, fun _ => rfl⟩

theorem stable_start (hnet : net.WellBuilt inputs cells) :
    net.Stable inputs (net.start inputs roots) where
  sameInputs := rfl
  sameTable := rfl
  published entry hentry := by
    rw [start_inputVarByKey hnet]
    exact hentry
  exprs entry hentry := by
    obtain ⟨root, -, hroot⟩ := List.mem_filterMap.mp hentry
    obtain ⟨e, hpos, rfl⟩ := Option.map_eq_some_iff.mp hroot
    exact means_self hpos

theorem appendUniqueTermIDs_of_subset {dest src : List Nat} (h : ∀ t ∈ src, t ∈ dest) :
    appendUniqueTermIDs dest src = dest := by
  unfold appendUniqueTermIDs
  induction src with
  | nil => rfl
  | cons t src ih =>
    rw [List.foldl_cons, if_pos (h t (List.mem_cons_self ..))]
    exact ih fun t' ht' => h t' (List.mem_cons_of_mem _ ht')

/-- A batch succeeds; it adds formulas and no number. -/
theorem materialize_spec (hnet : net.WellBuilt inputs cells) {s : Numbering}
    (hs : net.Stable inputs s) (batch : Batch) :
    ∃ s', net.materialize s batch = .ok s' ∧ net.Stable inputs s' ∧
      s'.inputVarByKey = s.inputVarByKey := by
  set fewer := s.inputs.filter fun termID => termID ∉ batch.nonTopRootsToBuild with hfewer
  have hsub : fewer.Sublist inputs := hs.sameInputs ▸ List.filter_sublist
  have hmerge : mergeBuilderTermVarIDs s.table (net.initVarNames fewer) = net.initVarNames inputs :=
    hs.sameTable ▸ merge_eq hnet.nodup hsub
  have hagain : mergeBuilderTermVarIDs s.table (net.initVarNames inputs) =
      net.initVarNames inputs := hs.sameTable ▸ merge_eq hnet.nodup (List.Sublist.refl _)
  have happend : appendUniqueTermIDs s.inputs fewer = inputs := by
    rw [hs.sameInputs]
    exact appendUniqueTermIDs_of_subset fun t ht => hsub.subset ht
  choose! entryOf hentryOf hmeans using stableExpr_spec hnet hsub
  have hexprs : batch.roots.mapM (net.stableExpr (net.initVarNames fewer)
      (net.initVarNames inputs) fewer) = .ok (batch.roots.map entryOf) := by
    rw [show net.stableExpr (net.initVarNames fewer) (net.initVarNames inputs) fewer =
      fun root => .ok (entryOf root) from funext hentryOf]
    exact List.mapM_pure
  have hknown : ((inputs.filterMap (net.publishedVar (net.initVarNames inputs))).foldl
      emplaceVar s.inputVarByKey) = s.inputVarByKey :=
    foldl_emplaceVar_of_known fun entry hentry => List.mem_map_of_mem (hs.published entry hentry)
  refine ⟨⟨inputs, net.initVarNames inputs, s.inputVarByKey,
    (batch.roots.map entryOf).reduceOption ++ s.outputExprByTerm⟩, ?_, ?_, rfl⟩
  · unfold materialize
    simp only [← hfewer, hmerge, hexprs]
    show Except.ok _ = _
    unfold recordBoundaryInputVars
    simp only [hagain, happend, hknown]
  · refine ⟨rfl, rfl, hs.published, fun entry hentry => ?_⟩
    rcases List.mem_append.mp hentry with hnew | hold
    · obtain ⟨root, -, hroot⟩ := List.mem_map.mp (List.reduceOption_mem_iff.mp hnew)
      exact hmeans root entry hroot
    · have hmeans := hs.exprs entry hold
      rw [hs.sameTable] at hmeans
      exact hmeans

theorem foldlM_materialize_spec (hnet : net.WellBuilt inputs cells) (batches : List Batch)
    {s : Numbering} (hs : net.Stable inputs s) :
    ∃ s', batches.foldlM net.materialize s = .ok s' ∧ net.Stable inputs s' ∧
      s'.inputVarByKey = s.inputVarByKey := by
  induction batches generalizing s with
  | nil => exact ⟨s, rfl, hs, rfl⟩
  | cons batch batches ih =>
    obtain ⟨s₁, hstep, hs₁, hvars₁⟩ := materialize_spec hnet hs batch
    obtain ⟨s₂, hrun, hs₂, hvars₂⟩ := ih hs₁
    refine ⟨s₂, ?_, hs₂, hvars₂.trans hvars₁⟩
    rw [List.foldlM_cons, hstep]
    exact hrun

/-- The number of the first memory cell. -/
def firstCellVarID (net : BuilderNetlist) (inputs : List Nat) : Nat :=
  getNextSyntheticVarID (net.publishedVars inputs)

def cellVars (net : BuilderNetlist) (inputs : List Nat) (cells : List SignalKey) :
    List (SignalKey × Nat) :=
  cells.mapIdx fun index cell => (cell, net.firstCellVarID inputs + index)

theorem cellVars_keys : (net.cellVars inputs cells).map Prod.fst = cells := by
  refine List.ext_getElem? fun i => ?_
  unfold cellVars
  cases h : cells[i]? <;> simp [h]

theorem assign_inputVarByKey (hnet : net.WellBuilt inputs cells) {s : Numbering}
    (hvars : s.inputVarByKey = net.publishedVars inputs) :
    (assignStructuredMemoryStateVars s cells).inputVarByKey =
      net.publishedVars inputs ++ net.cellVars inputs cells := by
  unfold assignStructuredMemoryStateVars
  simp only [hvars]
  refine foldl_emplaceVar_of_new ?_ fun entry hentry hknown => ?_
  · have hkeys : (net.cellVars inputs cells).map Prod.fst = cells := cellVars_keys
    exact hkeys.symm ▸ hnet.cellsNodup
  · have hcell : entry.1 ∈ (net.cellVars inputs cells).map Prod.fst := List.mem_map_of_mem hentry
    rw [cellVars_keys] at hcell
    obtain ⟨⟨key, n⟩, hpublished, hsame⟩ := List.mem_map.mp hknown
    obtain ⟨t, -, -, hkey, -⟩ := mem_publishedVars.mp hpublished
    exact hnet.cellKeys t entry.1 hcell (hsame ▸ hkey)

/-- What is reached by any batches. -/
theorem extract_spec (hnet : net.WellBuilt inputs cells) (roots : List Nat)
    (memoryBatch : Option Batch) (batches : List Batch) :
    ∃ s, net.extract inputs roots memoryBatch cells batches = .ok s ∧ net.Stable inputs s ∧
      s.inputVarByKey = net.publishedVars inputs ++ net.cellVars inputs cells := by
  have hfirst : ∃ s, net.materializeMemories (net.start inputs roots) memoryBatch = .ok s ∧
      net.Stable inputs s ∧ s.inputVarByKey = net.publishedVars inputs := by
    cases memoryBatch with
    | none => exact ⟨_, rfl, stable_start hnet, start_inputVarByKey hnet⟩
    | some batch =>
      obtain ⟨s, hs, hstable, hvars⟩ := materialize_spec hnet (stable_start hnet) batch
      exact ⟨s, hs, hstable, hvars.trans (start_inputVarByKey hnet)⟩
  obtain ⟨s, hs, hstable, hvars⟩ := hfirst
  have hassigned := assign_inputVarByKey hnet hvars
  obtain ⟨s', hrun, hstable', hvars'⟩ := foldlM_materialize_spec hnet batches
    (s := assignStructuredMemoryStateVars s cells)
    { sameInputs := hstable.sameInputs
      sameTable := hstable.sameTable
      published := fun entry hentry => by
        rw [hassigned]
        exact List.mem_append_left _ hentry
      exprs := hstable.exprs }
  refine ⟨s', ?_, hstable', hvars'.trans hassigned⟩
  unfold extract
  rw [hs]
  exact hrun

end Extraction

/-! ## One meaning for every number -/

/-- Every number from 2 on stands for one terminal or one memory cell, and the formulas are over
these numbers. -/
structure OneMeaning (net : BuilderNetlist) (inputs : List Nat) (cells : List SignalKey)
    (s : Numbering) : Prop where
  terminals : ∀ t t' n, 2 ≤ n → s.table t = some n → s.table t' = some n → t = t'
  cellNumbers : ∀ cell ∈ cells, ∃! n, (cell, n) ∈ s.inputVarByKey
  cellsApart : ∀ cell ∈ cells, ∀ cell' ∈ cells, ∀ n, (cell, n) ∈ s.inputVarByKey →
    (cell', n) ∈ s.inputVarByKey → cell = cell'
  cellsNotTerminals : ∀ cell ∈ cells, ∀ t n, (cell, n) ∈ s.inputVarByKey → s.table t ≠ some n
  exprs : ∀ entry ∈ s.outputExprByTerm, net.Means inputs s.table entry

/-- No unpublished input stands among the places that follow the last published one, as many as
there are cells. -/
def NoClash (net : BuilderNetlist) (inputs : List Nat) (cells : List SignalKey) : Prop :=
  ∀ (i t : Nat), inputs[i]? = some t → net.Free t →
    (∃ j t', i ≤ j ∧ inputs[j]? = some t' ∧ net.Free t' ∧ net.Published t') ∨
    (cells.length ≤ i ∧
      ∀ (j t' : Nat), inputs[j]? = some t' → net.Free t' → net.Published t' → j + cells.length < i)

section
variable {inputs roots : List Nat} {cells : List SignalKey}

theorem mem_publishedVars_iff (hnet : net.WellBuilt inputs cells) {key : SignalKey} {n : Nat} :
    (key, n) ∈ net.publishedVars inputs ↔
      ∃ j t, inputs[j]? = some t ∧ n = j + 2 ∧ net.Free t ∧
        net.isConstantInternalOutput t = false ∧ net.inputKeyByTerm t = some key := by
  rw [mem_publishedVars]
  constructor
  · intro h
    obtain ⟨t, -, hnot, hkey, hn, h2⟩ := h
    obtain ⟨hfree, j, hj, rfl⟩ := (initVarNames_eq_some hnet.nodup h2).mp hn
    exact ⟨j, t, hj, rfl, hfree, hnot, hkey⟩
  · intro h
    obtain ⟨j, t, hj, rfl, hfree, hnot, hkey⟩ := h
    exact ⟨t, List.mem_of_getElem? hj, hnot, hkey,
      (initVarNames_eq_some hnet.nodup (by omega)).mpr ⟨hfree, j, hj, rfl⟩, by omega⟩

/-- The first cell's number is 2, or it follows the number of the last published input. -/
theorem firstCellVarID_spec (hnet : net.WellBuilt inputs cells) :
    2 ≤ net.firstCellVarID inputs ∧
    (∀ j t, inputs[j]? = some t → net.Free t → net.Published t →
      j + 3 ≤ net.firstCellVarID inputs) ∧
    (net.firstCellVarID inputs = 2 ∨ ∃ j t, inputs[j]? = some t ∧ net.Free t ∧ net.Published t ∧
      net.firstCellVarID inputs = j + 3) := by
  obtain ⟨hle, hlt, hlast⟩ := foldl_max_spec (net.publishedVars inputs) 2
  refine ⟨hle, fun j t hj hfree hpublished => ?_, ?_⟩
  · obtain ⟨hnot, key, hkey⟩ := hpublished
    exact hlt (key, j + 2)
      ((mem_publishedVars_iff hnet).mpr ⟨j, t, hj, rfl, hfree, hnot, hkey⟩)
  · rcases hlast with hlast | ⟨⟨key, n⟩, hmem, hlast⟩
    · exact .inl hlast
    · obtain ⟨j, t, hj, rfl, hfree, hnot, hkey⟩ := (mem_publishedVars_iff hnet).mp hmem
      exact .inr ⟨j, t, hj, hfree, ⟨hnot, key, hkey⟩, hlast⟩

theorem mem_cellVars {cell : SignalKey} {n : Nat} : (cell, n) ∈ net.cellVars inputs cells ↔
    ∃ index, cells[index]? = some cell ∧ n = net.firstCellVarID inputs + index := by
  unfold cellVars
  rw [List.mem_iff_getElem?]
  refine exists_congr fun index => ?_
  rw [List.getElem?_mapIdx]
  cases cells[index]? <;> simp [eq_comm]

/-- A cell has the number that it was given, and no other. -/
theorem mem_of_cell (hnet : net.WellBuilt inputs cells) {cell : SignalKey} (hcell : cell ∈ cells)
    {n : Nat} : (cell, n) ∈ net.publishedVars inputs ++ net.cellVars inputs cells ↔
      ∃ index, cells[index]? = some cell ∧ n = net.firstCellVarID inputs + index := by
  rw [List.mem_append, mem_cellVars, or_iff_right]
  intro h
  obtain ⟨t, -, -, hkey, -⟩ := mem_publishedVars.mp h
  exact hnet.cellKeys t cell hcell hkey

/-- A cell and a terminal share a number only at an unpublished input behind the last published
one. -/
theorem noClash_iff (hnet : net.WellBuilt inputs cells) : net.NoClash inputs cells ↔
    ∀ index < cells.length, ∀ t,
      net.initVarNames inputs t ≠ some (net.firstCellVarID inputs + index) := by
  obtain ⟨h2, hbelow, hlast⟩ := firstCellVarID_spec hnet
  constructor
  · intro h index hindex t ht
    obtain ⟨hfree, i, hi, hsame⟩ := (initVarNames_eq_some hnet.nodup (by omega)).mp ht
    rcases h i t hi hfree with ⟨j, t', hij, hj, hfree', hpublished⟩ | ⟨hlength, hafter⟩
    · have := hbelow j t' hj hfree' hpublished
      omega
    · rcases hlast with hfirst | ⟨j, t', hj, hfree', hpublished, hfirst⟩
      · omega
      · have := hafter j t' hj hfree' hpublished
        omega
  · intro h i t hi hfree
    by_cases hpublished :
        ∃ j t', i ≤ j ∧ inputs[j]? = some t' ∧ net.Free t' ∧ net.Published t'
    · exact .inl hpublished
    · -- the number of the input lies from the first cell's number on
      have hfirst : net.firstCellVarID inputs ≤ i + 2 := by
        rcases hlast with hfirst | ⟨j, t', hj, hfree', hpublished', hfirst⟩
        · omega
        · by_contra hlater
          exact hpublished ⟨j, t', by omega, hj, hfree', hpublished'⟩
      have hfar : net.firstCellVarID inputs + cells.length ≤ i + 2 := by
        by_contra hnear
        refine h (i + 2 - net.firstCellVarID inputs) (by omega) t ?_
        rw [initVarNames_eq_some hnet.nodup (by omega)]
        exact ⟨hfree, i, hi, by omega⟩
      refine .inr ⟨by omega, fun j t' hj hfree' hpublished' => ?_⟩
      have := hbelow j t' hj hfree' hpublished'
      omega

/-- Every number of an extraction has one meaning exactly when no unpublished input stands where
the cells' numbers are. -/
theorem extract_oneMeaning_iff (hnet : net.WellBuilt inputs cells) (memoryBatch : Option Batch)
    (batches : List Batch) :
    (∃ s, net.extract inputs roots memoryBatch cells batches = .ok s ∧
      net.OneMeaning inputs cells s) ↔ net.NoClash inputs cells := by
  obtain ⟨s, hs, hstable, hvars⟩ := extract_spec hnet roots memoryBatch batches
  rw [noClash_iff hnet]
  constructor
  · intro h index hindex t ht
    obtain ⟨s', hs', hmeaning⟩ := h
    rw [hs] at hs'
    obtain rfl := Except.ok.inj hs'
    refine hmeaning.cellsNotTerminals cells[index] (List.getElem_mem hindex) t _ ?_
      (hstable.sameTable ▸ ht)
    rw [hvars, mem_of_cell hnet (List.getElem_mem hindex)]
    exact ⟨index, List.getElem?_eq_getElem hindex, rfl⟩
  · intro h
    refine ⟨s, hs, ⟨?_, fun cell hcell => ?_, ?_, ?_, hstable.exprs⟩⟩
    · intro t t' n h2 ht ht'
      rw [hstable.sameTable] at ht ht'
      exact initVarNames_injective hnet.nodup h2 ht ht'
    · obtain ⟨index, hindex⟩ := List.mem_iff_getElem?.mp hcell
      simp only [hvars, mem_of_cell hnet hcell]
      refine ⟨_, ⟨index, hindex, rfl⟩, fun n hn => ?_⟩
      obtain ⟨index', hindex', rfl⟩ := hn
      have hlt := (List.getElem?_eq_some_iff.mp hindex).1
      rw [(List.getElem?_inj hlt hnet.cellsNodup).mp (hindex.trans hindex'.symm)]
    · intro cell hcell cell' hcell' n hn hn'
      rw [hvars, mem_of_cell hnet hcell] at hn
      rw [hvars, mem_of_cell hnet hcell'] at hn'
      obtain ⟨index, hindex, rfl⟩ := hn
      obtain ⟨index', hindex', hsame⟩ := hn'
      have hsame : index = index' := by omega
      rw [← hsame, hindex] at hindex'
      exact Option.some.inj hindex'
    · intro cell hcell t n hn
      rw [hvars, mem_of_cell hnet hcell] at hn
      obtain ⟨index, hindex, rfl⟩ := hn
      rw [hstable.sameTable]
      exact h index (List.getElem?_eq_some_iff.mp hindex).1 t

end

/-- Two builder inputs, of which one is the pin of a tie cell without a truth table; the root 2
is driven by the input 1. -/
def tieCell (tie : Nat) : BuilderNetlist where
  termCount := 3
  constantTable _ := none
  constantIso _ := none
  isConstantInternalOutput t := t = tie
  inputKeyByTerm t := if t = tie then none else some ([t], [0])
  pos table _ root := if root = 2 then (table 1).map .var else none

/-- The cell of a memory. -/
def ramCell : SignalKey := ([7, 7], [0])

theorem tieCell_wellBuilt (tie : Nat) : (tieCell tie).WellBuilt [0, 1] [ramCell] where
  nodup := by decide
  bounded := by simp [tieCell]
  keys t t' key h h' := by
    dsimp only [tieCell] at h h'
    split at h
    · cases h
    · split at h'
      · cases h'
      · rw [← Option.some.inj h'] at h
        simpa using h
  cellsNodup := by decide
  cellKeys t cell hcell := by
    rw [List.mem_singleton.mp hcell]
    dsimp only [tieCell]
    split <;> simp [ramCell]
  support fewer root e _ hpos n hn _ := by
    dsimp only [tieCell] at hpos
    split at hpos
    · obtain ⟨n', hn', rfl⟩ := Option.map_eq_some_iff.mp hpos
      rw [Finset.mem_singleton.mp hn]
      exact ⟨1, hn'⟩
    · cases hpos

theorem tieCell_zero_oneMeaning : ∃ s,
    (tieCell 0).extract [0, 1] [2] none [ramCell] [⟨[2], [0]⟩] = .ok s ∧
      (tieCell 0).OneMeaning [0, 1] [ramCell] s := by
  refine (extract_oneMeaning_iff (tieCell_wellBuilt 0) none _).mpr fun i t hi _ => .inl ?_
  refine ⟨1, 1, ?_, rfl, ⟨rfl, rfl⟩, rfl, _, rfl⟩
  match i, hi with
  | 0, _ => omega
  | 1, _ => omega
  | _ + 2, hi => cases hi

/-- The tie cell's pin and the memory's cell both have the number 3, which the root's formula
reads. -/
theorem tieCell_one_not_oneMeaning : (tieCell 1).WellBuilt [0, 1] [ramCell] ∧
    ∃ s, (tieCell 1).extract [0, 1] [2] none [ramCell] [] = .ok s ∧
      (2, .var 3) ∈ s.outputExprByTerm ∧ s.table 1 = some 3 ∧ (ramCell, 3) ∈ s.inputVarByKey ∧
      ¬ (tieCell 1).OneMeaning [0, 1] [ramCell] s := by
  refine ⟨tieCell_wellBuilt 1, _, rfl, ?_, rfl, ?_, fun hmeaning => ?_⟩
  · exact List.mem_singleton.mpr rfl
  · exact List.mem_of_getElem? (i := 1) rfl
  · exact hmeaning.cellsNotTerminals ramCell (List.mem_singleton.mpr rfl) 1 3
      (List.mem_of_getElem? (i := 1) rfl) rfl

end BuilderNetlist
end KeplerFormal
