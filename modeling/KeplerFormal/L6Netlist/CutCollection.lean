import Mathlib.Data.Finset.Sort
import Mathlib.Data.List.Nodup
import Mathlib.Data.Nat.Bitwise

/-!
# Cut points of a netlist (`src/strategies/miter/BuildPrimaryOutputClauses.cpp`)

Leaf instances are cut at outputs without usable tables, and the pins that a cut output reads are
to be compared instead. Both scans classify the pins of a model at its first instance and reuse
the result; truth tables and clock relations come from the netlist library.

* `analyzePIs`, `analyzePOs`: the pins that one instance, or one model, contributes.
* `collectInputs`, `collectOutputs`: the two scans, with their caches.
* `classifiedAlone_iff`: when the cut points are those of every instance on its own.
* `cutComplete_iff`: when every pin that a cut output reads is compared or recorded.
-/
namespace KeplerFormal

/-- `SNLBitTerm::Direction`. -/
inductive TermDirection where
  | Input
  | Output
  | InOut
  deriving DecidableEq, Repr

/-- What a truth table of the library answers. Dependencies are a bit set of pin orders, in chunks
of 64. -/
structure SNLTruthTable where
  isInitialized : Bool
  all0 : Bool
  all1 : Bool
  dependencies : List Nat
  deriving DecidableEq, Repr

/-- A pin of a leaf model; clock relations list pins of the model by position. -/
structure SNLBitTerm where
  direction : TermDirection
  orderID : Nat
  clockRelatedInputs : List Nat := []
  clockRelatedOutputs : List Nat := []
  deriving DecidableEq, Repr

structure LeafModel where
  bitTerms : List SNLBitTerm
  isMux2 : Bool := false
  /-- `SNLDesignModeling::getTruthTable(design, orderID)` -/
  truthTable : Nat → SNLTruthTable

/-- A leaf instance numbers the pins of its model from `firstTerm`. -/
structure LeafInstance where
  model : Nat
  firstTerm : Nat
  /-- `SNLDesignModeling::getTruthTable(instance, orderID)` -/
  truthTable : Nat → SNLTruthTable
  inBoundary : Bool := false

/-- The net of a terminal. -/
structure TermIso where
  isConstant : Bool := false
  drivers : List Nat

/-- mirrors src/strategies/miter/BuildPrimaryOutputClauses.cpp:237-245 -/
def mergeDependencies (merged deps : List Nat) : List Nat :=
  (List.range (max merged.length deps.length)).map fun i => merged.getD i 0 ||| deps.getD i 0

/-- mirrors src/strategies/miter/BuildPrimaryOutputClauses.cpp:247-253 -/
def containsDependencyBit (deps : List Nat) (orderID : Nat) : Bool :=
  (deps.getD (orderID / 64) 0).testBit (orderID % 64)

namespace LeafModel
variable (m : LeafModel)

/-- The positions of the pins that a loop over the terminals keeps. -/
def positions (keep : SNLBitTerm → Nat → Bool) : List Nat :=
  (m.bitTerms.zipIdx.filter fun pin => keep pin.1 pin.2).map Prod.snd

/-- The table makes the output a constant or leaves it without a function. -/
def isFreeTable (tt : SNLTruthTable) : Bool := !tt.isInitialized || (tt.all0 || tt.all1)

/-- Some pin clocks outputs. -/
def isSequentialPIs : Bool := m.bitTerms.any fun pin => !pin.clockRelatedOutputs.isEmpty

/-- Some pin clocks inputs. -/
def isSequentialPOs : Bool := m.bitTerms.any fun pin => !pin.clockRelatedInputs.isEmpty

/-- mirrors src/strategies/miter/BuildPrimaryOutputClauses.cpp:433-556 -/
def analyzePIs (truthTable : Nat → SNLTruthTable) : List Nat :=
  let numberOfInputs := m.bitTerms.countP (·.direction != .Output)
  let numberOfOutputs := m.bitTerms.countP (·.direction != .Input)
  if numberOfInputs = 0 ∧ 0 < numberOfOutputs then
    m.positions fun pin _ => pin.direction != .Input
  else if m.isSequentialPIs then
    let seqBitTerms := m.bitTerms.flatMap (·.clockRelatedOutputs)
    (m.positions fun pin _ => !pin.clockRelatedOutputs.isEmpty && pin.direction != .Input) ++
      m.positions fun pin i => pin.direction != .Input && seqBitTerms.contains i
  else m.positions fun pin _ => pin.direction != .Input && isFreeTable (truthTable pin.orderID)

/-- The pins that the tables of the model's outputs read, all outputs together.
mirrors src/strategies/miter/BuildPrimaryOutputClauses.cpp:638-657 -/
def poTruthTableDependencies : List Nat :=
  m.bitTerms.foldl (fun merged pin =>
    if pin.direction = .Input then merged
    else if (m.truthTable pin.orderID).isInitialized then
      mergeDependencies merged (m.truthTable pin.orderID).dependencies
    else merged) []

/-- mirrors src/strategies/miter/BuildPrimaryOutputClauses.cpp:605-701 -/
def analyzePOs : List Nat :=
  if m.isSequentialPOs then
    let seqBitTerms := m.bitTerms.flatMap (·.clockRelatedInputs)
    (m.positions fun pin _ => !pin.clockRelatedInputs.isEmpty && pin.direction != .Output) ++
      m.positions fun pin i => pin.direction != .Output && seqBitTerms.contains i
  else if m.isMux2 then []
  else m.positions fun pin _ => pin.direction != .Output &&
    !containsDependencyBit m.poTruthTableDependencies pin.orderID

end LeafModel

/-- A netlist with its leaves in the order of the scans. Every terminal belongs to one port or
instance. -/
structure CutNetlist where
  design : Nat → LeafModel
  leaves : List LeafInstance
  topTerms : List (Nat × TermDirection)
  boundaryInputs : List Nat := []
  boundaryOutputs : List Nat := []
  iso : Nat → Option TermIso
  distinct : (topTerms.map Prod.fst ++ leaves.flatMap fun leaf =>
    (List.range (design leaf.model).bitTerms.length).map (leaf.firstTerm + ·)).Nodup
  /-- Boundary terminals are pins of the boundary instances. -/
  boundary : ∀ termID ∈ boundaryInputs ++ boundaryOutputs, ∃ leaf ∈ leaves,
    leaf.inBoundary = true ∧ ∃ i < (design leaf.model).bitTerms.length, termID = leaf.firstTerm + i

/-- Why a root is left out. -/
inductive CollectSkip where
  | noDrivers
  | multipleDrivers
  deriving DecidableEq, Repr

namespace CutNetlist
variable (net : CutNetlist)

/-- The model cache and the terminals so far. -/
structure Scan where
  modelCache : Nat → Option (List Nat) := fun _ => none
  terms : List Nat := []

/-- One leaf of either scan: the pins of its model are classified at the first instance. -/
def collectLeaf (analyze : LeafInstance → List Nat) (s : Scan) (leaf : LeafInstance) : Scan :=
  if leaf.inBoundary then s
  else match s.modelCache leaf.model with
    | some cache => { s with terms := s.terms ++ cache.map (leaf.firstTerm + ·) }
    | none =>
      { modelCache := Function.update s.modelCache leaf.model (some (analyze leaf))
        terms := s.terms ++ (analyze leaf).map (leaf.firstTerm + ·) }

def collectLeaves (analyze : LeafInstance → List Nat) : List Nat :=
  (net.leaves.foldl (collectLeaf analyze) {}).terms

/-- The classification of the pins of one instance. -/
def leafPIs (leaf : LeafInstance) : List Nat :=
  (net.design leaf.model).analyzePIs leaf.truthTable

def leafPOs (leaf : LeafInstance) : List Nat := (net.design leaf.model).analyzePOs

def topInputs : List Nat := (net.topTerms.filter (·.2 != .Output)).map Prod.fst

def topOutputs : List Nat := (net.topTerms.filter (·.2 != .Input)).map Prod.fst

/-- mirrors src/strategies/miter/BuildPrimaryOutputClauses.cpp:396-563 -/
def collectInputs : List Nat :=
  (net.boundaryInputs ++ net.topInputs ++ net.collectLeaves net.leafPIs).toFinset.sort (· ≤ ·)

/-- Why a connected root is skipped, if it is.
mirrors src/strategies/miter/BuildPrimaryOutputClauses.cpp:714-748 -/
def collectSkip (iso : TermIso) : Option CollectSkip :=
  if !iso.isConstant && iso.drivers.isEmpty then some .noDrivers
  else if 1 < iso.drivers.length then some .multipleDrivers
  else none

def outputsSet : Finset Nat :=
  (net.boundaryOutputs ++ net.topOutputs ++ net.collectLeaves net.leafPOs).toFinset

/-- The compared roots, and the roots that are recorded as skipped.
mirrors src/strategies/miter/BuildPrimaryOutputClauses.cpp:565-752 -/
def collectOutputs : List Nat × List (Nat × CollectSkip) :=
  let connected := (net.outputsSet.sort (· ≤ ·)).filterMap fun out =>
    (net.iso out).map fun iso => (out, collectSkip iso)
  (connected.filterMap fun out => if out.2.isSome then none else some out.1,
    connected.filterMap fun out => out.2.map fun skip => (out.1, skip))

/-! ## What is asked of the cut -/

/-- The classification of every instance on its own. -/
def inputsAlone : List Nat :=
  (net.boundaryInputs ++ net.topInputs ++ (net.leaves.filter fun leaf => !leaf.inBoundary).flatMap
    fun leaf => (net.leafPIs leaf).map (leaf.firstTerm + ·)).toFinset.sort (· ≤ ·)

/-- The cut points are those of every instance on its own, so no output of a combinational instance
with inputs is one unless it has no function or is constant. -/
structure ClassifiedAlone : Prop where
  inputs : net.collectInputs = net.inputsAlone
  combinational : ∀ leaf ∈ net.leaves, leaf.inBoundary = false →
    (∃ pin ∈ (net.design leaf.model).bitTerms, pin.direction ≠ .Output) →
    (net.design leaf.model).isSequentialPIs = false →
    ∀ i pin, (net.design leaf.model).bitTerms[i]? = some pin →
      leaf.firstTerm + i ∈ net.collectInputs →
      LeafModel.isFreeTable (leaf.truthTable pin.orderID) = true

/-- The pins of an instance that an output may read: all but those its own table leaves out. -/
def MayDepend (leaf : LeafInstance) (output pin : SNLBitTerm) : Prop :=
  (leaf.truthTable output.orderID).isInitialized = true →
    containsDependencyBit (leaf.truthTable output.orderID).dependencies pin.orderID = true

/-- A table that gives the output a constant number.
mirrors src/strategies/miter/BuildPrimaryOutputClauses.cpp:799-812 -/
def isConstantTable (tt : SNLTruthTable) : Bool := tt.isInitialized && (tt.all0 || tt.all1)

/-- A free output of the leaf, among the pins in `cut`, may read the connected pin `q`. -/
def ReadByCut (leaf : LeafInstance) (cut : Nat → Prop) (q : Nat) : Prop :=
  ∃ o output pin, (net.design leaf.model).bitTerms[o]? = some output ∧ output.direction ≠ .Input ∧
    cut o ∧ isConstantTable (leaf.truthTable output.orderID) = false ∧
    (net.design leaf.model).bitTerms[q]? = some pin ∧ pin.direction ≠ .Output ∧
    (net.iso (leaf.firstTerm + q)).isSome = true ∧ MayDepend leaf output pin

/-- A terminal is compared or recorded as skipped. -/
def IsRoot (t : Nat) : Prop :=
  t ∈ net.collectOutputs.1 ∨ ∃ skip, (t, skip) ∈ net.collectOutputs.2

/-- Every pin that a cut output may read is compared or recorded as skipped. -/
def CutComplete : Prop :=
  ∀ leaf ∈ net.leaves, leaf.inBoundary = false → ∀ q,
    net.ReadByCut leaf (fun o => leaf.firstTerm + o ∈ net.collectInputs) q →
      net.IsRoot (leaf.firstTerm + q)

/-- A terminal whose value is free in the compared formulas. -/
abbrev CutPoint : Type := {t // t ∈ net.collectInputs}

/-- The behaviour of the cut cells: the value of a cut point in a cycle is a function of the values
that the pins it may read have in all cycles. -/
structure CutCells where
  value : net.CutPoint → Nat → (Nat → Nat → Bool) → Bool
  reads : ∀ (c : net.CutPoint) (leaf : LeafInstance) (o : Nat), leaf ∈ net.leaves →
    leaf.inBoundary = false → c.1 = leaf.firstTerm + o → ∀ n pins pins',
      (∀ m q, net.ReadByCut leaf (· = o) q →
        pins m (leaf.firstTerm + q) = pins' m (leaf.firstTerm + q)) →
      value c n pins = value c n pins'

/-- A terminal that the environment drives. -/
def IsEnvironment (t : Nat) : Prop := t ∈ net.boundaryInputs ∨ t ∈ net.topInputs

/-- A run of the design in which terminal `t` has the function `root t` of the cut points. -/
def IsRun (cells : net.CutCells) (root : Nat → (net.CutPoint → Bool) → Bool)
    (x : Nat → net.CutPoint → Bool) : Prop :=
  ∀ n (c : net.CutPoint), ¬ net.IsEnvironment c.1 →
    x n c = cells.value c n fun m t => root t (x m)

/-- The value of a cut point in a cycle follows from the environment and from pairs of a cycle and
a cut point that come before in a well-founded order. -/
def IsCausal (cells : net.CutCells) (root : Nat → (net.CutPoint → Bool) → Bool) : Prop :=
  ∃ before : Nat × net.CutPoint → Nat × net.CutPoint → Prop, WellFounded before ∧
    ∀ n (c : net.CutPoint), ¬ net.IsEnvironment c.1 → ∀ x x' : Nat → net.CutPoint → Bool,
      (∀ m d, before (m, d) (n, c) ∨ net.IsEnvironment d.1 → x m d = x' m d) →
      cells.value c n (fun m t => root t (x m)) = cells.value c n fun m t => root t (x' m)

/-- Two designs with these cut cells and equal roots have equal top outputs in every run. -/
def RootsDecideOutputs : Prop :=
  ∀ (cells : net.CutCells) (root0 root1 : Nat → (net.CutPoint → Bool) → Bool),
    (∀ t, net.IsRoot t → root0 t = root1 t) → net.IsCausal cells root1 →
    ∀ x0 x1, net.IsRun cells root0 x0 → net.IsRun cells root1 x1 →
      (∀ n (c : net.CutPoint), net.IsEnvironment c.1 → x0 n c = x1 n c) →
      ∀ n, ∀ t ∈ net.topOutputs, (net.iso t).isSome = true → root0 t (x0 n) = root1 t (x1 n)

end CutNetlist

/-! ## Pins of a model -/

theorem containsDependencyBit_merge (merged deps : List Nat) (orderID : Nat) :
    containsDependencyBit (mergeDependencies merged deps) orderID =
      (containsDependencyBit merged orderID || containsDependencyBit deps orderID) := by
  unfold containsDependencyBit mergeDependencies
  by_cases h : orderID / 64 < max merged.length deps.length
  · have hget : ((List.range (max merged.length deps.length)).map fun i =>
        merged.getD i 0 ||| deps.getD i 0).getD (orderID / 64) 0 =
        merged.getD (orderID / 64) 0 ||| deps.getD (orderID / 64) 0 := by
      rw [List.getD_eq_getElem?_getD, List.getElem?_map, List.getElem?_range h]
      rfl
    rw [hget, Nat.testBit_or]
  · have hmerged : merged.length ≤ orderID / 64 := by omega
    have hdeps : deps.length ≤ orderID / 64 := by omega
    rw [List.getD_eq_default _ _ (by simpa using h), List.getD_eq_default _ _ hmerged,
      List.getD_eq_default _ _ hdeps]
    simp

namespace LeafModel
variable {m : LeafModel}

theorem mem_positions {keep : SNLBitTerm → Nat → Bool} {i : Nat} :
    i ∈ m.positions keep ↔ ∃ pin, m.bitTerms[i]? = some pin ∧ keep pin i = true := by
  unfold positions
  rw [List.mem_map]
  constructor
  · intro h
    obtain ⟨⟨pin, j⟩, hmem, rfl⟩ := h
    obtain ⟨hpin, hkeep⟩ := List.mem_filter.mp hmem
    exact ⟨pin, List.mk_mem_zipIdx_iff_getElem?.mp hpin, hkeep⟩
  · intro h
    obtain ⟨pin, hpin, hkeep⟩ := h
    exact ⟨(pin, i), List.mem_filter.mpr ⟨List.mk_mem_zipIdx_iff_getElem?.mpr hpin, hkeep⟩, rfl⟩

theorem lt_of_mem_positions {keep : SNLBitTerm → Nat → Bool} {i : Nat} (h : i ∈ m.positions keep) :
    i < m.bitTerms.length := by
  obtain ⟨pin, hpin, -⟩ := mem_positions.mp h
  exact (List.getElem?_eq_some_iff.mp hpin).1

theorem lt_of_mem_analyzePIs {table : Nat → SNLTruthTable} {i : Nat}
    (h : i ∈ m.analyzePIs table) : i < m.bitTerms.length := by
  unfold analyzePIs at h
  dsimp only at h
  split at h
  · exact lt_of_mem_positions h
  · split at h
    · exact (List.mem_append.mp h).elim lt_of_mem_positions lt_of_mem_positions
    · exact lt_of_mem_positions h

theorem lt_of_mem_analyzePOs {i : Nat} (h : i ∈ m.analyzePOs) : i < m.bitTerms.length := by
  unfold analyzePOs at h
  split at h
  · exact (List.mem_append.mp h).elim lt_of_mem_positions lt_of_mem_positions
  · split at h
    · cases h
    · exact lt_of_mem_positions h

/-- Only a combinational model with inputs is classified by its tables. -/
def IsCombinational (m : LeafModel) : Prop :=
  (∃ pin ∈ m.bitTerms, pin.direction ≠ .Output) ∧ m.isSequentialPIs = false

theorem mem_analyzePIs_of_combinational (h : m.IsCombinational) {table : Nat → SNLTruthTable}
    {i : Nat} : i ∈ m.analyzePIs table ↔ ∃ pin, m.bitTerms[i]? = some pin ∧
      pin.direction ≠ .Input ∧ isFreeTable (table pin.orderID) = true := by
  obtain ⟨⟨pin, hpin, hdirection⟩, hsequential⟩ := h
  have hinputs : m.bitTerms.countP (·.direction != .Output) ≠ 0 := by
    rw [Ne, List.countP_eq_zero]
    exact fun hnone => hnone pin hpin (by simpa using hdirection)
  unfold analyzePIs
  dsimp only
  rw [if_neg fun h => hinputs h.1, if_neg (by rw [hsequential]; decide), mem_positions]
  simp

theorem analyzePIs_congr {table table' : Nat → SNLTruthTable}
    (h : m.IsCombinational → ∀ pin ∈ m.bitTerms, pin.direction ≠ .Input →
      isFreeTable (table pin.orderID) = isFreeTable (table' pin.orderID)) (i : Nat) :
    i ∈ m.analyzePIs table ↔ i ∈ m.analyzePIs table' := by
  by_cases hcombinational : m.IsCombinational
  · rw [mem_analyzePIs_of_combinational hcombinational,
      mem_analyzePIs_of_combinational hcombinational]
    refine exists_congr fun pin => and_congr_right fun hpin => and_congr_right fun hdirection => ?_
    rw [h hcombinational pin (List.mem_of_getElem? hpin) hdirection]
  · unfold analyzePIs
    dsimp only
    split
    · rfl
    · rename_i hinputs
      split
      · rfl
      · rename_i hsequential
        -- no pin at all is left
        have hnone : ∀ pin ∈ m.bitTerms, pin.direction = .Output := by
          by_contra hsome
          push Not at hsome
          obtain ⟨pin, hpin, hdirection⟩ := hsome
          exact hcombinational ⟨⟨pin, hpin, hdirection⟩, by simpa using hsequential⟩
        have hempty : m.bitTerms = [] := by
          by_contra hne
          obtain ⟨pin, hpin⟩ := List.exists_mem_of_ne_nil _ hne
          refine hinputs ⟨List.countP_eq_zero.mpr fun pin hpin => by simp [hnone pin hpin], ?_⟩
          exact List.countP_pos_iff.mpr ⟨pin, hpin, by simp [hnone pin hpin]⟩
        simp [positions, hempty]

/-- The pin is compared: it has a clock relation, or the model is combinational, no multiplexer, and
no table of any of its outputs reads the pin. -/
def DependencyCompared (m : LeafModel) (q : Nat) : Prop :=
  ∃ pin, m.bitTerms[q]? = some pin ∧ pin.direction ≠ .Output ∧
    if m.isSequentialPOs then
      pin.clockRelatedInputs ≠ [] ∨ ∃ clock ∈ m.bitTerms, q ∈ clock.clockRelatedInputs
    else m.isMux2 = false ∧ ∀ output ∈ m.bitTerms, output.direction ≠ .Input →
      (m.truthTable output.orderID).isInitialized = true →
        containsDependencyBit (m.truthTable output.orderID).dependencies pin.orderID = false

theorem containsDependencyBit_poTruthTableDependencies (orderID : Nat) :
    containsDependencyBit m.poTruthTableDependencies orderID = true ↔
      ∃ output ∈ m.bitTerms, output.direction ≠ .Input ∧
        (m.truthTable output.orderID).isInitialized = true ∧
        containsDependencyBit (m.truthTable output.orderID).dependencies orderID = true := by
  have hfold : ∀ (pins : List SNLBitTerm) (merged : List Nat),
      containsDependencyBit (pins.foldl (fun merged pin =>
        if pin.direction = .Input then merged
        else if (m.truthTable pin.orderID).isInitialized then
          mergeDependencies merged (m.truthTable pin.orderID).dependencies
        else merged) merged) orderID = true ↔
      containsDependencyBit merged orderID = true ∨ ∃ output ∈ pins, output.direction ≠ .Input ∧
        (m.truthTable output.orderID).isInitialized = true ∧
        containsDependencyBit (m.truthTable output.orderID).dependencies orderID = true := by
    intro pins
    induction pins with
    | nil => simp
    | cons pin pins ih =>
      intro merged
      rw [List.foldl_cons, ih]
      by_cases hinput : pin.direction = .Input
      · simp [hinput]
      · by_cases hinitialized : (m.truthTable pin.orderID).isInitialized = true
        · simp [hinput, hinitialized, containsDependencyBit_merge, or_assoc]
        · simp [hinput, hinitialized]
  unfold poTruthTableDependencies
  rw [hfold]
  simp [containsDependencyBit]

theorem mem_analyzePOs {q : Nat} : q ∈ m.analyzePOs ↔ m.DependencyCompared q := by
  unfold analyzePOs DependencyCompared
  by_cases hsequential : m.isSequentialPOs = true
  · simp only [hsequential, if_true, List.mem_append, mem_positions, ← exists_or]
    refine exists_congr fun pin => ?_
    simp only [Bool.and_eq_true, Bool.not_eq_true', List.isEmpty_eq_false_iff, bne_iff_ne,
      List.contains_iff_mem, List.mem_flatMap]
    tauto
  · rw [if_neg hsequential]
    by_cases hmux : m.isMux2 = true
    · simp [hmux, hsequential]
    · rw [if_neg hmux, mem_positions]
      refine exists_congr fun pin => and_congr_right fun _ => ?_
      rw [if_neg hsequential, Bool.and_eq_true, bne_iff_ne]
      refine and_congr_right fun _ => ?_
      rw [Bool.not_eq_true', ← Bool.not_eq_true, containsDependencyBit_poTruthTableDependencies]
      simp only [Bool.not_eq_true] at hmux
      simp [hmux]

end LeafModel

namespace CutNetlist
variable {net : CutNetlist}

/-! ## The two scans -/

/-- The first instance of a model, in the order of the scans. -/
def firstOf (leaves : List LeafInstance) (model : Nat) : Option LeafInstance :=
  leaves.find? fun leaf => !leaf.inBoundary && leaf.model == model

/-- After the leaves `done` the cache holds the first instances, and the terminals are theirs,
moved to every instance. -/
structure ScanInv (analyze : LeafInstance → List Nat) (done : List LeafInstance) (s : Scan) :
    Prop where
  cache : ∀ model, s.modelCache model = (firstOf done model).map analyze
  terms : ∀ t, t ∈ s.terms ↔ ∃ leaf ∈ done, leaf.inBoundary = false ∧
    ∃ first, firstOf done leaf.model = some first ∧ ∃ i ∈ analyze first, t = leaf.firstTerm + i

theorem firstOf_append (done : List LeafInstance) (leaf : LeafInstance) (model : Nat) :
    firstOf (done ++ [leaf]) model = (firstOf done model).or
      (if leaf.inBoundary = false ∧ leaf.model = model then some leaf else none) := by
  unfold firstOf
  rw [List.find?_append, List.find?_singleton]
  simp

theorem firstOf_isSome {done : List LeafInstance} {leaf : LeafInstance} (hleaf : leaf ∈ done)
    (hfree : leaf.inBoundary = false) : ∃ first, firstOf done leaf.model = some first := by
  apply Option.isSome_iff_exists.mp
  unfold firstOf
  rw [List.find?_isSome]
  exact ⟨leaf, hleaf, by simp [hfree]⟩

theorem firstOf_spec {done : List LeafInstance} {model : Nat} {first : LeafInstance}
    (h : firstOf done model = some first) :
    first ∈ done ∧ first.inBoundary = false ∧ first.model = model := by
  have hkeep := List.find?_some h
  simp only [Bool.and_eq_true, Bool.not_eq_true', beq_iff_eq] at hkeep
  exact ⟨List.mem_of_find?_eq_some h, hkeep⟩

theorem firstOf_append_of_mem {done : List LeafInstance} {old : LeafInstance} (hold : old ∈ done)
    (hfree : old.inBoundary = false) (leaf : LeafInstance) :
    firstOf (done ++ [leaf]) old.model = firstOf done old.model := by
  obtain ⟨first, hfirst⟩ := firstOf_isSome hold hfree
  rw [firstOf_append, hfirst]
  rfl

/-- One leaf keeps the invariant. -/
theorem ScanInv.step {analyze : LeafInstance → List Nat} {done : List LeafInstance} {s : Scan}
    (h : ScanInv analyze done s) (leaf : LeafInstance) :
    ScanInv analyze (done ++ [leaf]) (collectLeaf analyze s leaf) := by
  have hold : ∀ t, (∃ old ∈ done, old.inBoundary = false ∧
      ∃ first, firstOf (done ++ [leaf]) old.model = some first ∧
        ∃ i ∈ analyze first, t = old.firstTerm + i) ↔ t ∈ s.terms := by
    intro t
    rw [h.terms]
    refine exists_congr fun old => and_congr_right fun hmem => and_congr_right fun hfree => ?_
    rw [firstOf_append_of_mem hmem hfree]
  unfold collectLeaf
  split
  · rename_i hboundary
    constructor
    · intro model
      rw [h.cache, firstOf_append]
      simp [hboundary]
    · intro t
      rw [← hold]
      simp [or_and_right, exists_or, hboundary]
  · rename_i hfree
    rw [Bool.not_eq_true] at hfree
    -- the pins of the model, cached or not
    have hpins : ∃ first, firstOf (done ++ [leaf]) leaf.model = some first ∧
        (s.modelCache leaf.model).getD (analyze leaf) = analyze first := by
      rw [h.cache, firstOf_append]
      cases hfirst : firstOf done leaf.model with
      | none => exact ⟨leaf, by simp [hfree], rfl⟩
      | some first => exact ⟨first, rfl, rfl⟩
    obtain ⟨first, hfirst, hpins⟩ := hpins
    have hterms : ∀ t, t ∈ s.terms ++ (analyze first).map (leaf.firstTerm + ·) ↔
        ∃ old ∈ done ++ [leaf], old.inBoundary = false ∧
          ∃ first, firstOf (done ++ [leaf]) old.model = some first ∧
            ∃ i ∈ analyze first, t = old.firstTerm + i := by
      intro t
      rw [List.mem_append, ← hold, List.mem_map]
      simp [or_and_right, exists_or, hfree, hfirst, eq_comm (a := t)]
    split
    · rename_i cache hcache
      rw [hcache, Option.getD_some] at hpins
      refine ⟨fun model => ?_, fun t => ?_⟩
      · rw [h.cache, firstOf_append]
        by_cases hmodel : leaf.model = model
        · have hsome : (firstOf done model).isSome = true := by
            rw [h.cache, hmodel] at hcache
            cases hfound : firstOf done model with
            | none => simp [hfound] at hcache
            | some first => rfl
          rw [Option.or_of_isSome hsome]
        · simp [hmodel]
      · rw [hpins, hterms]
    · rename_i hcache
      rw [hcache, Option.getD_none] at hpins
      refine ⟨fun model => ?_, fun t => ?_⟩
      · dsimp only
        rw [firstOf_append, Function.update_apply]
        rw [h.cache, Option.map_eq_none_iff] at hcache
        by_cases hmodel : model = leaf.model
        · simp [hmodel, hcache, hfree]
        · rw [if_neg hmodel, h.cache, if_neg fun hboth => hmodel hboth.2.symm, Option.or_none]
      · rw [hpins, hterms]

theorem scanInv_foldl {analyze : LeafInstance → List Nat} (rest : List LeafInstance) :
    ∀ {done : List LeafInstance} {s : Scan}, ScanInv analyze done s →
      ScanInv analyze (done ++ rest) (rest.foldl (collectLeaf analyze) s) := by
  induction rest with
  | nil =>
    intro done s h
    simpa using h
  | cons leaf rest ih =>
    intro done s h
    have hrest := ih (h.step leaf)
    rwa [List.append_assoc] at hrest

theorem mem_collectLeaves {analyze : LeafInstance → List Nat} {t : Nat} :
    t ∈ net.collectLeaves analyze ↔ ∃ leaf ∈ net.leaves, leaf.inBoundary = false ∧
      ∃ first, firstOf net.leaves leaf.model = some first ∧
        ∃ i ∈ analyze first, t = leaf.firstTerm + i := by
  have hstart : ScanInv analyze [] {} := ⟨fun _ => rfl, by simp⟩
  exact (scanInv_foldl net.leaves hstart).terms t

/-! ## Terminals of a netlist -/

theorem terminal_unique {a b : LeafInstance} (ha : a ∈ net.leaves) (hb : b ∈ net.leaves)
    {i j : Nat} (hi : i < (net.design a.model).bitTerms.length)
    (hj : j < (net.design b.model).bitTerms.length) (h : a.firstTerm + i = b.firstTerm + j) :
    a = b ∧ i = j := by
  have hleaves := (List.nodup_append.mp net.distinct).2.1
  obtain ⟨-, hpairs⟩ := List.nodup_flatMap.mp hleaves
  by_cases hsame : a = b
  · subst hsame
    exact ⟨rfl, by omega⟩
  · have hsymm : Std.Symm (Function.onFun List.Disjoint fun leaf : LeafInstance =>
        (List.range (net.design leaf.model).bitTerms.length).map (leaf.firstTerm + ·)) :=
      ⟨fun _ _ h => h.symm⟩
    have hdisjoint := hpairs.forall ha hb hsame
    have hmem : a.firstTerm + i ∈
        (List.range (net.design b.model).bitTerms.length).map (b.firstTerm + ·) := by
      rw [h]
      exact List.mem_map_of_mem (List.mem_range.mpr hj)
    exact (hdisjoint (List.mem_map_of_mem (List.mem_range.mpr hi)) hmem).elim

theorem not_topTerm {leaf : LeafInstance} (hleaf : leaf ∈ net.leaves) {i : Nat}
    (hi : i < (net.design leaf.model).bitTerms.length) :
    leaf.firstTerm + i ∉ net.topTerms.map Prod.fst := by
  intro htop
  have hdisjoint := (List.nodup_append.mp net.distinct).2.2 _ htop (leaf.firstTerm + i)
  apply hdisjoint _ rfl
  rw [List.mem_flatMap]
  exact ⟨leaf, hleaf, List.mem_map_of_mem (List.mem_range.mpr hi)⟩

theorem not_boundary {leaf : LeafInstance} (hleaf : leaf ∈ net.leaves)
    (hfree : leaf.inBoundary = false) {i : Nat}
    (hi : i < (net.design leaf.model).bitTerms.length) :
    leaf.firstTerm + i ∉ net.boundaryInputs ++ net.boundaryOutputs := by
  intro hmem
  obtain ⟨other, hother, hboundary, j, hj, heq⟩ := net.boundary _ hmem
  obtain ⟨rfl, -⟩ := terminal_unique hleaf hother hi hj heq
  rw [hfree] at hboundary
  cases hboundary

/-- A pin of a free instance is scanned exactly when the first instance of its model has it. -/
theorem mem_collectLeaves_pin {analyze : LeafInstance → List Nat}
    (hpins : ∀ leaf, ∀ i ∈ analyze leaf, i < (net.design leaf.model).bitTerms.length)
    {leaf : LeafInstance} (hleaf : leaf ∈ net.leaves) (hfree : leaf.inBoundary = false) {i : Nat}
    (hi : i < (net.design leaf.model).bitTerms.length) :
    leaf.firstTerm + i ∈ net.collectLeaves analyze ↔
      ∃ first, firstOf net.leaves leaf.model = some first ∧ i ∈ analyze first := by
  rw [mem_collectLeaves]
  constructor
  · intro h
    obtain ⟨other, hother, -, first, hfirst, j, hj, heq⟩ := h
    have hlt := hpins first j hj
    rw [(firstOf_spec hfirst).2.2] at hlt
    obtain ⟨rfl, rfl⟩ := terminal_unique hleaf hother hi hlt heq
    exact ⟨first, hfirst, hj⟩
  · intro h
    obtain ⟨first, hfirst, hmem⟩ := h
    exact ⟨leaf, hleaf, hfree, first, hfirst, i, hmem, rfl⟩

theorem topInputs_sub {t : Nat} (h : t ∈ net.topInputs) : t ∈ net.topTerms.map Prod.fst := by
  obtain ⟨term, hterm, rfl⟩ := List.mem_map.mp h
  exact List.mem_map_of_mem (List.mem_of_mem_filter hterm)

theorem topOutputs_sub {t : Nat} (h : t ∈ net.topOutputs) : t ∈ net.topTerms.map Prod.fst := by
  obtain ⟨term, hterm, rfl⟩ := List.mem_map.mp h
  exact List.mem_map_of_mem (List.mem_of_mem_filter hterm)

/-! ## Cut points, instance by instance -/

theorem mem_collectInputs {t : Nat} : t ∈ net.collectInputs ↔
    t ∈ net.boundaryInputs ∨ t ∈ net.topInputs ∨ t ∈ net.collectLeaves net.leafPIs := by
  simp [collectInputs]

theorem mem_inputsAlone {t : Nat} : t ∈ net.inputsAlone ↔
    t ∈ net.boundaryInputs ∨ t ∈ net.topInputs ∨ ∃ leaf ∈ net.leaves, leaf.inBoundary = false ∧
      ∃ i ∈ net.leafPIs leaf, t = leaf.firstTerm + i := by
  simp [inputsAlone, and_assoc, eq_comm (a := t)]

theorem lt_of_mem_leafPIs (leaf : LeafInstance) :
    ∀ i ∈ net.leafPIs leaf, i < (net.design leaf.model).bitTerms.length :=
  fun _ => LeafModel.lt_of_mem_analyzePIs

theorem mem_collectInputs_pin {leaf : LeafInstance} (hleaf : leaf ∈ net.leaves)
    (hfree : leaf.inBoundary = false) {i : Nat}
    (hi : i < (net.design leaf.model).bitTerms.length) :
    leaf.firstTerm + i ∈ net.collectInputs ↔
      ∃ first, firstOf net.leaves leaf.model = some first ∧ i ∈ net.leafPIs first := by
  have hboundary := not_boundary hleaf hfree hi
  rw [List.mem_append, not_or] at hboundary
  have htop := fun h => not_topTerm hleaf hi (topInputs_sub h)
  rw [mem_collectInputs, or_iff_right hboundary.1, or_iff_right htop,
    mem_collectLeaves_pin lt_of_mem_leafPIs hleaf hfree hi]

theorem mem_inputsAlone_pin {leaf : LeafInstance} (hleaf : leaf ∈ net.leaves)
    (hfree : leaf.inBoundary = false) {i : Nat}
    (hi : i < (net.design leaf.model).bitTerms.length) :
    leaf.firstTerm + i ∈ net.inputsAlone ↔ i ∈ net.leafPIs leaf := by
  have hboundary := not_boundary hleaf hfree hi
  rw [List.mem_append, not_or] at hboundary
  have htop := fun h => not_topTerm hleaf hi (topInputs_sub h)
  rw [mem_inputsAlone, or_iff_right hboundary.1, or_iff_right htop]
  constructor
  · intro h
    obtain ⟨other, hother, -, j, hj, heq⟩ := h
    obtain ⟨rfl, rfl⟩ := terminal_unique hleaf hother hi (lt_of_mem_leafPIs other j hj) heq
    exact hj
  · exact fun h => ⟨leaf, hleaf, hfree, i, h, rfl⟩

/-- Instances of one combinational model agree on which outputs have a function that is no
constant. -/
def TablesAgree (net : CutNetlist) : Prop :=
  ∀ leaf ∈ net.leaves, ∀ other ∈ net.leaves, leaf.inBoundary = false → other.inBoundary = false →
    leaf.model = other.model → (net.design leaf.model).IsCombinational →
    ∀ pin ∈ (net.design leaf.model).bitTerms, pin.direction ≠ .Input →
      LeafModel.isFreeTable (leaf.truthTable pin.orderID) =
        LeafModel.isFreeTable (other.truthTable pin.orderID)

theorem leafPIs_first_iff (h : net.TablesAgree) {leaf first : LeafInstance}
    (hleaf : leaf ∈ net.leaves) (hfree : leaf.inBoundary = false)
    (hfirst : firstOf net.leaves leaf.model = some first) (i : Nat) :
    i ∈ net.leafPIs first ↔ i ∈ net.leafPIs leaf := by
  obtain ⟨hmem, hfirstFree, hmodel⟩ := firstOf_spec hfirst
  unfold leafPIs
  rw [hmodel]
  apply LeafModel.analyzePIs_congr
  intro hcombinational pin hpin hdirection
  exact (h leaf hleaf first hmem hfree hfirstFree hmodel.symm hcombinational pin hpin
    hdirection).symm

theorem collectInputs_eq_inputsAlone (h : net.TablesAgree) :
    net.collectInputs = net.inputsAlone := by
  have hleaves : ∀ t, t ∈ net.collectLeaves net.leafPIs ↔ ∃ leaf ∈ net.leaves,
      leaf.inBoundary = false ∧ ∃ i ∈ net.leafPIs leaf, t = leaf.firstTerm + i := by
    intro t
    rw [mem_collectLeaves]
    refine exists_congr fun leaf => and_congr_right fun hleaf => and_congr_right fun hfree => ?_
    obtain ⟨first, hfirst⟩ := firstOf_isSome hleaf hfree
    simp only [hfirst, Option.some.injEq, exists_eq_left', leafPIs_first_iff h hleaf hfree hfirst]
  unfold collectInputs inputsAlone
  congr 1
  ext t
  simp [hleaves, and_assoc, eq_comm (a := t)]

/-- The table that the first instance of the model has decides for every instance. -/
theorem mem_collectInputs_iff_first {leaf first : LeafInstance} (hleaf : leaf ∈ net.leaves)
    (hfree : leaf.inBoundary = false) (hfirst : firstOf net.leaves leaf.model = some first)
    (hcombinational : (net.design leaf.model).IsCombinational) {i : Nat} {pin : SNLBitTerm}
    (hpin : (net.design leaf.model).bitTerms[i]? = some pin) (hdirection : pin.direction ≠ .Input) :
    leaf.firstTerm + i ∈ net.collectInputs ↔
      LeafModel.isFreeTable (first.truthTable pin.orderID) = true := by
  have hi := (List.getElem?_eq_some_iff.mp hpin).1
  rw [mem_collectInputs_pin hleaf hfree hi, hfirst]
  simp only [Option.some.injEq, exists_eq_left', leafPIs]
  rw [(firstOf_spec hfirst).2.2, LeafModel.mem_analyzePIs_of_combinational hcombinational]
  simp [hpin, hdirection]

/-- The cut points are those of every instance on its own exactly when instances of one
combinational model agree on which outputs are constant or without a table. -/
theorem classifiedAlone_iff : net.ClassifiedAlone ↔ net.TablesAgree := by
  constructor
  · intro h leaf hleaf other hother hfree hotherFree hmodel hcombinational pin hpin hdirection
    obtain ⟨first, hfirst⟩ := firstOf_isSome hleaf hfree
    -- the first instance of the model has the tables of every instance
    have hagree : ∀ leaf' ∈ net.leaves, leaf'.inBoundary = false → leaf'.model = leaf.model →
        LeafModel.isFreeTable (leaf'.truthTable pin.orderID) =
          LeafModel.isFreeTable (first.truthTable pin.orderID) := by
      intro leaf' hleaf' hfree' hmodel'
      rw [← hmodel'] at hfirst hcombinational hpin
      obtain ⟨i, hpin⟩ := List.mem_iff_getElem?.mp hpin
      have hi := (List.getElem?_eq_some_iff.mp hpin).1
      have hcollected := mem_collectInputs_iff_first hleaf' hfree' hfirst hcombinational hpin
        hdirection
      rw [h.inputs, mem_inputsAlone_pin hleaf' hfree' hi, leafPIs,
        LeafModel.mem_analyzePIs_of_combinational hcombinational] at hcollected
      rw [Bool.eq_iff_iff, ← hcollected]
      simp [hpin, hdirection]
    rw [hagree leaf hleaf hfree rfl, hagree other hother hotherFree hmodel.symm]
  · intro h
    refine ⟨collectInputs_eq_inputsAlone h, ?_⟩
    intro leaf hleaf hfree hinputs hsequential i pin hpin hcollected
    have hi := (List.getElem?_eq_some_iff.mp hpin).1
    rw [collectInputs_eq_inputsAlone h, mem_inputsAlone_pin hleaf hfree hi, leafPIs,
      LeafModel.mem_analyzePIs_of_combinational ⟨hinputs, hsequential⟩] at hcollected
    obtain ⟨pin', hpin', -, htable⟩ := hcollected
    rw [hpin] at hpin'
    cases hpin'
    exact htable

/-- A table over one input. -/
def bufferTable : SNLTruthTable := ⟨true, false, false, [1]⟩

def zeroTable : SNLTruthTable := ⟨true, true, false, [0]⟩

def lutModel : LeafModel where
  bitTerms := [⟨.Input, 0, [], []⟩, ⟨.Output, 1, [], []⟩]
  truthTable _ := bufferTable

/-- Two instances of one look-up table, the first programmed constant. -/
def lutNetlist : CutNetlist where
  design _ := lutModel
  leaves := [⟨0, 10, fun _ => zeroTable, false⟩, ⟨0, 20, fun _ => bufferTable, false⟩]
  topTerms := [(1, .Input), (2, .Output), (3, .Output)]
  iso t := some ⟨false, [if t = 2 then 11 else if t = 3 then 21 else 1]⟩
  distinct := by decide
  boundary := by decide

/-- The output of the second look-up table becomes a cut point, though its table is a function. -/
theorem lutNetlist_not_classifiedAlone : ¬ lutNetlist.ClassifiedAlone := by
  intro h
  have hcollected : 20 + 1 ∈ lutNetlist.collectInputs := by
    rw [mem_collectInputs]
    decide
  have hfree := h.combinational ⟨0, 20, fun _ => bufferTable, false⟩ (by simp [lutNetlist]) rfl
    (by decide) (by decide) 1 ⟨.Output, 1, [], []⟩ rfl hcollected
  revert hfree
  decide

/-! ## Pins that are read and pins that are compared -/

theorem lt_of_mem_leafPOs (leaf : LeafInstance) :
    ∀ i ∈ net.leafPOs leaf, i < (net.design leaf.model).bitTerms.length :=
  fun _ => LeafModel.lt_of_mem_analyzePOs

theorem isRoot_iff {t : Nat} :
    net.IsRoot t ↔ t ∈ net.outputsSet ∧ (net.iso t).isSome = true := by
  have hmem : ∀ out : Nat × Option CollectSkip,
      out ∈ ((net.outputsSet.sort (· ≤ ·)).filterMap fun out =>
        (net.iso out).map fun iso => (out, collectSkip iso)) ↔
      out.1 ∈ net.outputsSet ∧ ∃ iso, net.iso out.1 = some iso ∧ collectSkip iso = out.2 := by
    intro out
    obtain ⟨t, skip⟩ := out
    simp only [List.mem_filterMap, Finset.mem_sort, Option.map_eq_some_iff, Prod.mk.injEq]
    constructor
    · intro h
      obtain ⟨a, ha, iso, hiso, rfl, hskip⟩ := h
      exact ⟨ha, iso, hiso, hskip⟩
    · intro h
      obtain ⟨ha, iso, hiso, hskip⟩ := h
      exact ⟨t, ha, iso, hiso, rfl, hskip⟩
  unfold IsRoot collectOutputs
  simp only [List.mem_filterMap (f := fun out : Nat × Option CollectSkip => _), hmem]
  constructor
  · intro h
    obtain ⟨out, ⟨hout, iso, hiso, -⟩, hkept⟩ | ⟨skip, out, ⟨hout, iso, hiso, -⟩, hkept⟩ := h
    · have hsame : out.1 = t := by
        split at hkept
        · cases hkept
        · exact Option.some.inj hkept
      rw [← hsame]
      exact ⟨hout, by simp [hiso]⟩
    · obtain ⟨_, -, heq⟩ := Option.map_eq_some_iff.mp hkept
      have hsame : out.1 = t := congrArg Prod.fst heq
      rw [← hsame]
      exact ⟨hout, by simp [hiso]⟩
  · intro h
    obtain ⟨iso, hiso⟩ := Option.isSome_iff_exists.mp h.2
    cases hskip : collectSkip iso with
    | none => exact .inl ⟨(t, none), ⟨h.1, iso, hiso, hskip⟩, by simp⟩
    | some skip => exact .inr ⟨skip, (t, some skip), ⟨h.1, iso, hiso, hskip⟩, by simp⟩

/-- The pin of a free instance is a root exactly when it is connected and its model has it
compared. -/
theorem isRoot_pin {leaf : LeafInstance} (hleaf : leaf ∈ net.leaves)
    (hfree : leaf.inBoundary = false) {q : Nat}
    (hq : q < (net.design leaf.model).bitTerms.length) :
    net.IsRoot (leaf.firstTerm + q) ↔ (net.design leaf.model).DependencyCompared q ∧
      (net.iso (leaf.firstTerm + q)).isSome = true := by
  have hboundary := not_boundary hleaf hfree hq
  rw [List.mem_append, not_or] at hboundary
  have htop : leaf.firstTerm + q ∉ net.topOutputs :=
    fun h => not_topTerm hleaf hq (topOutputs_sub h)
  obtain ⟨first, hfirst⟩ := firstOf_isSome hleaf hfree
  have hpins := mem_collectLeaves_pin lt_of_mem_leafPOs hleaf hfree hq
  simp only [hfirst, Option.some.injEq, exists_eq_left', leafPOs, (firstOf_spec hfirst).2.2,
    LeafModel.mem_analyzePOs] at hpins
  rw [isRoot_iff, ← hpins]
  unfold outputsSet
  simp [hboundary.2, htop]

/-- The outputs of the leaf that are cut, as the first instance of its model decides. -/
def IsCutPin (net : CutNetlist) (leaf : LeafInstance) (o : Nat) : Prop :=
  ∃ first, firstOf net.leaves leaf.model = some first ∧ o ∈ net.leafPIs first

/-- Every pin that a cut output may read has a clock relation or, in a combinational model that is
no multiplexer, is read by no table. -/
def ReadsCompared (net : CutNetlist) : Prop :=
  ∀ leaf ∈ net.leaves, leaf.inBoundary = false → ∀ q,
    net.ReadByCut leaf (net.IsCutPin leaf) q → (net.design leaf.model).DependencyCompared q

theorem readByCut_congr {leaf : LeafInstance} {cut cut' : Nat → Prop} {q : Nat}
    (h : ∀ o < (net.design leaf.model).bitTerms.length, cut o → cut' o)
    (hread : net.ReadByCut leaf cut q) : net.ReadByCut leaf cut' q := by
  obtain ⟨o, output, pin, houtput, hdirection, hcut, hrest⟩ := hread
  exact ⟨o, output, pin, houtput, hdirection,
    h o (List.getElem?_eq_some_iff.mp houtput).1 hcut, hrest⟩

theorem cutComplete_iff_readsCompared : net.CutComplete ↔ net.ReadsCompared := by
  refine forall_congr' fun leaf => forall_congr' fun hleaf => forall_congr' fun hfree =>
    forall_congr' fun q => ?_
  have hread : net.ReadByCut leaf (fun o => leaf.firstTerm + o ∈ net.collectInputs) q ↔
      net.ReadByCut leaf (net.IsCutPin leaf) q :=
    ⟨readByCut_congr fun _ ho => (mem_collectInputs_pin hleaf hfree ho).mp,
      readByCut_congr fun _ ho => (mem_collectInputs_pin hleaf hfree ho).mpr⟩
  rw [hread]
  refine forall_congr' fun h => ?_
  obtain ⟨o, output, pin, -, -, -, -, hpin, -, hconnected, -⟩ := h
  have hq := (List.getElem?_eq_some_iff.mp hpin).1
  rw [isRoot_pin hleaf hfree hq]
  exact and_iff_left hconnected

/-! ## Runs over a complete cut -/

theorem cutPoint_cases (c : net.CutPoint) : net.IsEnvironment c.1 ∨
    ∃ leaf ∈ net.leaves, leaf.inBoundary = false ∧ ∃ o, c.1 = leaf.firstTerm + o := by
  obtain h | h | h := mem_collectInputs.mp c.2
  · exact .inl (.inl h)
  · exact .inl (.inr h)
  · obtain ⟨leaf, hleaf, hfree, -, -, o, -, heq⟩ := mem_collectLeaves.mp h
    exact .inr ⟨leaf, hleaf, hfree, o, heq⟩

/-- Over a complete cut, a run of one design is a run of the other. -/
theorem IsRun.of_roots (hcomplete : net.CutComplete) {cells : net.CutCells}
    {root0 root1 : Nat → (net.CutPoint → Bool) → Bool}
    (hroots : ∀ t, net.IsRoot t → root0 t = root1 t) {x : Nat → net.CutPoint → Bool}
    (h : net.IsRun cells root0 x) : net.IsRun cells root1 x := by
  intro n c hcell
  rw [h n c hcell]
  obtain henvironment | ⟨leaf, hleaf, hfree, o, heq⟩ := cutPoint_cases c
  · exact absurd henvironment hcell
  · apply cells.reads c leaf o hleaf hfree heq
    intro m q hread
    have hcut : net.ReadByCut leaf (fun o => leaf.firstTerm + o ∈ net.collectInputs) q := by
      apply readByCut_congr _ hread
      intro o' _ hsame
      rw [hsame, ← heq]
      exact c.2
    rw [hroots _ (hcomplete leaf hleaf hfree q hcut)]

/-- The environment decides a run. -/
theorem IsRun.unique {cells : net.CutCells} {root : Nat → (net.CutPoint → Bool) → Bool}
    (hcausal : net.IsCausal cells root) {x x' : Nat → net.CutPoint → Bool}
    (hx : net.IsRun cells root x) (hx' : net.IsRun cells root x')
    (henvironment : ∀ n (c : net.CutPoint), net.IsEnvironment c.1 → x n c = x' n c) : x = x' := by
  obtain ⟨before, hwf, hreads⟩ := hcausal
  have hall : ∀ nc : Nat × net.CutPoint, x nc.1 nc.2 = x' nc.1 nc.2 := by
    intro nc
    induction nc using hwf.induction with
    | _ nc ih =>
      obtain ⟨n, c⟩ := nc
      by_cases hc : net.IsEnvironment c.1
      · exact henvironment n c hc
      · rw [hx n c hc, hx' n c hc]
        apply hreads n c hc
        intro m d hd
        exact hd.elim (ih (m, d)) (henvironment m d)
  funext n c
  exact hall (n, c)

theorem rootsDecideOutputs (hcomplete : net.CutComplete) : net.RootsDecideOutputs := by
  intro cells root0 root1 hroots hcausal x0 x1 hx0 hx1 henvironment n t ht hconnected
  have hsame : x0 = x1 := (hx0.of_roots hcomplete hroots).unique hcausal hx1 henvironment
  have hroot : net.IsRoot t := by
    rw [isRoot_iff]
    refine ⟨?_, hconnected⟩
    unfold outputsSet
    simp [ht]
  rw [hsame, hroots t hroot]

/-- The cut is complete, and equal roots decide the top outputs, exactly when every pin that a cut
output may read has a clock relation or, without clocks, is read by no table of its model. -/
theorem cutComplete_iff :
    (net.CutComplete ∧ net.RootsDecideOutputs) ↔ net.ReadsCompared := by
  rw [← cutComplete_iff_readsCompared]
  exact ⟨And.left, fun h => ⟨h, rootsDecideOutputs h⟩⟩

/-- A flop with an asynchronous reset: clock, data, output, reset. -/
def resetFlop : LeafModel where
  bitTerms := [⟨.Input, 0, [1], [2]⟩, ⟨.Input, 1, [], []⟩, ⟨.Output, 2, [], []⟩,
    ⟨.Input, 3, [], []⟩]
  truthTable _ := ⟨false, false, false, []⟩

def resetNetlist : CutNetlist where
  design _ := resetFlop
  leaves := [⟨0, 10, resetFlop.truthTable, false⟩]
  topTerms := [(1, .Input), (2, .Input), (3, .Input), (4, .Output)]
  iso t := some ⟨false, [if t = 10 then 1 else if t = 11 then 2 else if t = 13 then 3 else 12]⟩
  distinct := by decide
  boundary := by decide

/-- The output of the flop is cut, and its reset is no root. -/
theorem resetNetlist_not_complete :
    ¬ (resetNetlist.CutComplete ∧ resetNetlist.RootsDecideOutputs) := by
  intro h
  have hcut : 10 + 2 ∈ resetNetlist.collectInputs := by
    rw [mem_collectInputs]
    decide
  have hroot := h.1 ⟨0, 10, resetFlop.truthTable, false⟩ (by simp [resetNetlist]) rfl 3
    ⟨2, ⟨.Output, 2, [], []⟩, ⟨.Input, 3, [], []⟩, rfl, by decide, hcut, rfl, rfl, by decide, rfl,
      by simp [MayDepend, resetFlop]⟩
  rw [isRoot_iff] at hroot
  revert hroot
  decide

end CutNetlist
end KeplerFormal
