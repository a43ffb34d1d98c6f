import KeplerFormal.Core.Walk
import KeplerFormal.L1Formula.BoolExpr
import Mathlib.Data.List.Infix

/-!
# Roots of requested terminals (`src/sec/model/SequentialDesignModel.cpp`)

A formula that extraction needs is built at a root: the walk from the requested terminal follows
drivers, assignment cells and cells that by name are clock-tree buffers.

* `RootNetlist`: terminals, nets and cells; `Settled`: the values of an assignment.
* `findBuildableOutputRoot`, `materializedExprs`: the walk, and the formulas of a batch.
* `PassesDriver`: a truth table that passes one driver on, whatever the pins hold that the nets
  leave open.
* `keepsFunction_iff`: every requested terminal gets its own function where the cells that are
  stepped over as clock-tree buffers have such tables, and only there if nothing around a cell
  hides what its table does.
-/
namespace KeplerFormal

open Core

inductive Direction where
  | input | output | inout
  deriving DecidableEq

inductive NetConstant where
  | zero | one | other
  deriving DecidableEq

/-- The terminals that one net joins. -/
structure DNLIso (n : Nat) where
  constant : Option NetConstant := none
  drivers : List (Fin n)

/-- What the walk reads of a netlist with `n` terminals. `getCombinatorialInputs` and `bitTerms`
give terminals of the same instance. -/
structure RootNetlist (n : Nat) where
  isNull : Fin n → Bool := fun _ => false
  isTopPort : Fin n → Bool
  direction : Fin n → Direction
  isBoundaryInput : Fin n → Bool := fun _ => false
  getTerminalDisplayName : Fin n → String
  pinName : Fin n → String
  instanceName : Fin n → Option String
  getIso : Fin n → Option (DNLIso n)
  getCombinatorialInputs : Fin n → List (Fin n)
  bitTerms : Fin n → List (Fin n)
  isAssign : Fin n → Bool := fun _ => false
  /-- The truth table of a combinational output over its combinatorial inputs. -/
  truthTable : Fin n → Option (List Bool → Bool)

/-- mirrors src/sec/model/SequentialDesignModel.cpp:1117-1123 -/
def normalizePinName (name : String) : List Char := name.toList.map Char.toUpper

def nameContains (name : List Char) (part : String) : Bool := part.toList <:+: name

/-- mirrors src/sec/model/SequentialDesignModel.cpp:1771-1784 -/
def isClockTreeCarrierBoundaryName (displayName : String) : Bool :=
  let normalized := normalizePinName displayName
  if nameContains normalized "CLOCK_GATE" || nameContains normalized "EN_LATCH" then false
  else nameContains normalized "CLKBUF" || nameContains normalized "CLKLOAD" ||
    nameContains normalized "CLKNET" || nameContains normalized "_CLK." ||
    nameContains normalized "_CLOCK."

/-- mirrors src/sec/model/SequentialDesignModel.cpp:1810-1820 -/
def isClockTreeBufferCellName (name : String) : Bool :=
  let normalized := normalizePinName name
  if nameContains normalized "CLOCK_GATE" || nameContains normalized "EN_LATCH" then false
  else nameContains normalized "CLKBUF" || nameContains normalized "CLKLOAD"

/-- The driver of a net that has one and is no constant. -/
def DNLIso.singleDriver {n : Nat} (iso : DNLIso n) : Option (Fin n) :=
  match iso.constant, iso.drivers with
  | none, [driver] => some driver
  | _, _ => none

namespace RootNetlist
variable {n : Nat} (net : RootNetlist n)

/-- mirrors src/sec/model/SequentialDesignModel.cpp:1786-1808 -/
def isClockTreeCarrierTerminalName (term : Fin n) : Bool :=
  if net.isNull term then false
  else isClockTreeCarrierBoundaryName (net.getTerminalDisplayName term) ||
    isClockTreeCarrierBoundaryName (net.pinName term) ||
    (net.instanceName term).any isClockTreeCarrierBoundaryName

/-- mirrors src/sec/model/SequentialDesignModel.cpp:1823-1859 -/
def isClockTreeBufferCell (term : Fin n) : Bool :=
  if net.isNull term || net.isTopPort term then false
  else net.isClockTreeCarrierTerminalName term ||
    isClockTreeBufferCellName (net.pinName term) ||
    (net.instanceName term).any isClockTreeBufferCellName

/-- mirrors src/sec/model/SequentialDesignModel.cpp:1880-1901 -/
def getSingleInputDriverTerm (inputTerm : Fin n) : Option (Fin n) :=
  if net.isNull inputTerm then none else (net.getIso inputTerm).bind DNLIso.singleDriver

/-- The drivers of the terminals that are not outputs. -/
def inputDrivers (terms : List (Fin n)) : List (Fin n) :=
  terms.filterMap fun term =>
    if net.direction term = .output then none else net.getSingleInputDriverTerm term

/-- mirrors src/sec/model/SequentialDesignModel.cpp:1903-1943 -/
def getClockTreeBufferSourceDriverTerm (outputTerm : Fin n) : Option (Fin n) :=
  let combinatorial := net.inputDrivers (net.getCombinatorialInputs outputTerm)
  let sourceDrivers :=
    if combinatorial = [] then net.inputDrivers (net.bitTerms outputTerm) else combinatorial
  match sourceDrivers.dedup with
  | [driver] => some driver
  | _ => none

/-- mirrors src/sec/model/SequentialDesignModel.cpp:744-773 -/
def passthroughDriver : List (Fin n) → Option (Fin n) → Option (Fin n)
  | [], driver => driver
  | inputTerm :: rest, driver =>
    if net.direction inputTerm = .output then passthroughDriver rest driver
    else
      match net.getSingleInputDriverTerm inputTerm, driver with
      | some source, none => passthroughDriver rest (some source)
      | _, _ => none

/-- The driver that an output is stepped over to.
mirrors src/sec/model/SequentialDesignModel.cpp:729-779 -/
def outputDriver (term : Fin n) : Option (Fin n) :=
  match if net.isClockTreeBufferCell term then net.getClockTreeBufferSourceDriverTerm term
    else none with
  | some sourceDriver => some sourceDriver
  | none =>
    if net.isAssign term then net.passthroughDriver (net.getCombinatorialInputs term) none
    else none

/-- One step of the walk.
mirrors src/sec/model/SequentialDesignModel.cpp:713-797 -/
def rootMove (term : Fin n) : Move (Fin n) (Option (Fin n)) :=
  if net.isBoundaryInput term then .stop (some term)
  else if net.isNull term then .stop none
  else if net.isTopPort term ∧ net.direction term ≠ .output then .stop (some term)
  else if net.direction term = .output then
    match net.outputDriver term with
    | some driver => .go driver
    | none => .stop (some term)
  else
    match net.getIso term with
    | none => .stop none
    | some iso =>
      if iso.constant = some .zero ∨ iso.constant = some .one then .stop (some term)
      else
        match iso.singleDriver with
        | some driver => .go driver
        | none => .stop none

/-- mirrors src/sec/model/SequentialDesignModel.cpp:709-801 -/
def findBuildableOutputRoot (requestedTermID : Fin n) : Option (Option (Fin n)) :=
  walk net.rootMove none (n + 1) [] requestedTermID

/-- The root of a terminal, if the walk has one. -/
def rootOf (requestedTermID : Fin n) : Option (Fin n) :=
  (net.findBuildableOutputRoot requestedTermID).join

/-- The roots that are built, each once.
mirrors src/sec/model/SequentialDesignModel.cpp:802-827 -/
def normalizedRoots (requestedOutputs : List (Fin n)) (skipped : Fin n → Bool) : List (Fin n) :=
  ((requestedOutputs.filterMap net.rootOf).filter fun root => !skipped root).dedup

/-- The formulas of a batch: the one of a root goes to every terminal that has this root.
mirrors src/sec/model/SequentialDesignModel.cpp:939-961 -/
def materializedExprs (requestedOutputs : List (Fin n)) (skipped : Fin n → Bool)
    (builderExpr : Fin n → Option BoolExpr) : List (Fin n × BoolExpr) :=
  (net.normalizedRoots requestedOutputs skipped).flatMap fun root =>
    match builderExpr root with
    | none => []
    | some expr =>
      (root, expr) :: (requestedOutputs.filter fun term => net.rootOf term = some root).map (·, expr)

/-! ## Values -/

/-- The values of all terminals under an assignment of the inputs and states. -/
structure Settled (net : RootNetlist n) (val : Fin n → Bool) : Prop where
  wire : ∀ term iso driver, net.getIso term = some iso → iso.singleDriver = some driver →
    val term = val driver
  zero : ∀ term iso, net.getIso term = some iso → iso.constant = some .zero → val term = false
  one : ∀ term iso, net.getIso term = some iso → iso.constant = some .one → val term = true
  cell : ∀ term table, net.truthTable term = some table →
    val term = table ((net.getCombinatorialInputs term).map val)
  assign : ∀ term, net.isAssign term = true → ∀ inputTerm ∈ net.getCombinatorialInputs term,
    net.direction inputTerm ≠ .output → val term = val inputTerm

/-- An output that the walk steps over for its name. -/
structure SteppedOver (net : RootNetlist n) (term driver : Fin n) : Prop where
  output : net.direction term = .output
  named : net.isClockTreeBufferCell term = true
  source : net.getClockTreeBufferSourceDriverTerm term = some driver
  inner : net.isBoundaryInput term = false

/-- Values of a cell's pins that their nets allow while the followed driver has `value`. -/
structure PinsAllowed (net : RootNetlist n) (term driver : Fin n) (pins : Fin n → Bool)
    (value : Bool) : Prop where
  driven : ∀ pin ∈ net.getCombinatorialInputs term, ∀ iso, net.getIso pin = some iso →
    iso.singleDriver = some driver → pins pin = value
  zero : ∀ pin ∈ net.getCombinatorialInputs term, ∀ iso, net.getIso pin = some iso →
    iso.constant = some .zero → pins pin = false
  one : ∀ pin ∈ net.getCombinatorialInputs term, ∀ iso, net.getIso pin = some iso →
    iso.constant = some .one → pins pin = true

/-- The truth table yields the value of the driver for all values that the pins may have. -/
def PassesDriver (net : RootNetlist n) (term driver : Fin n) : Prop :=
  ∃ table, net.truthTable term = some table ∧ ∀ pins value,
    net.PinsAllowed term driver pins value →
      table ((net.getCombinatorialInputs term).map pins) = value

/-- Every cell that is stepped over for its name passes the driver that is followed. -/
def BuffersPass (net : RootNetlist n) : Prop :=
  ∀ term driver, net.SteppedOver term driver → net.PassesDriver term driver

/-- Nothing around a cell that is stepped over hides its function: its driver has a root, its
pins take all the values that their nets allow, and an output without a table, a state, takes
values of its own. -/
structure Unmasked (net : RootNetlist n) : Prop where
  rooted : ∀ term driver, net.SteppedOver term driver → ∃ root, net.rootOf driver = some root
  pins : ∀ term driver, net.SteppedOver term driver → ∀ pins value,
    net.PinsAllowed term driver pins value → ∃ val, net.Settled val ∧ val driver = value ∧
      ∀ pin ∈ net.getCombinatorialInputs term, val pin = pins pin
  state : ∀ term driver, net.SteppedOver term driver → net.truthTable term = none →
    ∃ val, net.Settled val ∧ val term ≠ val driver

/-- The walks end, a root has the value of the terminal that it is the root of, and what is
stored for a terminal is its own function. -/
structure KeepsFunction (net : RootNetlist n) : Prop where
  ends : ∀ term, ∃ root, net.findBuildableOutputRoot term = some root
  same : ∀ term root, net.rootOf term = some root → ∀ val, net.Settled val → val term = val root
  stored : ∀ requestedOutputs skipped builderExpr (value : Valuation → Fin n → Bool),
    (∀ σ, net.Settled (value σ)) →
    (∀ root expr, builderExpr root = some expr → ∀ σ, expr.eval σ = value σ root) →
    ∀ entry ∈ net.materializedExprs requestedOutputs skipped builderExpr,
      ∀ σ, entry.2.eval σ = value σ entry.1

variable {net}

/-! ## One step -/

theorem rootMove_eq_stop {term : Fin n} {answer : Option (Fin n)}
    (h : net.rootMove term = .stop answer) : answer = none ∨ answer = some term := by
  unfold rootMove at h
  repeat' split at h
  all_goals cases h
  all_goals simp

theorem rootMove_eq_go {term driver : Fin n} (h : net.rootMove term = .go driver) :
    (net.isBoundaryInput term = false ∧ net.direction term = .output ∧
      net.outputDriver term = some driver) ∨
    ∃ iso, net.getIso term = some iso ∧ iso.singleDriver = some driver := by
  unfold rootMove at h
  split at h
  · cases h
  rename_i hinner
  split at h
  · cases h
  split at h
  · cases h
  split at h
  · rename_i houtput
    split at h
    · rename_i hdriver
      cases h
      exact .inl ⟨Bool.eq_false_iff.mpr hinner, houtput, hdriver⟩
    · cases h
  split at h
  · cases h
  rename_i iso hiso
  split at h
  · cases h
  split at h
  · rename_i hdriver
    cases h
    exact .inr ⟨iso, hiso, hdriver⟩
  · cases h

/-- An assignment cell is stepped over to the driver of one of its inputs. -/
theorem passthroughDriver_eq_some {terms : List (Fin n)} {first : Option (Fin n)}
    {driver : Fin n} (h : net.passthroughDriver terms first = some driver) :
    first = some driver ∨ ∃ inputTerm ∈ terms, net.direction inputTerm ≠ .output ∧
      net.getSingleInputDriverTerm inputTerm = some driver := by
  induction terms generalizing first with
  | nil => exact .inl h
  | cons inputTerm rest ih =>
    unfold passthroughDriver at h
    split at h
    · rcases ih h with hfirst | ⟨i, hi, hdriver⟩
      · exact .inl hfirst
      · exact .inr ⟨i, List.mem_cons_of_mem _ hi, hdriver⟩
    · rename_i hinput
      split at h
      · rename_i source hsource
        rcases ih h with hfirst | ⟨i, hi, hdriver⟩
        · obtain rfl := Option.some.inj hfirst
          exact .inr ⟨inputTerm, List.mem_cons_self .., hinput, hsource⟩
        · exact .inr ⟨i, List.mem_cons_of_mem _ hi, hdriver⟩
      · cases h

theorem outputDriver_eq_some {term driver : Fin n} (h : net.outputDriver term = some driver) :
    (net.isClockTreeBufferCell term = true ∧
      net.getClockTreeBufferSourceDriverTerm term = some driver) ∨
    (net.isAssign term = true ∧ ∃ inputTerm ∈ net.getCombinatorialInputs term,
      net.direction inputTerm ≠ .output ∧
        net.getSingleInputDriverTerm inputTerm = some driver) := by
  unfold outputDriver at h
  split at h
  · rename_i hsource
    split at hsource
    · rename_i hnamed
      exact .inl ⟨hnamed, hsource.trans h⟩
    · cases hsource
  · split at h
    · rename_i hassign
      rcases passthroughDriver_eq_some h with hfirst | hinput
      · cases hfirst
      · exact .inr ⟨hassign, hinput⟩
    · cases h

theorem Settled.single_driver {val : Fin n → Bool} (hval : net.Settled val)
    {inputTerm driver : Fin n} (h : net.getSingleInputDriverTerm inputTerm = some driver) :
    val inputTerm = val driver := by
  unfold getSingleInputDriverTerm at h
  split at h
  · cases h
  · obtain ⟨iso, hiso, hdriver⟩ := Option.bind_eq_some_iff.mp h
    exact hval.wire inputTerm iso driver hiso hdriver

/-- A step keeps the value, unless it steps over a cell for its name. -/
theorem Settled.rootMove_go {val : Fin n → Bool} (hval : net.Settled val) {term driver : Fin n}
    (h : net.rootMove term = .go driver) : val term = val driver ∨ net.SteppedOver term driver := by
  rcases rootMove_eq_go h with ⟨hinner, houtput, hdriver⟩ | ⟨iso, hiso, hdriver⟩
  · rcases outputDriver_eq_some hdriver with ⟨hnamed, hsource⟩ | ⟨hassign, i, hi, hinput, hsource⟩
    · exact .inr ⟨houtput, hnamed, hsource, hinner⟩
    · exact .inl ((hval.assign term hassign i hi hinput).trans (hval.single_driver hsource))
  · exact .inl (hval.wire term iso driver hiso hdriver)

/-- A cell that is stepped over is no end of the walk. -/
theorem SteppedOver.rootMove_eq {term driver : Fin n} (h : net.SteppedOver term driver) :
    net.rootMove term = .go driver := by
  obtain ⟨houtput, hnamed, hsource, hinner⟩ := h
  have hreal : net.isNull term = false := by
    cases hnull : net.isNull term with
    | false => rfl
    | true => simp [isClockTreeBufferCell, hnull] at hnamed
  have hdriver : net.outputDriver term = some driver := by
    unfold outputDriver
    rw [if_pos hnamed, hsource]
  unfold rootMove
  simp [hinner, hreal, houtput, hdriver]

/-! ## The walk -/

theorem findBuildableOutputRoot_isSome (term : Fin n) :
    ∃ root, net.findBuildableOutputRoot term = some root :=
  walk_isSome List.nodup_nil (by simp) term

/-- The root of a terminal is the one that the steps lead to. -/
theorem rootOf_eq_some {term root : Fin n} :
    net.rootOf term = some root ↔ Leads net.rootMove term (some root) := by
  unfold rootOf
  rw [Option.join_eq_some_iff]
  constructor
  · intro h
    rcases leads_of_walk h with hcycle | hleads
    · cases hcycle
    · exact hleads
  · intro h
    have hwalk := walk_of_leads none h
    rw [Fintype.card_fin] at hwalk
    exact hwalk

/-- A settled assignment gives the pins values that their nets allow. -/
theorem Settled.pinsAllowed {val : Fin n → Bool} (hval : net.Settled val) (term driver : Fin n) :
    net.PinsAllowed term driver val (val driver) where
  driven pin _ iso hiso hdriver := hval.wire pin iso driver hiso hdriver
  zero pin _ iso hiso hzero := hval.zero pin iso hiso hzero
  one pin _ iso hiso hone := hval.one pin iso hiso hone

theorem PassesDriver.same {term driver : Fin n} (h : net.PassesDriver term driver)
    {val : Fin n → Bool} (hval : net.Settled val) : val term = val driver := by
  obtain ⟨table, htable, hpasses⟩ := h
  rw [hval.cell term table htable, hpasses val _ (hval.pinsAllowed term driver)]

/-- A walk over cells that pass their drivers keeps the value. -/
theorem BuffersPass.same (hpass : net.BuffersPass) {val : Fin n → Bool}
    (hval : net.Settled val) {term : Fin n} {answer : Option (Fin n)}
    (h : Leads net.rootMove term answer) : ∀ root, answer = some root → val term = val root := by
  induction h with
  | stop hstop =>
    intro root hroot
    subst hroot
    rcases rootMove_eq_stop hstop with hnone | hself
    · cases hnone
    · rw [Option.some.inj hself]
  | go hgo hrest ih =>
    intro root hroot
    refine Eq.trans ?_ (ih root hroot)
    rcases hval.rootMove_go hgo with hsame | hover
    · exact hsame
    · exact (hpass _ _ hover).same hval

/-- Every formula of a batch is stored for a root or for a terminal with that root. -/
theorem mem_materializedExprs {requestedOutputs : List (Fin n)} {skipped : Fin n → Bool}
    {builderExpr : Fin n → Option BoolExpr} {entry : Fin n × BoolExpr}
    (h : entry ∈ net.materializedExprs requestedOutputs skipped builderExpr) :
    ∃ root, builderExpr root = some entry.2 ∧
      (entry.1 = root ∨ net.rootOf entry.1 = some root) := by
  unfold materializedExprs at h
  obtain ⟨root, -, hentry⟩ := List.mem_flatMap.mp h
  split at hentry
  · cases hentry
  · rename_i expr hexpr
    rcases List.mem_cons.mp hentry with rfl | hentry
    · exact ⟨root, hexpr, .inl rfl⟩
    · obtain ⟨term, hterm, rfl⟩ := List.mem_map.mp hentry
      exact ⟨root, hexpr, .inr (of_decide_eq_true (List.mem_filter.mp hterm).2)⟩

theorem BuffersPass.keepsFunction (h : net.BuffersPass) : net.KeepsFunction := by
  have hsame : ∀ term root, net.rootOf term = some root → ∀ val, net.Settled val →
      val term = val root := fun term root hroot val hval =>
    h.same hval (rootOf_eq_some.mp hroot) root rfl
  refine ⟨findBuildableOutputRoot_isSome, hsame, ?_⟩
  intro requestedOutputs skipped builderExpr value hvalue hbuilder entry hentry σ
  obtain ⟨root, hexpr, hroot⟩ := mem_materializedExprs hentry
  rw [hbuilder root entry.2 hexpr σ]
  rcases hroot with rfl | hroot
  · rfl
  · exact (hsame entry.1 root hroot _ (hvalue σ)).symm

/-- A cell that is stepped over has the values of its driver. -/
theorem KeepsFunction.stepped (h : net.KeepsFunction) {term driver root : Fin n}
    (hover : net.SteppedOver term driver) (hroot : net.rootOf driver = some root)
    {val : Fin n → Bool} (hval : net.Settled val) : val term = val driver := by
  have hterm : net.rootOf term = some root :=
    rootOf_eq_some.mpr (.go hover.rootMove_eq (rootOf_eq_some.mp hroot))
  rw [h.same term root hterm val hval, h.same driver root hroot val hval]

/-- The normalisation to roots keeps every function where the cells that are stepped over for
their names have tables that pass the driver; where nothing hides a table, only there. -/
theorem keepsFunction_iff (net : RootNetlist n) :
    (net.BuffersPass → net.KeepsFunction) ∧
      (net.Unmasked → net.KeepsFunction → net.BuffersPass) := by
  refine ⟨BuffersPass.keepsFunction, fun hunmasked h term driver hover => ?_⟩
  obtain ⟨root, hroot⟩ := hunmasked.rooted term driver hover
  cases htable : net.truthTable term with
  | none =>
    obtain ⟨val, hval, hdiffers⟩ := hunmasked.state term driver hover htable
    exact absurd (h.stepped hover hroot hval) hdiffers
  | some table =>
    refine ⟨table, htable, fun pins value hpins => ?_⟩
    obtain ⟨val, hval, hdriver, hsame⟩ := hunmasked.pins term driver hover pins value hpins
    have hmap : (net.getCombinatorialInputs term).map pins =
        (net.getCombinatorialInputs term).map val :=
      List.map_congr_left fun pin hpin => (hsame pin hpin).symm
    rw [hmap, ← hval.cell term table htable, h.stepped hover hroot hval, hdriver]

/-- A top clock, and a gate of a clock tree whose enable pin is tied to one. -/
def tiedTree : RootNetlist 4 where
  isTopPort term := term = 0
  direction term := if term = 3 then .output else .input
  getTerminalDisplayName term := ["clk[0]", "clkbuf_1.A[0]", "clkbuf_1.B[0]", "clkbuf_1.Y[0]"][term]
  pinName term := ["clk", "A", "B", "Y"][term]
  instanceName term := if term = 0 then none else some "clkbuf_1"
  getIso term :=
    if term = 3 then none
    else if term = 2 then some { constant := some .one, drivers := [] }
    else some { drivers := [0] }
  getCombinatorialInputs term := if term = 3 then [1, 2] else []
  bitTerms term := if term = 0 then [] else [1, 2, 3]
  truthTable term := if term = 3 then some fun pins => pins.all id else none

/-- The gate is stepped over to the clock and passes it. -/
theorem tiedTree_keepsFunction : tiedTree.rootOf 3 = some 0 ∧ tiedTree.KeepsFunction := by
  refine ⟨by decide, (keepsFunction_iff tiedTree).1 fun term driver hover => ?_⟩
  have hgate : ∀ term, tiedTree.direction term = .output → term = 3 := by decide
  obtain rfl := hgate term hover.output
  obtain rfl : driver = 0 := (Option.some.inj hover.source).symm
  refine ⟨_, rfl, fun pins value hpins => ?_⟩
  have hA : pins 1 = value := hpins.driven 1 (by decide) _ rfl rfl
  have hB : pins 2 = true := hpins.one 2 (by decide) _ rfl rfl
  show (pins 1 && (pins 2 && true)) = value
  rw [hA, hB, Bool.and_true, Bool.and_true]

/-- A top clock, and an inverter of a clock tree. -/
def invertedTree : RootNetlist 3 where
  isTopPort term := term = 0
  direction term := if term = 2 then .output else .input
  getTerminalDisplayName term := ["clk[0]", "clkbuf_0.A[0]", "clkbuf_0.Y[0]"][term]
  pinName term := ["clk", "A", "Y"][term]
  instanceName term := if term = 0 then none else some "clkbuf_0"
  getIso term := if term = 2 then none else some { drivers := [0] }
  getCombinatorialInputs term := if term = 2 then [1] else []
  bitTerms term := if term = 0 then [] else [1, 2]
  truthTable term := if term = 2 then some fun pins => !pins.all id else none

theorem invertedTree_rootOf : invertedTree.rootOf 2 = some 0 := by
  decide

theorem invertedTree_settled : invertedTree.Settled ![false, false, true] where
  wire term iso driver hiso hdriver := by
    dsimp only [invertedTree] at hiso
    split at hiso
    · cases hiso
    · rename_i hother
      cases hiso
      obtain rfl := Option.some.inj hdriver
      revert term
      decide
  zero term iso hiso hzero := by
    dsimp only [invertedTree] at hiso
    split at hiso <;> cases hiso
    cases hzero
  one term iso hiso hone := by
    dsimp only [invertedTree] at hiso
    split at hiso <;> cases hiso
    cases hone
  cell term table htable := by
    dsimp only [invertedTree] at htable
    split at htable
    · rename_i houtput
      cases htable
      rw [houtput]
      rfl
    · cases htable
  assign _ hassign := nomatch hassign

/-- The inverter's output is stored with the clock's formula. -/
theorem invertedTree_not_keepsFunction : ¬ invertedTree.KeepsFunction := by
  intro h
  have hsame := h.same 2 0 invertedTree_rootOf _ invertedTree_settled
  exact absurd hsame (by decide)

end RootNetlist
end KeplerFormal
