import Mathlib.Data.List.Perm.Subperm
import Mathlib.Data.List.Sort
import Mathlib.Logic.Equiv.Basic
import KeplerFormal.Core.Fallible
import KeplerFormal.L1Formula.Btor2WriterSound

/-!
# Leaf boundaries (`src/utils/DesignBoundary.cpp`)

A boundary pair names one leaf instance in each design. The pins of the leaf become top level
ports of the verification problem, and the ports of the two designs are matched by pair, pin and
bit. A pin is known to the rest of the tool by its generated name only.

* `makeTopTermName_inj`: the generated name determines pair, pin and bit.
* `validateBoundaryInterfaces_ok`: two interfaces are accepted exactly where their ports are in
  bijection with equal direction, shape and name.
* `preflight_named`: the ports of one design have names of their own.
-/
namespace KeplerFormal.DesignBoundary

open Core
open Btor2Writer (Bytes ascii number number_inj mem_number)

/-! ## Netlist -/

/-- `SNLTerm::Direction`. -/
inductive Direction where
  | input
  | output
  | inOut
  | undefined
  deriving DecidableEq

def Direction.getString : Direction → Bytes
  | .input => ascii "Input"
  | .output => ascii "Output"
  | .inOut => ascii "InOut"
  | .undefined => ascii "Undefined"

structure BusTerm where
  width : Nat
  msb : Int
  lsb : Int
  bundled : Bool

/-- `SNLBitTerm`; `bus` is the owner of an `SNLBusTermBit`. -/
structure BitTerm where
  name : Bytes
  unnamed : Bool
  bit : Int
  direction : Direction
  bundled : Bool
  bus : Option BusTerm

/-- `SNLNetComponent`: an instance terminal, by its identity, or a terminal of the design that
has the net. -/
inductive NetComponent where
  | instTerm (id : Nat) (direction : Direction)
  | bitTerm (direction : Direction)

structure BitNet where
  isConstant : Bool
  components : List NetComponent

structure InstTerm where
  id : Nat
  bitTerm : BitTerm
  net : Option BitNet

structure Instance where
  name : Bytes
  model : Nat
  instTerms : List InstTerm

structure Design where
  isPrimitive : Bool
  instances : List Instance
  termNames : List Bytes

/-- All designs, by their identity. -/
abbrev Library := Nat → Design

/-! ## Names -/

def quote (text : Bytes) : Bytes := ascii "`" ++ text ++ ascii "`"

def hexDigit (n : Nat) : UInt8 := (ascii "0123456789abcdef").getD n 0

/-- mirrors src/utils/DesignBoundary.cpp:93-100 -/
def encodeName (name : Bytes) : Bytes :=
  name.flatMap fun c => [hexDigit (c.toNat / 16), hexDigit (c.toNat % 16)]

def bitToken (bit : Int) : Bytes :=
  if bit < 0 then ascii "n" ++ number (-bit).toNat else ascii "p" ++ number bit.toNat

/-- mirrors src/utils/DesignBoundary.cpp:109-114 -/
def makeTopTermName (pairIndex : Nat) (pinName : Bytes) (bit : Int) : Bytes :=
  ascii "__kepler_boundary_p" ++ number pairIndex ++ ascii "_n" ++ encodeName pinName ++
    ascii "_b" ++ bitToken bit

/-- `std::to_string(int32_t)`. -/
def signedNumber (n : Int) : Bytes :=
  if n < 0 then ascii "-" ++ number (-n).toNat else number n.toNat

/-! ### Injectivity -/

theorem hexDigit_inj : ∀ n < 16, ∀ m < 16, hexDigit n = hexDigit m → n = m := by decide

theorem underscore_hexDigit : ∀ n < 16, (95 : UInt8) ≠ hexDigit n := by decide

theorem underscore_encodeName (name : Bytes) : (95 : UInt8) ∉ encodeName name := by
  intro h
  obtain ⟨c, -, hc⟩ := List.mem_flatMap.mp h
  have hlt := c.toNat_lt
  obtain hhigh | hlow := List.mem_pair.mp hc
  · exact underscore_hexDigit _ (by omega) hhigh
  · exact underscore_hexDigit _ (by omega) hlow

theorem underscore_number (n : Nat) : (95 : UInt8) ∉ number n :=
  fun h => absurd (mem_number h).2 (by decide)

theorem encodeName_cons (c : UInt8) (name : Bytes) : encodeName (c :: name) =
    hexDigit (c.toNat / 16) :: hexDigit (c.toNat % 16) :: encodeName name := rfl

theorem encodeName_inj {a b : Bytes} (h : encodeName a = encodeName b) : a = b := by
  induction a generalizing b with
  | nil =>
    cases b with
    | nil => rfl
    | cons d b => cases h
  | cons c a ih =>
    cases b with
    | nil => cases h
    | cons d b =>
      rw [encodeName_cons, encodeName_cons] at h
      obtain ⟨hhigh, htail⟩ := List.cons.inj h
      obtain ⟨hlow, hrest⟩ := List.cons.inj htail
      have hc := c.toNat_lt
      have hd := d.toNat_lt
      have h1 := hexDigit_inj _ (by omega) _ (by omega) hhigh
      have h2 := hexDigit_inj _ (by omega) _ (by omega) hlow
      have hcd : c = d := UInt8.toNat_inj.mp (by omega)
      rw [hcd, ih hrest]

theorem bitToken_inj {b c : Int} (h : bitToken b = bitToken c) : b = c := by
  unfold bitToken at h
  by_cases hb : b < 0
  · by_cases hc : c < 0
    · rw [if_pos hb, if_pos hc] at h
      have hnumber := number_inj (List.append_cancel_left h)
      omega
    · rw [if_pos hb, if_neg hc] at h
      exact absurd (List.cons.inj h).1 (by decide)
  · by_cases hc : c < 0
    · rw [if_neg hb, if_pos hc] at h
      exact absurd (List.cons.inj h).1 (by decide)
    · rw [if_neg hb, if_neg hc] at h
      have hnumber := number_inj (List.append_cancel_left h)
      omega

/-- The parts of a name between its separators. -/
theorem makeTopTermName_eq (pairIndex : Nat) (pinName : Bytes) (bit : Int) :
    makeTopTermName pairIndex pinName bit = ascii "__kepler_boundary_p" ++
      (number pairIndex ++ 95 :: (110 :: (encodeName pinName ++ 95 :: (98 :: bitToken bit)))) := by
  unfold makeTopTermName
  rw [List.append_assoc, List.append_assoc, List.append_assoc, List.append_assoc]
  rfl

theorem separator_inj {s : UInt8} {a b x y : Bytes} (ha : s ∉ a) (hb : s ∉ b)
    (h : a ++ s :: x = b ++ s :: y) : a = b ∧ x = y := by
  induction a generalizing b with
  | nil =>
    cases b with
    | nil => exact ⟨rfl, (List.cons.inj h).2⟩
    | cons d b => exact absurd ((List.cons.inj h).1 ▸ List.mem_cons_self) hb
  | cons c a ih =>
    cases b with
    | nil => exact absurd ((List.cons.inj h).1 ▸ List.mem_cons_self) ha
    | cons d b =>
      obtain ⟨rfl, htail⟩ := List.cons.inj h
      obtain ⟨rfl, hrest⟩ := ih (List.not_mem_of_not_mem_cons ha)
        (List.not_mem_of_not_mem_cons hb) htail
      exact ⟨rfl, hrest⟩

/-- A name determines pair, pin and bit, whatever bytes the pin's name has. -/
theorem makeTopTermName_inj {i j : Nat} {n m : Bytes} {b c : Int}
    (h : makeTopTermName i n b = makeTopTermName j m c) : i = j ∧ n = m ∧ b = c := by
  rw [makeTopTermName_eq, makeTopTermName_eq] at h
  have hafter := List.append_cancel_left h
  obtain ⟨hpair, hpins⟩ := separator_inj (underscore_number i) (underscore_number j) hafter
  obtain ⟨hpin, hbits⟩ := separator_inj (underscore_encodeName n) (underscore_encodeName m)
    (List.cons.inj hpins).2
  exact ⟨number_inj hpair, encodeName_inj hpin, bitToken_inj (List.cons.inj hbits).2⟩

/-! ## Ports -/

structure BoundaryPort where
  pairIndex : Nat
  pinName : Bytes
  bit : Int
  isInput : Bool
  width : Nat
  msb : Int
  lsb : Int
  topTermName : Bytes
  deriving DecidableEq

/-- Width and bounds of the bus of a pin. -/
def shapeOf (bitTerm : BitTerm) : Except Bytes (Nat × Int × Int) :=
  let bundled := ascii "bundled boundary pins are not supported: " ++ quote bitTerm.name
  match bitTerm.bus with
  | some bus => if bus.bundled then throw bundled else pure (bus.width, bus.msb, bus.lsb)
  | none => if bitTerm.bundled then throw bundled else pure (1, 0, 0)

/-- mirrors src/utils/DesignBoundary.cpp:209-242 -/
def describePort (pairIndex : Nat) (bitTerm : BitTerm) : Except Bytes BoundaryPort := do
  if bitTerm.unnamed then
    throw (ascii "boundary instances with unnamed pins are not supported")
  let shape ← shapeOf bitTerm
  return {
    pairIndex := pairIndex
    pinName := bitTerm.name
    bit := bitTerm.bit
    isInput := decide (bitTerm.direction = .input)
    width := shape.1
    msb := shape.2.1
    lsb := shape.2.2
    topTermName := makeTopTermName pairIndex bitTerm.name bitTerm.bit }

/-! ## Paths -/

/-- mirrors src/utils/DesignBoundary.cpp:57-85 -/
def splitPath (path : Bytes) : Except Bytes (List Bytes) := do
  if path.isEmpty then
    throw (ascii "boundary instance path must not be empty")
  if path.head? = some 47 ∨ path.getLast? = some 47 then
    throw (ascii "boundary instance path " ++ quote path ++
      ascii " must be top-relative without a leading or trailing slash")
  let components := path.splitOn 47
  if components.contains [] then
    throw (ascii "boundary instance path " ++ quote path ++ ascii " contains an empty component")
  return components

structure BoundarySpec where
  pairIndex : Nat
  path : Bytes
  components : List Bytes

structure ResolveState where
  current : Nat
  instance? : Option Instance
  resolved : Bytes

def resolveComponent (library : Library) (path : Bytes) (state : ResolveState)
    (component : Bytes) : Except Bytes ResolveState :=
  let resolved :=
    if state.resolved.isEmpty then component else state.resolved ++ ascii "/" ++ component
  match (library state.current).instances.find? fun i => i.name == component with
  | none => throw (ascii "boundary instance path " ++ quote path ++ ascii " does not resolve at " ++
      quote resolved)
  | some found => pure ⟨found.model, some found, resolved⟩

/-- mirrors src/utils/DesignBoundary.cpp:116-137 -/
def resolveInstance (library : Library) (top : Nat) (spec : BoundarySpec) :
    Except Bytes (Option Instance) := do
  let state ← spec.components.foldlM (resolveComponent library spec.path) ⟨top, none, []⟩
  return state.instance?

/-- mirrors src/utils/DesignBoundary.cpp:256-270 -/
def specOf (side : Nat) (pair : Bytes × Bytes) (pairIndex : Nat) : Except Bytes BoundarySpec := do
  if pair.1.isEmpty || pair.2.isEmpty then
    throw (ascii "boundary pair " ++ number pairIndex ++
      ascii " must name an instance path on both sides")
  let path := if side = 0 then pair.1 else pair.2
  let components ← splitPath path
  return ⟨pairIndex, path, components⟩

def checkApart (first second : BoundarySpec) : Except Bytes Unit := do
  if first.components = second.components then
    throw (ascii "duplicate boundary instance path " ++ quote first.path)
  if first.components.isPrefixOf second.components ||
      second.components.isPrefixOf first.components then
    throw (ascii "nested boundary instance paths are not supported: " ++ quote first.path ++
      ascii " and " ++ quote second.path)

/-- mirrors src/utils/DesignBoundary.cpp:272-285 -/
def checkAllApart : List BoundarySpec → Except Bytes Unit
  | [] => pure ()
  | first :: rest => do
    rest.forM (checkApart first)
    checkAllApart rest

/-! ## Connectivity -/

def isDriver : NetComponent → Bool
  | .instTerm _ direction => direction = .output || direction = .inOut
  | .bitTerm direction => direction = .input || direction = .inOut

/-- mirrors src/utils/DesignBoundary.cpp:152-177 -/
def validateInputConnectivity (path : Bytes) (input : InstTerm) : Except Bytes Unit :=
  match input.net with
  | none => throw (ascii "boundary instance " ++ quote path ++ ascii " pin " ++
      quote input.bitTerm.name ++ ascii " is unconnected")
  | some net =>
    if net.isConstant then
      pure ()
    else
      let driverCount := net.components.countP isDriver
      if driverCount ≠ 1 then
        throw (ascii "boundary input pin " ++ quote input.bitTerm.name ++
          ascii " on instance " ++ quote path ++ ascii " must have exactly one driver (found " ++
          number driverCount ++ ascii ")")
      else
        pure ()

def NetComponent.isInstTerm (id : Nat) : NetComponent → Bool
  | .instTerm id' _ => id' == id
  | .bitTerm _ => false

/-- An output that is not connected is a free input of the problem.
mirrors src/utils/DesignBoundary.cpp:179-207 -/
def validateOutputConnectivity (path : Bytes) (output : InstTerm) : Except Bytes Unit :=
  let pin := ascii "boundary output pin " ++ quote output.bitTerm.name ++
    ascii " on instance " ++ quote path
  match output.net with
  | none => pure ()
  | some net => do
    if net.isConstant then
      throw (pin ++ ascii " is connected to a constant net")
    let drivers := net.components.filter isDriver
    if !drivers.any (NetComponent.isInstTerm output.id) || drivers.length ≠ 1 then
      throw (pin ++ ascii " must be the only driver of its net")

/-! ## Preflight -/

structure PinSpec where
  port : BoundaryPort
  term : BitTerm

/-- The order of the pins of one leaf. -/
def pinBefore (lhs rhs : PinSpec) : Bool :=
  lhs.port.pinName < rhs.port.pinName ||
    (lhs.port.pinName = rhs.port.pinName &&
      (lhs.port.bit < rhs.port.bit ||
        (lhs.port.bit = rhs.port.bit && !lhs.port.isInput && rhs.port.isInput)))

/-- The generated names so far and the pins of the leaf at hand. -/
abbrev PinState := List Bytes × List PinSpec

def checkPin (path : Bytes) (instTerm : InstTerm) : Except Bytes Unit := do
  let direction := instTerm.bitTerm.direction
  if direction = .inOut || direction = .undefined then
    throw (ascii "boundary instance " ++ quote path ++ ascii " pin " ++
      quote instTerm.bitTerm.name ++ ascii " has unsupported direction " ++ direction.getString)
  if direction = .input then
    validateInputConnectivity path instTerm
  if direction = .output then
    validateOutputConnectivity path instTerm

/-- mirrors src/utils/DesignBoundary.cpp:296-328 -/
def addPin (top : Design) (spec : BoundarySpec) (state : PinState) (instTerm : InstTerm) :
    Except Bytes PinState := do
  checkPin spec.path instTerm
  let port ← describePort spec.pairIndex instTerm.bitTerm
  if state.1.contains port.topTermName then
    throw (ascii "boundary pins generate duplicate top term " ++ quote port.topTermName)
  -- observed outputs are reported and aligned by their display names
  if top.termNames.contains port.topTermName then
    throw (ascii "boundary top term collides with existing term " ++ quote port.topTermName)
  return (port.topTermName :: state.1, state.2 ++ [⟨port, instTerm.bitTerm⟩])

/-- A leaf with its pins. -/
abbrev PinnedSpec := BoundarySpec × List PinSpec

/-- mirrors src/utils/DesignBoundary.cpp:288-339 -/
def addSpec (library : Library) (top : Nat) (state : List Bytes × List PinnedSpec)
    (spec : BoundarySpec) : Except Bytes (List Bytes × List PinnedSpec) := do
  match ← resolveInstance library top spec with
  -- a path that was split has a component
  | none => throw []
  | some target => do
    if !(library target.model).instances.isEmpty then
      throw (ascii "boundary instance " ++ quote spec.path ++
        ascii " is not a leaf: its model contains child instances")
    let (names, pins) ← target.instTerms.foldlM (addPin (library top) spec) (state.1, [])
    if pins.isEmpty then
      throw (ascii "boundary instance " ++ quote spec.path ++ ascii " has no pins")
    return (names, state.2 ++ [(spec, pins.insertionSort fun a b => !pinBefore b a)])

/-- mirrors src/utils/DesignBoundary.cpp:244-341 -/
def preflight (library : Library) (top : Option Nat) (pairs : List (Bytes × Bytes))
    (side : Nat) : Except Bytes (List PinnedSpec) := do
  match top with
  | none => throw (ascii "boundary top design must not be null")
  | some top => do
    if 1 < side then
      throw (ascii "boundary side must be 0 or 1")
    if (library top).isPrimitive then
      throw (ascii "a primitive design cannot be a boundary top")
    let specs ← pairs.zipIdx.mapM fun p => specOf side p.1 p.2
    checkAllApart specs
    let state ← specs.foldlM (addSpec library top) ([], [])
    return state.2

/-- The ports of a `BoundarySelection`.
mirrors src/utils/DesignBoundary.cpp:368-375 -/
def boundarySelection (library : Library) (top : Option Nat) (pairs : List (Bytes × Bytes))
    (side : Nat) : Except Bytes (List BoundaryPort) := do
  let specs ← preflight library top pairs side
  return (specs.flatMap (·.2)).map (·.port)

/-! ### Ports of the flattened design -/

structure Iso where
  isConstant : Bool
  drivers : List Nat

structure DnlTerm where
  id : Nat
  iso : Option Iso

/-- An output that is not connected needs no iso. -/
def DnlTerm.isSoleDriver (term : DnlTerm) : Bool :=
  match term.iso with
  | none => true
  | some iso => !iso.isConstant && iso.drivers == [term.id]

/-- The flattened design: the terminals and the identity of the instance at a path. -/
structure Dnl where
  terminal : List Bytes → BitTerm → DnlTerm
  instanceId : List Bytes → Nat

structure LeafBoundary where
  ports : List BoundaryPort
  portIndices : List (Nat × Nat)
  inputs : List Nat
  outputs : List Nat
  instances : List Nat

/-- An input of the leaf is an output of the problem and the other way round. -/
def LeafBoundary.addPin (dnl : Dnl) (spec : BoundarySpec) (boundary : LeafBoundary)
    (pin : PinSpec) : Except Bytes LeafBoundary := do
  let term := dnl.terminal spec.components pin.term
  if !pin.port.isInput && !term.isSoleDriver then
    throw (ascii "boundary leaf output " ++ quote (spec.path ++ ascii "/" ++ pin.port.pinName) ++
      ascii " must be the sole nonconstant driver of its DNL iso")
  return { boundary with
    ports := boundary.ports ++ [pin.port]
    portIndices := if (boundary.portIndices.map (·.1)).contains term.id then boundary.portIndices
      else boundary.portIndices ++ [(term.id, boundary.ports.length)]
    inputs := if pin.port.isInput then boundary.inputs else boundary.inputs ++ [term.id]
    outputs := if pin.port.isInput then boundary.outputs ++ [term.id] else boundary.outputs }

def LeafBoundary.addSpec (dnl : Dnl) (boundary : LeafBoundary) (spec : PinnedSpec) :
    Except Bytes LeafBoundary :=
  let id := dnl.instanceId spec.1.components
  spec.2.foldlM (LeafBoundary.addPin dnl spec.1)
    { boundary with instances := boundary.instances ++ [id] }

/-- mirrors src/utils/DesignBoundary.cpp:382-414 -/
def leafBoundary (library : Library) (dnl : Dnl) (top : Option Nat)
    (pairs : List (Bytes × Bytes)) (side : Nat) : Except Bytes LeafBoundary := do
  let specs ← preflight library top pairs side
  specs.foldlM (LeafBoundary.addSpec dnl) ⟨[], [], [], [], []⟩

/-! ## Matching -/

abbrev PortKey := Nat × Bytes × Int

def BoundaryPort.key (port : BoundaryPort) : PortKey := (port.pairIndex, port.pinName, port.bit)

def describePortKey (key : PortKey) : Bytes :=
  ascii "pair " ++ number key.1 ++ ascii " pin " ++ quote key.2.1 ++ ascii " bit " ++
    signedNumber key.2.2

/-- The order of `std::map<PortKey, ...>`. -/
def keyLe (a b : PortKey) : Bool :=
  a.1 < b.1 || (a.1 = b.1 && (a.2.1 < b.2.1 || (a.2.1 = b.2.1 && a.2.2 ≤ b.2.2)))

def indexPort (sideName : Bytes) (indexed : List BoundaryPort) (port : BoundaryPort) :
    Except Bytes (List BoundaryPort) :=
  if (indexed.map BoundaryPort.key).contains port.key then
    throw (ascii "duplicate " ++ sideName ++ ascii " boundary signature for " ++
      describePortKey port.key)
  else
    pure (indexed.orderedInsert (fun a b => keyLe a.key b.key) port)

/-- The ports of one side, in the order of their keys.
mirrors src/utils/DesignBoundary.cpp:345-359 -/
def indexPorts (ports : List BoundaryPort) (sideName : Bytes) :
    Except Bytes (List BoundaryPort) :=
  ports.foldlM (indexPort sideName) []

/-- mirrors src/utils/DesignBoundary.cpp:426-447 -/
def checkPort (rightPorts : List BoundaryPort) (leftPort : BoundaryPort) : Except Bytes Unit :=
  let key := describePortKey leftPort.key
  match rightPorts.find? fun port => port.key == leftPort.key with
  | none => throw (ascii "right boundary interface is missing " ++ key)
  | some rightPort => do
    if leftPort.isInput ≠ rightPort.isInput then
      throw (ascii "boundary direction mismatch for " ++ key)
    if leftPort.width ≠ rightPort.width ∨ leftPort.msb ≠ rightPort.msb ∨
        leftPort.lsb ≠ rightPort.lsb then
      throw (ascii "boundary bus-shape mismatch for " ++ key)
    if leftPort.topTermName ≠ rightPort.topTermName then
      throw (ascii "boundary synthetic-name mismatch for " ++ key)

/-- mirrors src/utils/DesignBoundary.cpp:416-448 -/
def validateBoundaryInterfaces (left right : List BoundaryPort) : Except Bytes Unit := do
  let leftPorts ← indexPorts left (ascii "left")
  let rightPorts ← indexPorts right (ascii "right")
  if leftPorts.length ≠ rightPorts.length then
    throw (ascii "boundary interfaces have different pin-bit counts (left=" ++
      number leftPorts.length ++ ascii ", right=" ++ number rightPorts.length ++ ascii ")")
  leftPorts.forM (checkPort rightPorts)

/-! ### Accepted interfaces -/

theorem indexPort_ok {side : Bytes} {indexed out : List BoundaryPort} {port : BoundaryPort} :
    indexPort side indexed port = .ok out ↔ port.key ∉ indexed.map BoundaryPort.key ∧
      indexed.orderedInsert (fun a b => keyLe a.key b.key) port = out := by
  unfold indexPort
  split
  · next h => exact ⟨nofun, fun hok => absurd (List.contains_iff_mem.mp h) hok.1⟩
  · next h =>
    exact ⟨fun hok => ⟨fun hmem => h (List.contains_iff_mem.mpr hmem), Except.ok.inj hok⟩,
      fun hok => congrArg _ hok.2⟩

theorem indexPorts_from {side : Bytes} {ports indexed out : List BoundaryPort}
    (hindexed : (indexed.map BoundaryPort.key).Nodup)
    (h : ports.foldlM (indexPort side) indexed = .ok out) :
    out.Perm (ports ++ indexed) ∧ (out.map BoundaryPort.key).Nodup := by
  induction ports generalizing indexed with
  | nil => exact Except.ok.inj h ▸ ⟨List.Perm.refl _, hindexed⟩
  | cons port ports ih =>
    rw [List.foldlM_cons, bind_ok] at h
    obtain ⟨next, hnext, hrest⟩ := h
    obtain ⟨hfresh, rfl⟩ := indexPort_ok.mp hnext
    have hinsert := List.perm_orderedInsert (fun a b => keyLe a.key b.key) port indexed
    have hnodup := (hinsert.map BoundaryPort.key).nodup_iff.mpr
      (List.nodup_cons.mpr ⟨hfresh, hindexed⟩)
    obtain ⟨hout, hkeys⟩ := ih hnodup hrest
    refine ⟨hout.trans ?_, hkeys⟩
    exact (List.Perm.append_left ports hinsert).trans List.perm_middle

/-- The map of one side has exactly its ports, and all keys differ. -/
theorem indexPorts_perm {side : Bytes} {ports out : List BoundaryPort}
    (h : indexPorts ports side = .ok out) :
    out.Perm ports ∧ (ports.map BoundaryPort.key).Nodup := by
  have hnil : ([].map BoundaryPort.key).Nodup := List.nodup_nil
  obtain ⟨hperm, hkeys⟩ := indexPorts_from hnil h
  rw [List.append_nil] at hperm
  exact ⟨hperm, (hperm.map BoundaryPort.key).nodup_iff.mp hkeys⟩

theorem indexPorts_ok (side : Bytes) {ports : List BoundaryPort}
    (h : (ports.map BoundaryPort.key).Nodup) : ∃ out, indexPorts ports side = .ok out := by
  have hfrom : ∀ indexed : List BoundaryPort, ((ports ++ indexed).map BoundaryPort.key).Nodup →
      ∃ out, ports.foldlM (indexPort side) indexed = .ok out := by
    clear h
    induction ports with
    | nil => exact fun indexed _ => ⟨indexed, rfl⟩
    | cons port ports ih =>
      intro indexed hkeys
      have hsplit := hkeys
      rw [List.cons_append, List.map_cons, List.map_append] at hsplit
      have hport : port.key ∉ indexed.map BoundaryPort.key := fun hmem =>
        (List.nodup_cons.mp hsplit).1 (List.mem_append_right _ hmem)
      have hinsert := List.perm_orderedInsert (fun a b => keyLe a.key b.key) port indexed
      have hperm := (List.Perm.append_left ports hinsert).trans List.perm_middle
      obtain ⟨out, hout⟩ := ih _ ((hperm.map BoundaryPort.key).nodup_iff.mpr hkeys)
      refine ⟨out, ?_⟩
      rw [List.foldlM_cons, indexPort_ok.mpr ⟨hport, rfl⟩, ok_bind, hout]
  exact hfrom [] (by rwa [List.append_nil])

theorem eq_of_key {ports : List BoundaryPort} (hkeys : (ports.map BoundaryPort.key).Nodup)
    {p q : BoundaryPort} (hp : p ∈ ports) (hq : q ∈ ports) (h : p.key = q.key) : p = q :=
  List.inj_on_of_nodup_map hkeys hp hq h

/-- All that is compared makes a port. -/
theorem BoundaryPort.eq_of_fields {p q : BoundaryPort} (hkey : p.key = q.key)
    (hinput : p.isInput = q.isInput) (hwidth : p.width = q.width) (hmsb : p.msb = q.msb)
    (hlsb : p.lsb = q.lsb) (hname : p.topTermName = q.topTermName) : p = q := by
  cases p
  cases q
  simp only [BoundaryPort.key, Prod.mk.injEq] at hkey
  simp_all

theorem find_key {ports : List BoundaryPort} {key : PortKey} {port : BoundaryPort}
    (h : ports.find? (fun p => p.key == key) = some port) : port ∈ ports ∧ port.key = key := by
  have hkey := List.find?_some h
  exact ⟨List.mem_of_find?_eq_some h, beq_iff_eq.mp hkey⟩

/-- A port is found on the other side where that side has the same port. -/
theorem checkPort_ok {rightPorts : List BoundaryPort}
    (hkeys : (rightPorts.map BoundaryPort.key).Nodup) {port : BoundaryPort} :
    checkPort rightPorts port = .ok () ↔ port ∈ rightPorts := by
  constructor
  · intro h
    unfold checkPort at h
    split at h
    · cases h
    · next right hfind =>
      obtain ⟨hmem, hkey⟩ := find_key hfind
      by_cases hinput : port.isInput = right.isInput
      · by_cases hshape : port.width ≠ right.width ∨ port.msb ≠ right.msb ∨ port.lsb ≠ right.lsb
        · rw [if_neg (not_not.mpr hinput), if_pos hshape] at h
          cases h
        · by_cases hname : port.topTermName = right.topTermName
          · simp only [not_or, not_not] at hshape
            rwa [BoundaryPort.eq_of_fields hkey.symm hinput hshape.1 hshape.2.1 hshape.2.2 hname]
          · rw [if_neg (not_not.mpr hinput), if_neg hshape, if_pos hname] at h
            cases h
      · rw [if_pos hinput] at h
        cases h
  · intro h
    have hfind : rightPorts.find? (fun p => p.key == port.key) = some port := by
      cases hfound : rightPorts.find? (fun p => p.key == port.key) with
      | none => exact absurd (beq_self_eq_true port.key) (List.find?_eq_none.mp hfound port h)
      | some right =>
        obtain ⟨hmem, hkey⟩ := find_key hfound
        rw [eq_of_key hkeys hmem h hkey]
    unfold checkPort
    rw [hfind]
    simp only [ne_eq, not_true_eq_false, or_self, if_false]
    rfl

theorem validateBoundaryInterfaces_perm {left right : List BoundaryPort} :
    validateBoundaryInterfaces left right = .ok () ↔
      (left.map BoundaryPort.key).Nodup ∧ left.Perm right := by
  unfold validateBoundaryInterfaces
  constructor
  · intro h
    rw [bind_ok] at h
    obtain ⟨leftPorts, hleft, h⟩ := h
    rw [bind_ok] at h
    obtain ⟨rightPorts, hright, h⟩ := h
    obtain ⟨hleftPerm, hleftKeys⟩ := indexPorts_perm hleft
    obtain ⟨hrightPerm, hrightKeys⟩ := indexPorts_perm hright
    by_cases hlen : leftPorts.length = rightPorts.length
    · rw [if_neg (not_not.mpr hlen)] at h
      have hkeys := (hrightPerm.map BoundaryPort.key).nodup_iff.mpr hrightKeys
      have hsub : leftPorts ⊆ rightPorts :=
        fun port hport => (checkPort_ok hkeys).mp (forM_ok.mp h port hport)
      have hnodup := ((hleftPerm.map BoundaryPort.key).nodup_iff.mpr hleftKeys).of_map
      have hperm := (List.subperm_of_subset hnodup hsub).perm_of_length_le (le_of_eq hlen.symm)
      exact ⟨hleftKeys, (hleftPerm.symm.trans hperm).trans hrightPerm⟩
    · rw [if_pos hlen] at h
      cases h
  · rintro ⟨hleftKeys, hperm⟩
    have hrightKeys := (hperm.map BoundaryPort.key).nodup_iff.mp hleftKeys
    obtain ⟨leftPorts, hleft⟩ := indexPorts_ok (ascii "left") hleftKeys
    obtain ⟨rightPorts, hright⟩ := indexPorts_ok (ascii "right") hrightKeys
    obtain ⟨hleftPerm, -⟩ := indexPorts_perm hleft
    obtain ⟨hrightPerm, -⟩ := indexPorts_perm hright
    have hsame := (hleftPerm.trans hperm).trans hrightPerm.symm
    have hkeys := (hrightPerm.map BoundaryPort.key).nodup_iff.mpr hrightKeys
    rw [hleft, ok_bind, hright, ok_bind, if_neg (not_not.mpr hsame.length_eq)]
    exact forM_ok.mpr fun port hport => (checkPort_ok hkeys).mpr (hsame.subset hport)

/-- A matching of the ports of two designs. -/
structure Matching (left right : List BoundaryPort) where
  pairing : {p // p ∈ left} ≃ {p // p ∈ right}
  key : ∀ p, (pairing p).1.key = p.1.key
  isInput : ∀ p, (pairing p).1.isInput = p.1.isInput
  width : ∀ p, (pairing p).1.width = p.1.width
  msb : ∀ p, (pairing p).1.msb = p.1.msb
  lsb : ∀ p, (pairing p).1.lsb = p.1.lsb
  topTermName : ∀ p, (pairing p).1.topTermName = p.1.topTermName

namespace Matching

variable {left right : List BoundaryPort}

theorem pairing_eq (m : Matching left right) (p : {p // p ∈ left}) : (m.pairing p).1 = p.1 :=
  BoundaryPort.eq_of_fields (m.key p) (m.isInput p) (m.width p) (m.msb p) (m.lsb p)
    (m.topTermName p)

theorem perm (m : Matching left right) (hleft : left.Nodup) (hright : right.Nodup) :
    left.Perm right := by
  refine (List.perm_ext_iff_of_nodup hleft hright).mpr fun p => ⟨fun hp => ?_, fun hp => ?_⟩
  · have heq : (m.pairing ⟨p, hp⟩).1 = p := m.pairing_eq ⟨p, hp⟩
    exact heq ▸ (m.pairing ⟨p, hp⟩).2
  · have heq := m.pairing_eq (m.pairing.symm ⟨p, hp⟩)
    rw [Equiv.apply_symm_apply] at heq
    have hp' : p = (m.pairing.symm ⟨p, hp⟩).1 := heq
    exact hp' ▸ (m.pairing.symm ⟨p, hp⟩).2

def ofPerm (h : left.Perm right) : Matching left right where
  pairing := Equiv.subtypeEquivRight fun _ => h.mem_iff
  key _ := rfl
  isInput _ := rfl
  width _ := rfl
  msb _ := rfl
  lsb _ := rfl
  topTermName _ := rfl

end Matching

/-- Two interfaces are accepted where each has one port for a key, and their ports match. -/
theorem validateBoundaryInterfaces_ok {left right : List BoundaryPort} :
    validateBoundaryInterfaces left right = .ok () ↔ (left.map BoundaryPort.key).Nodup ∧
      (right.map BoundaryPort.key).Nodup ∧ Nonempty (Matching left right) := by
  rw [validateBoundaryInterfaces_perm]
  constructor
  · rintro ⟨hkeys, hperm⟩
    exact ⟨hkeys, (hperm.map BoundaryPort.key).nodup_iff.mp hkeys, ⟨Matching.ofPerm hperm⟩⟩
  · rintro ⟨hleft, hright, ⟨matching⟩⟩
    exact ⟨hleft, matching.perm hleft.of_map hright.of_map⟩

/-! ### Names of the ports of one design -/

/-- The ports `ports` have the generated names `names`. -/
structure Named (top : Design) (names : List Bytes) (ports : List BoundaryPort) : Prop where
  perm : names.Perm (ports.map (·.topTermName))
  nodup : names.Nodup
  generated : ∀ p ∈ ports, p.topTermName = makeTopTermName p.pairIndex p.pinName p.bit
  fresh : ∀ p ∈ ports, p.topTermName ∉ top.termNames

theorem Named.of_perm {top : Design} {names : List Bytes} {ports ports' : List BoundaryPort}
    (h : Named top names ports) (hperm : ports'.Perm ports) : Named top names ports' where
  perm := h.perm.trans (hperm.symm.map _)
  nodup := h.nodup
  generated p hp := h.generated p (hperm.subset hp)
  fresh p hp := h.fresh p (hperm.subset hp)

theorem describePort_name {pairIndex : Nat} {bitTerm : BitTerm} {port : BoundaryPort}
    (h : describePort pairIndex bitTerm = .ok port) :
    port.topTermName = makeTopTermName port.pairIndex port.pinName port.bit := by
  unfold describePort at h
  by_cases hunnamed : bitTerm.unnamed = true
  · rw [if_pos hunnamed] at h
    cases h
  · rw [if_neg hunnamed] at h
    obtain ⟨shape, -, hport⟩ := bind_ok.mp h
    obtain rfl := Except.ok.inj hport
    rfl

theorem addPin_ok {top : Design} {spec : BoundarySpec} {state state' : PinState}
    {instTerm : InstTerm} (h : addPin top spec state instTerm = .ok state') :
    ∃ port, describePort spec.pairIndex instTerm.bitTerm = .ok port ∧
      port.topTermName ∉ state.1 ∧ port.topTermName ∉ top.termNames ∧
      state' = (port.topTermName :: state.1, state.2 ++ [⟨port, instTerm.bitTerm⟩]) := by
  unfold addPin at h
  rw [bind_ok] at h
  obtain ⟨-, -, h⟩ := h
  rw [bind_ok] at h
  obtain ⟨port, hport, h⟩ := h
  by_cases hnames : state.1.contains port.topTermName = true
  · rw [if_pos hnames] at h
    cases h
  · by_cases hterms : top.termNames.contains port.topTermName = true
    · rw [if_neg hnames, if_pos hterms] at h
      cases h
    · rw [if_neg hnames, if_neg hterms] at h
      refine ⟨port, hport, ?_, ?_, (Except.ok.inj h).symm⟩
      · exact fun hmem => hnames (List.contains_iff_mem.mpr hmem)
      · exact fun hmem => hterms (List.contains_iff_mem.mpr hmem)

/-- The ports of the pins of some leaves, in order. -/
def portsOf (specs : List PinnedSpec) : List BoundaryPort := (specs.flatMap (·.2)).map (·.port)

theorem portsOf_append (specs : List PinnedSpec) (spec : BoundarySpec) (pins : List PinSpec) :
    portsOf (specs ++ [(spec, pins)]) = portsOf specs ++ pins.map (·.port) := by
  simp [portsOf]

theorem addPin_named {top : Design} {spec : BoundarySpec} {before : List BoundaryPort}
    {state state' : PinState} {instTerm : InstTerm}
    (hnamed : Named top state.1 (before ++ state.2.map (·.port)))
    (h : addPin top spec state instTerm = .ok state') :
    Named top state'.1 (before ++ state'.2.map (·.port)) := by
  obtain ⟨port, hport, hnew, hterms, rfl⟩ := addPin_ok h
  rw [List.map_append, ← List.append_assoc]
  refine ⟨?_, List.nodup_cons.mpr ⟨hnew, hnamed.nodup⟩, fun p hp => ?_, fun p hp => ?_⟩
  · rw [List.map_append]
    exact (hnamed.perm.cons _).trans (List.perm_append_singleton _ _).symm
  · obtain hold | hsame := List.mem_append.mp hp
    · exact hnamed.generated p hold
    · rw [List.mem_singleton.mp hsame]
      exact describePort_name hport
  · obtain hold | hsame := List.mem_append.mp hp
    · exact hnamed.fresh p hold
    · rw [List.mem_singleton.mp hsame]
      exact hterms

theorem addSpec_named {library : Library} {top : Nat} {spec : BoundarySpec}
    {state state' : List Bytes × List PinnedSpec}
    (hnamed : Named (library top) state.1 (portsOf state.2))
    (h : addSpec library top state spec = .ok state') :
    Named (library top) state'.1 (portsOf state'.2) := by
  unfold addSpec at h
  obtain ⟨target?, -, h⟩ := bind_ok.mp h
  cases target? with
  | none => cases h
  | some target =>
    by_cases hleaf : (!(library target.model).instances.isEmpty) = true
    · simp only [hleaf, if_true] at h
      cases h
    · simp only [hleaf] at h
      obtain ⟨⟨names, pins⟩, hpins, h⟩ := bind_ok.mp h
      have hkept : Named (library top) names (portsOf state.2 ++ pins.map (·.port)) :=
        foldlM_keeps (I := fun s : PinState =>
          Named (library top) s.1 (portsOf state.2 ++ s.2.map (·.port)))
          (fun _ _ _ _ hb hstep => addPin_named hb hstep)
          (by rwa [List.map_nil, List.append_nil]) hpins
      by_cases hempty : pins.isEmpty = true
      · simp only [hempty, if_true] at h
        cases h
      · simp only [hempty] at h
        obtain rfl := Except.ok.inj h
        rw [portsOf_append]
        exact hkept.of_perm (List.Perm.append_left _ ((List.perm_insertionSort _ _).map _))

/-- The ports of one design have distinct generated names, none of them taken. -/
theorem preflight_named {library : Library} {top : Option Nat} {pairs : List (Bytes × Bytes)}
    {side : Nat} {specs : List PinnedSpec} (h : preflight library top pairs side = .ok specs) :
    ∃ t names, top = some t ∧ Named (library t) names (portsOf specs) := by
  cases top with
  | none => cases h
  | some t =>
    unfold preflight at h
    by_cases hside : 1 < side
    · simp only [hside, if_true] at h
      cases h
    · by_cases hprimitive : (library t).isPrimitive = true
      · simp only [hside, hprimitive, if_true, if_false] at h
        cases h
      · simp only [hside, hprimitive, if_false] at h
        obtain ⟨parsed, -, h⟩ := bind_ok.mp h
        obtain ⟨-, -, h⟩ := bind_ok.mp h
        obtain ⟨state, hstate, h⟩ := bind_ok.mp h
        obtain rfl := Except.ok.inj h
        refine ⟨t, state.1, rfl, ?_⟩
        refine foldlM_keeps (I := fun s : List Bytes × List PinnedSpec =>
          Named (library t) s.1 (portsOf s.2)) (fun _ _ _ _ hb hstep => addSpec_named hb hstep)
          ?_ hstate
        exact ⟨List.Perm.refl _, List.nodup_nil, fun p hp => absurd hp List.not_mem_nil,
          fun p hp => absurd hp List.not_mem_nil⟩

theorem Named.nodup_names {top : Design} {names : List Bytes} {ports : List BoundaryPort}
    (h : Named top names ports) : (ports.map (·.topTermName)).Nodup := h.perm.nodup_iff.mp h.nodup

/-- Ports with names of their own have keys of their own. -/
theorem Named.nodup_keys {top : Design} {names : List Bytes} {ports : List BoundaryPort}
    (h : Named top names ports) : (ports.map BoundaryPort.key).Nodup := by
  have hmap : ports.map (·.topTermName) =
      (ports.map BoundaryPort.key).map fun k => makeTopTermName k.1 k.2.1 k.2.2 := by
    rw [List.map_map]
    exact List.map_congr_left fun p hp => h.generated p hp
  have hnodup := h.nodup_names
  rw [hmap] at hnodup
  exact hnodup.of_map

/-! ### The flattened design shows the same ports -/

theorem LeafBoundary.addPin_ports {dnl : Dnl} {spec : BoundarySpec} {b b' : LeafBoundary}
    {pin : PinSpec} (h : LeafBoundary.addPin dnl spec b pin = .ok b') :
    b'.ports = b.ports ++ [pin.port] := by
  unfold LeafBoundary.addPin at h
  simp only at h
  split at h
  · cases h
  · obtain rfl := Except.ok.inj h
    rfl

theorem LeafBoundary.addSpec_ports {dnl : Dnl} {b b' : LeafBoundary} {spec : PinnedSpec}
    (h : LeafBoundary.addSpec dnl b spec = .ok b') :
    b'.ports = b.ports ++ spec.2.map (·.port) := by
  have hports := foldlM_appends (g := LeafBoundary.ports) (k := fun pin => [pin.port])
    (fun _ _ _ hstep => LeafBoundary.addPin_ports hstep) h
  rwa [← List.map_eq_flatMap] at hports

theorem leafBoundary_ports {library : Library} {dnl : Dnl} {top : Option Nat}
    {pairs : List (Bytes × Bytes)} {side : Nat} {boundary : LeafBoundary}
    (h : leafBoundary library dnl top pairs side = .ok boundary) :
    boundarySelection library top pairs side = .ok boundary.ports := by
  obtain ⟨specs, hspecs, hfold⟩ := bind_ok.mp h
  have hports := foldlM_appends (g := LeafBoundary.ports)
    (k := fun spec : PinnedSpec => spec.2.map (·.port))
    (fun _ _ _ hstep => LeafBoundary.addSpec_ports hstep) hfold
  unfold boundarySelection
  rw [hspecs, ok_bind, hports, List.nil_append, List.map_flatMap]
  rfl

/-! ### The interfaces of two designs -/

theorem boundarySelection_named {library : Library} {top : Option Nat}
    {pairs : List (Bytes × Bytes)} {side : Nat} {ports : List BoundaryPort}
    (h : boundarySelection library top pairs side = .ok ports) :
    ∃ t names, top = some t ∧ Named (library t) names ports := by
  obtain ⟨specs, hspecs, hports⟩ := bind_ok.mp h
  obtain rfl := Except.ok.inj hports
  exact preflight_named hspecs

/-- The ports that a design shows for `pairs`, by itself or in its flattened form. -/
def Shows (library : Library) (top : Option Nat) (pairs : List (Bytes × Bytes)) (side : Nat)
    (ports : List BoundaryPort) : Prop :=
  boundarySelection library top pairs side = .ok ports ∨
    ∃ dnl boundary, leafBoundary library dnl top pairs side = .ok boundary ∧
      boundary.ports = ports

theorem Shows.named {library : Library} {top : Option Nat} {pairs : List (Bytes × Bytes)}
    {side : Nat} {ports : List BoundaryPort} (h : Shows library top pairs side ports) :
    ∃ t names, top = some t ∧ Named (library t) names ports := by
  obtain hselected | ⟨dnl, boundary, hboundary, rfl⟩ := h
  · exact boundarySelection_named hselected
  · exact boundarySelection_named (leafBoundary_ports hboundary)

/-- A generated name determines pair, pin and bit; interfaces are accepted exactly where each
side has one port for a key and the ports match; and what a design shows has keys of its own,
generated names of its own and no name of an existing terminal, so that of two such interfaces
only the matching is left to check. -/
theorem boundaryInterfaces_exact :
    (∀ i j n m b c, makeTopTermName i n b = makeTopTermName j m c → i = j ∧ n = m ∧ b = c) ∧
    (∀ left right, validateBoundaryInterfaces left right = .ok () ↔
      (left.map BoundaryPort.key).Nodup ∧ (right.map BoundaryPort.key).Nodup ∧
        Nonempty (Matching left right)) ∧
    (∀ library top pairs side ports, Shows library top pairs side ports →
      (ports.map BoundaryPort.key).Nodup ∧ (ports.map (·.topTermName)).Nodup ∧
      ∀ p ∈ ports, p.topTermName = makeTopTermName p.pairIndex p.pinName p.bit ∧
        ∃ t, top = some t ∧ p.topTermName ∉ (library t).termNames) ∧
    ∀ library library' top top' pairs left right, Shows library top pairs 0 left →
      Shows library' top' pairs 1 right →
      (validateBoundaryInterfaces left right = .ok () ↔ Nonempty (Matching left right)) := by
  refine ⟨fun i j n m b c h => makeTopTermName_inj h,
    fun left right => validateBoundaryInterfaces_ok, ?_, ?_⟩
  · intro library top pairs side ports hshows
    obtain ⟨t, names, htop, hnamed⟩ := hshows.named
    exact ⟨hnamed.nodup_keys, hnamed.nodup_names,
      fun p hp => ⟨hnamed.generated p hp, t, htop, hnamed.fresh p hp⟩⟩
  · intro library library' top top' pairs left right hleft hright
    obtain ⟨_, _, -, hleft⟩ := hleft.named
    obtain ⟨_, _, -, hright⟩ := hright.named
    rw [validateBoundaryInterfaces_ok]
    exact ⟨fun h => h.2.2, fun h => ⟨hleft.nodup_keys, hright.nodup_keys, h⟩⟩

/-- A top level design 0 with an instance `u` of a leaf 1 that has two pins. -/
def twoPins : Library := fun n =>
  let pin (id : Nat) (name : String) (direction : Direction) (net : Option BitNet) : InstTerm :=
    ⟨id, ⟨ascii name, false, 0, direction, false, none⟩, net⟩
  if n = 0 then
    ⟨false, [⟨ascii "u", 1, [pin 0 "q" .output none, pin 1 "d" .input (some ⟨true, []⟩)]⟩], []⟩
  else
    ⟨true, [], [ascii "d", ascii "q"]⟩

def twoPorts : List BoundaryPort :=
  [⟨0, ascii "d", 0, true, 1, 0, 0, ascii "__kepler_boundary_p0_n64_bp0"⟩,
    ⟨0, ascii "q", 0, false, 1, 0, 0, ascii "__kepler_boundary_p0_n71_bp0"⟩]

theorem boundaryInterfaces_exact_two :
    boundarySelection twoPins (some 0) [(ascii "u", ascii "u")] 0 = .ok twoPorts ∧
    (twoPorts.map (·.topTermName)).Nodup ∧
    validateBoundaryInterfaces twoPorts twoPorts = .ok () := by
  have hleft : boundarySelection twoPins (some 0) [(ascii "u", ascii "u")] 0 = .ok twoPorts := rfl
  have hright : boundarySelection twoPins (some 0) [(ascii "u", ascii "u")] 1 = .ok twoPorts := rfl
  refine ⟨hleft, (boundaryInterfaces_exact.2.2.1 _ _ _ _ _ (Or.inl hleft)).2.1, ?_⟩
  exact (boundaryInterfaces_exact.2.2.2 _ _ _ _ _ _ _ (Or.inl hleft) (Or.inl hright)).mpr
    ⟨Matching.ofPerm (List.Perm.refl _)⟩

end KeplerFormal.DesignBoundary
