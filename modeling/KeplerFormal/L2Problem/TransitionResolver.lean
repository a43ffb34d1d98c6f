import KeplerFormal.Core.Sweep
import KeplerFormal.L1Formula.DualRailEncoding
import KeplerFormal.L1Formula.Remapping
import KeplerFormal.L2Problem.Problem

/-!
# Transitions on demand (`src/sec/proof/TransitionExprResolver.cpp`)

A large problem keeps the next-state expressions of its designs in their own symbols. The
resolver renames or lifts one when it is asked for, and remembers results in caches of its own
and in caches that all resolvers of a problem share.

* `TransitionProblem`: what the queries read; `Caches`: what they write.
* `at`, `support`, `encodingPostorder`, `collectSupportForTargets`: the queries.
* `eagerlyBuilt`: what the builders of a problem without a lazy store make of a transition.
-/
namespace KeplerFormal.TransitionResolver

open Core Remapping

/-! ## The problem -/

inductive LazyTransitionRail where
  | binary
  | dualRailOne
  | dualRailZero
  deriving DecidableEq, Repr

/-- mirrors src/sec/kinduction/KInductionProblem.h:28-36 -/
structure LazyTransitionSource where
  designIndex : Nat
  localExpr : BoolExpr
  rail : LazyTransitionRail := .binary

/-- The symbols of one design: their names in the problem, and the rails of its states. -/
structure DesignTables where
  localToCombined : VarMap
  dualRailStateByLocalSymbol : List (Nat × DualRailSymbolPair) := []

/-- The part of `LazyTransitionStore` that the queries only read. -/
structure LazySources where
  sourceByStateSymbol : List (Nat × LazyTransitionSource)
  designs : List DesignTables

structure TransitionProblem where
  transitions0 : List (Nat × BoolExpr) := []
  transitions1 : List (Nat × BoolExpr) := []
  auxiliaryTransitions : List (Nat × BoolExpr) := []
  lazyTransitions : Option LazySources := none
  usesDualRailStateEncoding : Bool := false

/-- The first entry of a symbol wins, as in `emplace`.
mirrors src/sec/proof/TransitionExprResolver.cpp:306-320 -/
def TransitionProblem.eagerByStateSymbol (p : TransitionProblem) : List (Nat × BoolExpr) :=
  p.transitions0 ++ p.transitions1 ++ p.auxiliaryTransitions

/-! ## Renaming and lifting -/

/-- mirrors src/sec/proof/TransitionExprResolver.cpp:201-218 -/
def mapLazyTransitionSymbol (designIndex localSymbol : Nat) (symbolMap : VarMap) :
    Except String Nat :=
  if localSymbol < 2 then .ok localSymbol
  else
    match symbolMap.lookup localSymbol with
    | some mapped => .ok mapped
    | none => .error (s!"SEC lazy transition for design{designIndex}" ++
        s!" contains unpublished internal support v{localSymbol}")

/-- One node of `buildDualRailBoolExpr`.
mirrors src/sec/proof/DualRailEncoding.cpp:41-125 -/
def liftNode (mapVariable : DualRailVariableMapper) (memo : Memo BoolExpr DualRailBoolExpr) :
    BoolExpr → Except String DualRailBoolExpr
  | .var id =>
    if id = 0 then .ok ⟨.createFalse, .createTrue⟩
    else if id = 1 then .ok ⟨.createTrue, .createFalse⟩
    else mapVariable id
  | .not a => do
    let operand ← ExprMemo.at memo a
    .ok ⟨operand.mayBeZero, operand.mayBeOne⟩
  | .and a b => do
    let lhs ← ExprMemo.at memo a
    let rhs ← ExprMemo.at memo b
    .ok ⟨.And lhs.mayBeOne rhs.mayBeOne, .Or lhs.mayBeZero rhs.mayBeZero⟩
  | .or a b => do
    let lhs ← ExprMemo.at memo a
    let rhs ← ExprMemo.at memo b
    .ok ⟨.Or lhs.mayBeOne rhs.mayBeOne, .And lhs.mayBeZero rhs.mayBeZero⟩
  | .xor a b => do
    let lhs ← ExprMemo.at memo a
    let rhs ← ExprMemo.at memo b
    .ok ⟨.Or (.And lhs.mayBeOne rhs.mayBeZero) (.And lhs.mayBeZero rhs.mayBeOne),
      .Or (.And lhs.mayBeOne rhs.mayBeOne) (.And lhs.mayBeZero rhs.mayBeZero)⟩

/-- The lift with a memo that a failing call leaves as far as it got.
mirrors src/sec/proof/DualRailEncoding.cpp:11-130 -/
def buildDualRail (mapVariable : DualRailVariableMapper) :
    BoolExpr → Memo BoolExpr DualRailBoolExpr →
      Except String DualRailBoolExpr × Memo BoolExpr DualRailBoolExpr :=
  memoCall true (liftNode mapVariable)

/-- A mapper over the tables of a design; `unpublished` is its failure for other symbols. -/
def tablesMapper (unpublished : Nat → String) (tables : DesignTables) : DualRailVariableMapper :=
  fun symbol =>
    match tables.dualRailStateByLocalSymbol.lookup symbol with
    | some rails => .ok ⟨.var rails.mayBeOne, .var rails.mayBeZero⟩
    | none =>
      if symbol < 2 then
        .ok (if symbol = 1 then ⟨.createTrue, .createFalse⟩ else ⟨.createFalse, .createTrue⟩)
      else
        match tables.localToCombined.lookup symbol with
        | some mapped => .ok ⟨.var mapped, .Not (.var mapped)⟩
        | none => .error (unpublished symbol)

/-- mirrors src/sec/proof/TransitionExprResolver.cpp:26-64 -/
def lazyDualRailVariableMapper (designIndex : Nat) (tables : DesignTables) :
    DualRailVariableMapper :=
  tablesMapper (fun symbol => s!"SEC lazy transition for design{designIndex}" ++
    s!" contains unpublished internal support v{symbol}") tables

/-- mirrors src/sec/strategy/SequentialEquivalenceStrategy.cpp:507-552 -/
def secDualRailVariableMapper (tables : DesignTables) : DualRailVariableMapper :=
  tablesMapper (fun symbol => s!"SEC formula contains unpublished internal support v{symbol}")
    tables

/-- mirrors src/sec/proof/TransitionExprResolver.cpp:293-301 -/
def LazyTransitionRail.of (rail : LazyTransitionRail) (lifted : DualRailBoolExpr) :
    Except String BoolExpr :=
  match rail with
  | .dualRailOne => .ok lifted.mayBeOne
  | .dualRailZero => .ok lifted.mayBeZero
  | .binary => .error "Lazy dual-rail transition requested for binary rail"

/-! ## Supports -/

/-- A support, and the rails that were met on the way. -/
abbrev SupportWalk := Finset Nat × List DualRailSymbolPair

def supportSweep (mapSymbol : Nat → Except String (Nat × List DualRailSymbolPair)) :
    Sweep BoolExpr SupportWalk String where
  children := BoolExpr.operands
  visit node walk :=
    match node with
    | .var id =>
      match mapSymbol id with
      | .ok (symbol, touched) => .ok (insert symbol walk.1, walk.2 ++ touched)
      | .error e => .error e
    | _ => .ok walk
  weight := BoolExpr.weight
  weight_children n := by
    have h := BoolExpr.weight_operands n
    omega

/-- mirrors src/sec/proof/TransitionExprResolver.cpp:95-134 -/
def collectBoolExprSupport (formula : BoolExpr)
    (mapSymbol : Nat → Except String (Nat × List DualRailSymbolPair)) :
    Except String SupportWalk :=
  ((supportSweep mapSymbol).run [formula] [] (∅, [])).mapError Prod.fst

/-- mirrors src/sec/proof/TransitionExprResolver.cpp:157-160 -/
def identitySupport (formula : BoolExpr) : Except String (Finset Nat) := do
  .ok (← collectBoolExprSupport formula fun symbol => .ok (symbol, [])).1

def binarySymbol (designIndex : Nat) (symbolMap : VarMap) (localSymbol : Nat) :
    Except String (Nat × List DualRailSymbolPair) := do
  .ok (← mapLazyTransitionSymbol designIndex localSymbol symbolMap, [])

/-- mirrors src/sec/proof/TransitionExprResolver.cpp:220-232 -/
def remappedSupport (formula : BoolExpr) (designIndex : Nat) (symbolMap : VarMap) :
    Except String (Finset Nat) := do
  .ok (← collectBoolExprSupport formula (binarySymbol designIndex symbolMap)).1

def dualRailSymbol (designIndex : Nat) (tables : DesignTables) (localSymbol : Nat) :
    Except String (Nat × List DualRailSymbolPair) :=
  if localSymbol < 2 then .ok (localSymbol, [])
  else
    match tables.dualRailStateByLocalSymbol.lookup localSymbol with
    | some rails => .ok (rails.mayBeOne, [rails])
    | none => binarySymbol designIndex tables.localToCombined localSymbol

/-- mirrors src/sec/proof/TransitionExprResolver.cpp:234-260 -/
def remappedDualRailSupport (formula : BoolExpr) (designIndex : Nat) (tables : DesignTables) :
    Except String (Finset Nat) := do
  let (support, touchedStateRails) ←
    collectBoolExprSupport formula (dualRailSymbol designIndex tables)
  .ok (((touchedStateRails.foldl (fun s rails => insert rails.mayBeZero s) support).erase 0).erase 1)

/-! ## Queries -/

structure Caches where
  /-- of the store -/
  remapMemoByDesign : Nat → ExprMemo := fun _ => []
  dualRailRemapMemoByDesign : Nat → Memo BoolExpr DualRailBoolExpr := fun _ => []
  remappedByStateSymbol : List (Nat × BoolExpr) := []
  storeSupportByStateSymbol : List (Nat × Finset Nat) := []
  /-- of the resolver -/
  supportByStateSymbol : List (Nat × Finset Nat) := []
  encodingPostorderByExpr : List (BoolExpr × List BoolExpr) := []

/-- The source of a symbol without an eager transition. -/
def sourceAt (p : TransitionProblem) (stateSymbol : Nat) :
    Except String (LazyTransitionSource × DesignTables) :=
  match p.lazyTransitions with
  | none => .error s!"Missing transition expression for state symbol {stateSymbol}"
  | some store =>
    match store.sourceByStateSymbol.lookup stateSymbol with
    | none => .error s!"Missing lazy transition expression for state symbol {stateSymbol}"
    | some source =>
      match store.designs[source.designIndex]? with
      | none => .error "Invalid lazy transition design index"
      | some tables => .ok (source, tables)

/-- mirrors src/sec/proof/TransitionExprResolver.cpp:276-302 -/
def materializeLazyDualRailTransition (source : LazyTransitionSource) (tables : DesignTables)
    (q : Caches) : Except String BoolExpr × Caches :=
  let run := buildDualRail (lazyDualRailVariableMapper source.designIndex tables)
    source.localExpr (q.dualRailRemapMemoByDesign source.designIndex)
  (run.1.bind source.rail.of,
    { q with dualRailRemapMemoByDesign :=
        Function.update q.dualRailRemapMemoByDesign source.designIndex run.2 })

/-- mirrors src/sec/proof/TransitionExprResolver.cpp:371-380 -/
def materializeBinaryTransition (source : LazyTransitionSource) (tables : DesignTables)
    (q : Caches) : Except String BoolExpr × Caches :=
  match remappedSupport source.localExpr source.designIndex tables.localToCombined with
  | .error e => (.error e, q)
  | .ok _ =>
    let run := remapBoolExprVariables tables.localToCombined source.localExpr
      (q.remapMemoByDesign source.designIndex)
    (run.1, { q with remapMemoByDesign :=
      Function.update q.remapMemoByDesign source.designIndex run.2 })

/-- mirrors src/sec/proof/TransitionExprResolver.cpp:331-383 -/
def «at» (p : TransitionProblem) (stateSymbol : Nat) (q : Caches) :
    Except String BoolExpr × Caches :=
  match p.eagerByStateSymbol.lookup stateSymbol with
  | some e => (.ok e, q)
  | none =>
    match q.remappedByStateSymbol.lookup stateSymbol with
    | some e => (.ok e, q)
    | none =>
      match sourceAt p stateSymbol with
      | .error e => (.error e, q)
      | .ok (source, tables) =>
        let run := if source.rail ≠ .binary then materializeLazyDualRailTransition source tables q
          else materializeBinaryTransition source tables q
        match run.1 with
        | .error e => (.error e, run.2)
        | .ok remapped =>
          (.ok remapped, { run.2 with remappedByStateSymbol :=
            (stateSymbol, remapped) :: run.2.remappedByStateSymbol })

/-- The support of a source.
mirrors src/sec/proof/TransitionExprResolver.cpp:468-483 -/
def sourceSupport (source : LazyTransitionSource) (tables : DesignTables) :
    Except String (Finset Nat) :=
  if source.rail ≠ .binary then
    remappedDualRailSupport source.localExpr source.designIndex tables
  else remappedSupport source.localExpr source.designIndex tables.localToCombined

/-- mirrors src/sec/proof/TransitionExprResolver.cpp:423-485 -/
def support (p : TransitionProblem) (stateSymbol : Nat) (q : Caches) :
    Except String (Finset Nat) × Caches :=
  match q.supportByStateSymbol.lookup stateSymbol with
  | some s => (.ok s, q)
  | none =>
    match p.eagerByStateSymbol.lookup stateSymbol with
    | some e =>
      match identitySupport e with
      | .error message => (.error message, q)
      | .ok s => (.ok s, { q with supportByStateSymbol := (stateSymbol, s) :: q.supportByStateSymbol })
    | none =>
      match q.storeSupportByStateSymbol.lookup stateSymbol with
      | some s => (.ok s, q)
      | none =>
        match do let (source, tables) ← sourceAt p stateSymbol
                 sourceSupport source tables with
        | .error message => (.error message, q)
        | .ok s => (.ok s, { q with
            storeSupportByStateSymbol := (stateSymbol, s) :: q.storeSupportByStateSymbol })

/-- The expression that is encoded for a symbol: a binary source stays in its own symbols.
mirrors src/sec/proof/TransitionExprResolver.cpp:385-421 -/
def expressionView (p : TransitionProblem) (stateSymbol : Nat) (q : Caches) :
    Except String BoolExpr × Caches :=
  match p.eagerByStateSymbol.lookup stateSymbol with
  | some e => (.ok e, q)
  | none =>
    match sourceAt p stateSymbol with
    | .error e => (.error e, q)
    | .ok (source, _) => if source.rail ≠ .binary then «at» p stateSymbol q
      else (.ok source.localExpr, q)

/-- mirrors src/sec/proof/TransitionExprResolver.cpp:162-199 -/
def postorderTraversal : Traversal BoolExpr (List BoolExpr) String where
  children := BoolExpr.operands
  done postorder node := decide (node ∈ postorder)
  finish node postorder := .ok (postorder ++ [node])
  skipDone := false
  weight := BoolExpr.weight
  weight_children := BoolExpr.weight_operands

def buildEncodingPostorder (formula : BoolExpr) : Except String (List BoolExpr) :=
  (postorderTraversal.visit formula []).mapError Prod.fst

/-- mirrors src/sec/proof/TransitionExprResolver.cpp:487-497 -/
def encodingPostorder (p : TransitionProblem) (stateSymbol : Nat) (q : Caches) :
    Except String (List BoolExpr) × Caches :=
  match expressionView p stateSymbol q with
  | (.error e, q) => (.error e, q)
  | (.ok expr, q) =>
    match q.encodingPostorderByExpr.lookup expr with
    | some postorder => (.ok postorder, q)
    | none =>
      match buildEncodingPostorder expr with
      | .error e => (.error e, q)
      | .ok postorder => (.ok postorder, { q with
          encodingPostorderByExpr := (expr, postorder) :: q.encodingPostorderByExpr })

/-! ## The supports of several targets -/

structure CollectedSupport where
  stateSupport : Finset Nat := ∅
  allSupport : Finset Nat := ∅

/-- mirrors src/sec/proof/TransitionExprResolver.cpp:262-274 -/
def addCollectedSupportSymbol (knownStateSymbols : Finset Nat) (c : CollectedSupport)
    (symbol : Nat) : CollectedSupport :=
  if symbol < 2 then c
  else
    { allSupport := insert symbol c.allSupport
      stateSupport := if symbol ∈ knownStateSymbols then insert symbol c.stateSupport
        else c.stateSupport }

/-- A node with the tables that its symbols are read through, by the design they belong to.
mirrors src/sec/proof/TransitionExprResolver.cpp:136-146 -/
structure SupportVisitKey where
  node : BoolExpr
  symbolMap : Option Nat := none
  stateRails : Option Nat := none
  designIndex : Nat := 0
  deriving DecidableEq

/-- mirrors src/sec/proof/TransitionExprResolver.cpp:536-581 -/
def supportRoot (p : TransitionProblem) (stateSymbol : Nat) : Except String SupportVisitKey :=
  match p.eagerByStateSymbol.lookup stateSymbol with
  | some e => .ok { node := e }
  | none => do
    let (source, _) ← sourceAt p stateSymbol
    .ok { node := source.localExpr
          symbolMap := some source.designIndex
          stateRails := if source.rail ≠ .binary then some source.designIndex else none
          designIndex := source.designIndex }

def tablesOf (p : TransitionProblem) (design : Option Nat) : Option DesignTables := do
  (← p.lazyTransitions).designs[← design]?

/-- The symbols that a leaf stands for.
mirrors src/sec/proof/TransitionExprResolver.cpp:590-615 -/
def leafSymbols (p : TransitionProblem) (key : SupportVisitKey) (symbol : Nat) :
    Except String (List Nat) :=
  match (if 2 ≤ symbol then tablesOf p key.stateRails else none).bind fun tables =>
      tables.dualRailStateByLocalSymbol.lookup symbol with
  | some rails => .ok [rails.mayBeOne, rails.mayBeZero]
  | none =>
    match (if 2 ≤ symbol then tablesOf p key.symbolMap else none) with
    | some tables => do
      .ok [← mapLazyTransitionSymbol key.designIndex symbol tables.localToCombined]
    | none => .ok [symbol]

def collectSweep (p : TransitionProblem) (knownStateSymbols : Finset Nat) :
    Sweep SupportVisitKey CollectedSupport String where
  children key := key.node.operands.map fun node => { key with node := node }
  visit key c :=
    match key.node with
    | .var symbol =>
      match leafSymbols p key symbol with
      | .ok symbols => .ok (symbols.foldl (addCollectedSupportSymbol knownStateSymbols) c)
      | .error e => .error e
    | _ => .ok c
  weight key := key.node.weight
  weight_children key := by
    have h := BoolExpr.weight_operands key.node
    rw [List.map_map]
    change (key.node.operands.map BoolExpr.weight).sum < _
    omega

def kCachedUnionSupportTargetThreshold : Nat := 16

/-- mirrors src/sec/proof/TransitionExprResolver.cpp:513-519 -/
def collectBySymbol (p : TransitionProblem) (knownStateSymbols : Finset Nat) :
    List Nat → CollectedSupport → Caches →
      Except (String × CollectedSupport) CollectedSupport × Caches
  | [], c, q => (.ok c, q)
  | s :: targets, c, q =>
    match support p s q with
    | (.error e, q) => (.error (e, c), q)
    | (.ok symbols, q) => collectBySymbol p knownStateSymbols targets
        (symbols.sort.foldl (addCollectedSupportSymbol knownStateSymbols) c) q

/-- The last target is on top of the stack.
mirrors src/sec/proof/TransitionExprResolver.cpp:522-630 -/
def collectTogether (p : TransitionProblem) (knownStateSymbols : Finset Nat)
    (targets : List Nat) (c : CollectedSupport) :
    Except (String × CollectedSupport) CollectedSupport :=
  match targets.mapM (supportRoot p) with
  | .error e => .error (e, c)
  | .ok roots => (collectSweep p knownStateSymbols).run roots.reverse [] c

/-- mirrors src/sec/proof/TransitionExprResolver.cpp:499-631 -/
def collectSupportForTargets (p : TransitionProblem) (stateSymbols : List Nat)
    (knownStateSymbols : Finset Nat) (c : CollectedSupport) (q : Caches) :
    Except (String × CollectedSupport) CollectedSupport × Caches :=
  if stateSymbols.isEmpty then (.ok c, q)
  else if !p.usesDualRailStateEncoding &&
      kCachedUnionSupportTargetThreshold ≤ stateSymbols.length then
    collectBySymbol p knownStateSymbols stateSymbols c q
  else (collectTogether p knownStateSymbols stateSymbols c, q)

/-! ## Sequences of queries -/

inductive Query where
  /-- another resolver for the problem, which shares the store -/
  | newResolver
  | at (stateSymbol : Nat)
  | support (stateSymbol : Nat)
  | encodingPostorder (stateSymbol : Nat)
  | collect (stateSymbols : List Nat) (knownStateSymbols : Finset Nat)
    (collected : CollectedSupport)

def Caches.after (p : TransitionProblem) (q : Caches) : Query → Caches
  | .newResolver => { q with supportByStateSymbol := [], encodingPostorderByExpr := [] }
  | .at s => («at» p s q).2
  | .support s => (TransitionResolver.support p s q).2
  | .encodingPostorder s => (TransitionResolver.encodingPostorder p s q).2
  | .collect targets known c => (collectSupportForTargets p targets known c q).2

def runQueries (p : TransitionProblem) (queries : List Query) : Caches :=
  queries.foldl (Caches.after p) {}

/-! ## Without a lazy store -/

/-- What the builders of a problem make of the transition of a symbol, after the expressions
`built` of the same design.
mirrors src/sec/strategy/SequentialEquivalenceStrategy.cpp:2412-2427, 2944-2962 -/
def eagerlyBuilt (p : TransitionProblem) (built : List BoolExpr) (stateSymbol : Nat) :
    Except String BoolExpr :=
  match p.eagerByStateSymbol.lookup stateSymbol with
  | some e => .ok e
  | none => do
    let (source, tables) ← sourceAt p stateSymbol
    if source.rail ≠ .binary then
      let lift := buildDualRail (secDualRailVariableMapper tables)
      (lift source.localExpr (memoCalls lift built []).2).1.bind source.rail.of
    else
      let rename := remapSecFormulaStrict tables.localToCombined
      (rename source.localExpr (memoCalls rename built []).2).1

end KeplerFormal.TransitionResolver
