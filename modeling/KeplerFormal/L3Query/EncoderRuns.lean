import KeplerFormal.L1Formula.ExprTraversal
import KeplerFormal.L3Query.EncoderCache

/-!
# The frame encoder over a sequence of calls (`src/sec/kinduction/SatEncoding.cpp`)

One encoder serves many formulas that share nodes, and may get more leaves between two calls; the
solver below it has other users. The nodes of a formula are visited with a stack of the encoder's
own, or in an order that the caller supplies.

* `Grown`: what encoding a node may do; `encodeReadyNode_spec`: a node whose operands are cached.
* `encode_spec`, `encodeInOrder_spec`: the two traversals, and exactly when they fail.
* `Inv`: what holds between two calls; `step_inv` is the step lemma, `run_inv` the run lemma.
* `frameFormulaEncoder_exact`: literals keep the values of their formulas, and the clauses of a
  call restrict nothing.
-/
namespace KeplerFormal.SatEncoding

open Core CraigCnf NodeCache

/-! ## The encoder -/

/-- `gates` has the solver, the leaves and the literal of true. -/
structure FrameEncoder where
  gates : GateEncoder
  cache : NodeCache
  symbolMap : Option (List (Nat × Nat)) := none
  createMissingLeaves : Bool := false

namespace FrameEncoder

abbrev cnf (e : FrameEncoder) : CraigCnf := e.gates.cnf

/-- mirrors src/sec/kinduction/SatEncoding.cpp:369-384 -/
def mappedSymbol (e : FrameEncoder) (symbol : Nat) : Except String Nat :=
  match e.symbolMap with
  | none => .ok symbol
  | some map =>
    if symbol < 2 then .ok symbol
    else
      match map.lookup symbol with
      | some mapped => .ok mapped
      | none => .error s!"Missing frame encoder symbol remap for variable {symbol}"

section Encode
variable (hash : BoolExpr → Nat)

/-- mirrors src/sec/kinduction/SatEncoding.cpp:233-245 -/
def new (solver : CraigCnf) (symbolMap : Option (List (Nat × Nat))) (createMissingLeaves : Bool)
    (expectedNodeHint : Nat) : FrameEncoder where
  gates := { cnf := solver }
  cache := reserveNodeCache hash solver.leafLits.length expectedNodeHint
  symbolMap := symbolMap
  createMissingLeaves := createMissingLeaves

/-- mirrors src/sec/kinduction/SatEncoding.cpp:251-260 -/
def addLeafLiteral (symbol : Nat) (literal : Lit Nat) (e : FrameEncoder) :
    Except String Unit × FrameEncoder :=
  match e.cnf.leafLits.lookup symbol with
  | some existing =>
    if existing ≠ literal then (.error "FrameFormulaEncoder leaf literal changed", e)
    else (.ok (), e)
  | none => (.ok (), { e with gates := { e.gates with
      cnf := { e.cnf with leafLits := (symbol, literal) :: e.cnf.leafLits } } })

def findCached (node : BoolExpr) (e : FrameEncoder) : Option (Lit Nat) :=
  e.cache.findCachedLiteral hash node

/-- mirrors src/sec/kinduction/SatEncoding.cpp:360-367 -/
def cachedLiteral (node : BoolExpr) (e : FrameEncoder) : Except String (Lit Nat) :=
  match e.findCached hash node with
  | some lit => .ok lit
  | none => .error "Missing cached BoolExpr literal"

/-- The literal of a variable. -/
def leafLiteral (id : Nat) (e : FrameEncoder) : Except String (Lit Nat × GateEncoder) :=
  if id = 0 then .ok (e.gates.getConstLit (fun a => a) false)
  else if id = 1 then .ok (e.gates.getConstLit (fun a => a) true)
  else do
    let symbol ← e.mappedSymbol id
    match e.cnf.leafLits.lookup symbol with
    | some lit => .ok (lit, e.gates)
    | none =>
      if !e.createMissingLeaves then .error s!"Missing leaf literal for symbol {symbol}"
      else .ok (e.gates.leafLit (fun a => a) symbol)

/-- The literal of a node from those of its operands. -/
def readyLiteral (node : BoolExpr) (e : FrameEncoder) :
    Except String (Lit Nat × GateEncoder) :=
  match node with
  | .var id => e.leafLiteral id
  | .not a => do
    let left ← e.cachedLiteral hash a
    .ok (left.neg, e.gates)
  | .and a b => do
    let left ← e.cachedLiteral hash a
    let right ← e.cachedLiteral hash b
    .ok (e.gates.andLit left right)
  | .or a b => do
    let left ← e.cachedLiteral hash a
    let right ← e.cachedLiteral hash b
    .ok (e.gates.orLit left right)
  | .xor a b => do
    let left ← e.cachedLiteral hash a
    let right ← e.cachedLiteral hash b
    .ok (e.gates.xorLit left right)

/-- mirrors src/sec/kinduction/SatEncoding.cpp:452-554 -/
def encodeReadyNode (node : BoolExpr) (e : FrameEncoder) :
    Except (String × FrameEncoder) FrameEncoder :=
  match e.readyLiteral hash node with
  | .error message => .error (message, e)
  | .ok (lit, gates) =>
    .ok { e with gates := gates, cache := e.cache.cacheEncodedLiteral hash node lit }

/-- The stack of `encode`: the left operand on top of the right one. -/
def encodeTraversal : Traversal BoolExpr FrameEncoder String where
  children := BoolExpr.operands
  done e node := (e.findCached hash node).isSome
  finish node e := e.encodeReadyNode hash node
  skipDone := false
  weight := BoolExpr.weight
  weight_children := BoolExpr.weight_operands

/-- mirrors src/sec/kinduction/SatEncoding.cpp:556-595 -/
def encode (expr : BoolExpr) (e : FrameEncoder) : Except String (Lit Nat) × FrameEncoder :=
  match (encodeTraversal hash).visit expr e with
  | .ok e => (e.cachedLiteral hash expr, e)
  | .error (message, e) => (.error message, e)

/-- The nodes of a supplied order. -/
def encodeNodes : List BoolExpr → FrameEncoder → Except (String × FrameEncoder) FrameEncoder
  | [], e => .ok e
  | node :: rest, e =>
    if (e.findCached hash node).isSome then encodeNodes rest e
    else if node.operands.any fun operand => (e.findCached hash operand).isNone then
      .error ("FrameFormulaEncoder postorder contains an unencoded child", e)
    else
      match e.encodeReadyNode hash node with
      | .ok e => encodeNodes rest e
      | .error failure => .error failure

/-- mirrors src/sec/kinduction/SatEncoding.cpp:597-619 -/
def encodeInOrder (expr : BoolExpr) (postorder : List BoolExpr) (e : FrameEncoder) :
    Except String (Lit Nat) × FrameEncoder :=
  match e.encodeNodes hash postorder with
  | .ok e => (e.cachedLiteral hash expr, e)
  | .error (message, e) => (.error message, e)

end Encode
end FrameEncoder

/-! ## Sequences of calls -/

inductive EncoderCall where
  | addLeafLiteral (symbol : Nat) (literal : Lit Nat)
  | encode (expr : BoolExpr)
  | encodeInOrder (expr : BoolExpr) (postorder : List BoolExpr)
  /-- other users of the solver make variables and add clauses -/
  | solver (newVars : Nat) (clauses : Query Nat)

/-- New variables and clauses from elsewhere. -/
def CraigCnfGrown (newVars : Nat) (clauses : Query Nat) (a : CraigCnf) : CraigCnf :=
  CnfState.addClauses { a with labels := a.labels ++ List.replicate newVars a.variablePartition }
    clauses

/-- The literals of a call are of variables that the solver has. -/
def EncoderCall.Valid (e : FrameEncoder) : EncoderCall → Prop
  | .addLeafLiteral _ literal => literal.atom < e.cnf.vars
  | .solver newVars clauses => CnfState.Bounded (e.cnf.vars + newVars) clauses
  | _ => True

section Runs
variable (hash : BoolExpr → Nat)

def FrameEncoder.step (e : FrameEncoder) : EncoderCall → FrameEncoder
  | .addLeafLiteral symbol literal => (e.addLeafLiteral symbol literal).2
  | .encode expr => (e.encode hash expr).2
  | .encodeInOrder expr postorder => (e.encodeInOrder hash expr postorder).2
  | .solver newVars clauses =>
    { e with gates := { e.gates with cnf := CraigCnfGrown newVars clauses e.cnf } }

def FrameEncoder.run (e : FrameEncoder) (calls : List EncoderCall) : FrameEncoder :=
  calls.foldl (FrameEncoder.step hash) e

def ValidCalls (e : FrameEncoder) : List EncoderCall → Prop
  | [] => True
  | call :: calls => call.Valid e ∧ ValidCalls (e.step hash call) calls

end Runs

/-! ## What a call may do -/

section Spec
variable {hash : BoolExpr → Nat} {v : CraigVariablePartition} {c : CraigClausePartition}
  {e e' e'' : FrameEncoder}

namespace FrameEncoder

/-- The values of the leaves, read through the symbol map. -/
def through (e : FrameEncoder) (σ : Valuation) : Valuation := fun id =>
  match e.mappedSymbol id with
  | .ok symbol => σ symbol
  | .error _ => false

def value (e : FrameEncoder) (node : BoolExpr) (σ : Valuation) : Bool := node.eval (e.through σ)

/-- The variable has no leaf, and gets none. -/
def Missing (e : FrameEncoder) (id : Nat) : Prop :=
  (∃ message, e.mappedSymbol id = .error message) ∨
    ∃ symbol, e.mappedSymbol id = .ok symbol ∧ e.createMissingLeaves = false ∧
      ¬ Present e.cnf symbol

/-- Every variable of the node has a leaf of `a`. -/
def Covers (e : FrameEncoder) (a : CraigCnf) (node : BoolExpr) : Prop :=
  ∀ id ∈ node.getSupportVars, 2 ≤ id → ∃ symbol, e.mappedSymbol id = .ok symbol ∧ Present a symbol

end FrameEncoder

open FrameEncoder

/-- What holds between two calls. -/
structure Inv (hash : BoolExpr → Nat) (v : CraigVariablePartition) (c : CraigClausePartition)
    (e : FrameEncoder) : Prop where
  gates : GateInv v c e.gates
  cache : CacheInv hash e.cache
  nodes : ∀ node l, e.findCached hash node = some l → e.cnf.Denotes l (e.value node)
  covers : ∀ node l, e.findCached hash node = some l → e.Covers e.cnf node

/-- New variables and clauses that restrict nothing, and more nodes in the cache. -/
structure Grown (hash : BoolExpr → Nat) (v : CraigVariablePartition) (c : CraigClausePartition)
    (e e' : FrameEncoder) : Prop where
  inv : Inv hash v c e'
  extends_ : CnfState.Extends v c e.cnf e'.cnf fun _ _ => True
  kept : ∀ node l, e.findCached hash node = some l → e'.findCached hash node = some l
  symbolMap : e'.symbolMap = e.symbolMap
  createMissingLeaves : e'.createMissingLeaves = e.createMissingLeaves
  leaves : e.createMissingLeaves = false → e'.cnf.leafLits = e.cnf.leafLits

theorem Grown.refl (h : Inv hash v c e) : Grown hash v c e e :=
  ⟨h, CnfState.Extends.refl h.gates.wf, fun _ _ hl => hl, rfl, rfl, fun _ => rfl⟩

theorem Grown.trans (h : Grown hash v c e e') (h' : Grown hash v c e' e'') :
    Grown hash v c e e'' where
  inv := h'.inv
  extends_ := h.extends_.trans_true h'.extends_
  kept node l hl := h'.kept node l (h.kept node l hl)
  symbolMap := h'.symbolMap.trans h.symbolMap
  createMissingLeaves := h'.createMissingLeaves.trans h.createMissingLeaves
  leaves hcreate := (h'.leaves (h.createMissingLeaves.trans hcreate)).trans (h.leaves hcreate)

theorem mappedSymbol_congr (h : e'.symbolMap = e.symbolMap) (id : Nat) :
    e'.mappedSymbol id = e.mappedSymbol id := by
  unfold FrameEncoder.mappedSymbol
  rw [h]

theorem Grown.missing (h : Grown hash v c e e') (id : Nat) : e'.Missing id ↔ e.Missing id := by
  unfold Missing
  rw [mappedSymbol_congr h.symbolMap, h.createMissingLeaves]
  refine or_congr_right (exists_congr fun symbol => and_congr_right fun _ =>
    and_congr_right fun hcreate => ?_)
  unfold Present
  rw [h.leaves hcreate]

/-! ### A node whose operands are cached -/

/-- A literal for a node, with the clauses that define it. -/
structure Ready (v : CraigVariablePartition) (c : CraigClausePartition) (e : FrameEncoder)
    (node : BoolExpr) (r : Lit Nat × GateEncoder) : Prop where
  inv : GateInv v c r.2
  extends_ : CnfState.Extends v c e.cnf r.2.cnf fun _ _ => True
  denotes : r.2.cnf.Denotes r.1 (e.value node)
  covers : e.Covers r.2.cnf node
  leaves : e.createMissingLeaves = false → r.2.cnf.leafLits = e.cnf.leafLits

theorem Covers.mono {a b : CraigCnf} {P : Valuation → (Nat → Bool) → Prop} {node : BoolExpr}
    (h : e.Covers a node) (hab : CnfState.Extends v c a b P) : e.Covers b node :=
  fun id hid h2 => by
    obtain ⟨symbol, hsymbol, hpresent⟩ := h id hid h2
    exact ⟨symbol, hsymbol, present_of_extends hab hpresent⟩

theorem Ready.of_yields {node : BoolExpr} {f : Valuation → Bool}
    {r : Lit Nat × GateEncoder}
    (h : Yields v c e.gates r f)
    (hf : ∀ σ, f σ = e.value node σ) (hcovers : e.Covers e.cnf node) : Ready v c e node r where
  inv := h.inv
  extends_ := h.extends_
  denotes := h.denotes.congr fun σ _ _ => hf σ
  covers := Covers.mono hcovers h.extends_
  leaves _ := h.sameLeaves

theorem leafLiteral_spec (h : Inv hash v c e) (id : Nat) :
    (∃ r, e.leafLiteral id = .ok r ∧ Ready v c e (.var id) r) ∨
      ∃ message, e.leafLiteral id = .error message ∧ 2 ≤ id ∧ e.Missing id := by
  have hselect : ∀ a : CraigCnf, CnfState.Wf v c a → (fun a => a) a = a := fun _ _ => rfl
  have hnone : ∀ {b : Nat}, b < 2 → e.Covers e.cnf (.var b) := fun hb id hid h2 => by
    rw [Finset.mem_singleton.mp hid] at h2
    omega
  unfold leafLiteral
  by_cases h0 : id = 0
  · subst h0
    exact .inl ⟨_, rfl, .of_yields (getConstLit_yields hselect h.gates false) (fun _ => rfl)
      (hnone (by decide))⟩
  · by_cases h1 : id = 1
    · subst h1
      exact .inl ⟨_, rfl, .of_yields (getConstLit_yields hselect h.gates true) (fun _ => rfl)
        (hnone (by decide))⟩
    · have h2 : 2 ≤ id := by omega
      rw [if_neg h0, if_neg h1]
      cases hsymbol : e.mappedSymbol id with
      | error message => exact .inr ⟨message, rfl, h2, .inl ⟨message, hsymbol⟩⟩
      | ok symbol =>
        rw [ok_bind]
        have hvalue : ∀ σ : Valuation, σ symbol = e.value (.var id) σ := fun σ => by
          rw [value, BoolExpr.eval_var _ h2, through, hsymbol]
        have hcovers : ∀ a : CraigCnf, Present a symbol → e.Covers a (.var id) :=
          fun a ha id' hid' _ => by
            rw [Finset.mem_singleton.mp hid']
            exact ⟨symbol, hsymbol, ha⟩
        cases hleaf : e.cnf.leafLits.lookup symbol with
        | some lit =>
          have hdenotes : e.cnf.Denotes lit (e.value (.var id)) :=
            ⟨h.gates.wf.leaves symbol lit hleaf,
              fun σ ν ha => (ha.leaves symbol lit hleaf).trans (hvalue σ)⟩
          exact .inl ⟨_, rfl, .of_yields (.of_denotes h.gates hdenotes) (fun _ => rfl)
            (hcovers _ (by rw [Present, hleaf]; rfl))⟩
        | none =>
          cases hcreate : e.createMissingLeaves with
          | false =>
            refine .inr ⟨_, rfl, h2, .inr ⟨symbol, hsymbol, hcreate, fun hpresent => ?_⟩⟩
            rw [Present, hleaf] at hpresent
            cases hpresent
          | true =>
            obtain ⟨hextends, hdenotes, hpresent⟩ := leaf_spec hselect h.gates.wf symbol
            exact .inl ⟨_, rfl, h.gates.mono hextends, hextends,
              hdenotes.congr fun σ _ _ => hvalue σ,
              hcovers _ ((hpresent symbol).mpr (.inl rfl)), fun hfalse => nomatch hcreate ▸ hfalse⟩

theorem cachedLiteral_spec (h : Inv hash v c e) {node : BoolExpr}
    (hcached : (e.findCached hash node).isSome) :
    ∃ l, e.cachedLiteral hash node = .ok l ∧ e.cnf.Denotes l (e.value node) ∧
      e.Covers e.cnf node := by
  obtain ⟨l, hl⟩ := Option.isSome_iff_exists.mp hcached
  refine ⟨l, ?_, h.nodes node l hl, h.covers node l hl⟩
  rw [cachedLiteral, hl]

theorem covers_binary {a : CraigCnf} {op : BoolExpr → BoolExpr → BoolExpr} {left right : BoolExpr}
    (hop : (op left right).getSupportVars = left.getSupportVars ∪ right.getSupportVars)
    (hleft : e.Covers a left) (hright : e.Covers a right) : e.Covers a (op left right) := by
  intro id hid h2
  rw [hop] at hid
  exact (Finset.mem_union.mp hid).elim (hleft id · h2) (hright id · h2)

theorem readyLiteral_spec (h : Inv hash v c e) {node : BoolExpr}
    (hoperands : ∀ operand ∈ node.operands, (e.findCached hash operand).isSome) :
    (∃ r, e.readyLiteral hash node = .ok r ∧ Ready v c e node r) ∨
      ∃ message, e.readyLiteral hash node = .error message ∧
        ∃ id, node = .var id ∧ 2 ≤ id ∧ e.Missing id := by
  cases node with
  | var id =>
    rcases leafLiteral_spec h id with hok | ⟨message, herror, h2, hmissing⟩
    · exact .inl hok
    · exact .inr ⟨message, herror, id, rfl, h2, hmissing⟩
  | not a =>
    obtain ⟨l, hl, hdenotes, hcovers⟩ := cachedLiteral_spec h (hoperands a List.mem_cons_self)
    refine .inl ⟨(l.neg, e.gates), ?_, .of_yields (.of_denotes h.gates hdenotes.neg)
      (fun _ => rfl) hcovers⟩
    rw [readyLiteral, hl, ok_bind]
  | and a b =>
    obtain ⟨l, hl, hdenotes, hcovers⟩ := cachedLiteral_spec h (hoperands a List.mem_cons_self)
    obtain ⟨r, hr, hdenotes', hcovers'⟩ :=
      cachedLiteral_spec h (hoperands b (List.mem_cons_of_mem _ (List.mem_singleton_self b)))
    refine .inl ⟨_, ?_, .of_yields (andLit_yields h.gates hdenotes hdenotes') (fun _ => rfl)
      (covers_binary rfl hcovers hcovers')⟩
    rw [readyLiteral, hl, ok_bind, hr, ok_bind]
  | or a b =>
    obtain ⟨l, hl, hdenotes, hcovers⟩ := cachedLiteral_spec h (hoperands a List.mem_cons_self)
    obtain ⟨r, hr, hdenotes', hcovers'⟩ :=
      cachedLiteral_spec h (hoperands b (List.mem_cons_of_mem _ (List.mem_singleton_self b)))
    refine .inl ⟨_, ?_, .of_yields (orLit_yields h.gates hdenotes hdenotes') (fun _ => rfl)
      (covers_binary rfl hcovers hcovers')⟩
    rw [readyLiteral, hl, ok_bind, hr, ok_bind]
  | xor a b =>
    obtain ⟨l, hl, hdenotes, hcovers⟩ := cachedLiteral_spec h (hoperands a List.mem_cons_self)
    obtain ⟨r, hr, hdenotes', hcovers'⟩ :=
      cachedLiteral_spec h (hoperands b (List.mem_cons_of_mem _ (List.mem_singleton_self b)))
    refine .inl ⟨_, ?_, .of_yields (xorLit_yields h.gates hdenotes hdenotes') (fun _ => rfl)
      (covers_binary rfl hcovers hcovers')⟩
    rw [readyLiteral, hl, ok_bind, hr, ok_bind]

/-- A literal that is cached, and the clauses that came with it. -/
theorem Ready.grown (h : Inv hash v c e) {node : BoolExpr}
    (hnew : e.findCached hash node = none) {r : Lit Nat × GateEncoder}
    (hready : Ready v c e node r) :
    Grown hash v c e
        { e with gates := r.2, cache := e.cache.cacheEncodedLiteral hash node r.1 } ∧
      (e.cache.cacheEncodedLiteral hash node r.1).findCachedLiteral hash node = some r.1 := by
  obtain ⟨hcache, hfind⟩ := find_cacheEncodedLiteral h.cache hnew r.1
  refine ⟨⟨⟨hready.inv, hcache, fun other l hl => ?_, fun other l hl => ?_⟩, hready.extends_,
    fun other l hl => ?_, rfl, rfl, hready.leaves⟩, ?_⟩
  · have hl' := (hfind other).symm.trans hl
    split at hl'
    · next hsame =>
      obtain rfl := Option.some.inj hl'
      exact hsame ▸ hready.denotes
    · exact (h.nodes other l hl').mono hready.extends_
  · have hl' := (hfind other).symm.trans hl
    split at hl'
    · next hsame => exact hsame ▸ hready.covers
    · exact Covers.mono (h.covers other l hl') hready.extends_
  · refine (hfind other).trans ?_
    rw [if_neg]
    · exact hl
    · rintro rfl
      rw [hnew] at hl
      cases hl
  · rw [hfind, if_pos rfl]

theorem encodeReadyNode_spec (h : Inv hash v c e) {node : BoolExpr}
    (hnew : e.findCached hash node = none)
    (hoperands : ∀ operand ∈ node.operands, (e.findCached hash operand).isSome) :
    (∃ e', e.encodeReadyNode hash node = .ok e' ∧ Grown hash v c e e' ∧
      (e'.findCached hash node).isSome) ∨
      ∃ message, e.encodeReadyNode hash node = .error (message, e) ∧
        ∃ id, node = .var id ∧ 2 ≤ id ∧ e.Missing id := by
  unfold encodeReadyNode
  rcases readyLiteral_spec h hoperands with ⟨r, hr, hready⟩ | ⟨message, herror, hmissing⟩
  · obtain ⟨hgrown, hfind⟩ := hready.grown h hnew
    rw [hr]
    exact .inl ⟨_, rfl, hgrown, Option.isSome_iff_exists.mpr ⟨r.1, hfind⟩⟩
  · rw [herror]
    exact .inr ⟨message, rfl, hmissing⟩

/-! ### The two traversals -/

theorem Grown.isSome (h : Grown hash v c e e') {node : BoolExpr}
    (hcached : (e.findCached hash node).isSome) : (e'.findCached hash node).isSome := by
  obtain ⟨l, hl⟩ := Option.isSome_iff_exists.mp hcached
  exact Option.isSome_iff_exists.mpr ⟨l, h.kept node l hl⟩

/-- The variables of a node that got a literal have leaves. -/
theorem Grown.not_missing (h : Grown hash v c e e') {node : BoolExpr} {l : Lit Nat}
    (hl : e'.findCached hash node = some l) : ∀ id ∈ node.getSupportVars, 2 ≤ id → ¬ e.Missing id := by
  intro id hid h2 hmissing
  obtain ⟨symbol, hsymbol, hpresent⟩ := h.inv.covers node l hl id hid h2
  rcases (h.missing id).mpr hmissing with ⟨message, herror⟩ | ⟨symbol', hsymbol', -, habsent⟩
  · rw [hsymbol] at herror
    cases herror
  · rw [hsymbol] at hsymbol'
    exact habsent (Except.ok.inj hsymbol' ▸ hpresent)

/-- A call gives a literal that is cached for its formula, or fails; the encoder stays usable
either way. -/
structure CallOutcome (hash : BoolExpr → Nat) (v : CraigVariablePartition)
    (c : CraigClausePartition) (e : FrameEncoder) (expr : BoolExpr)
    (result : Except String (Lit Nat) × FrameEncoder) : Prop where
  grown : Grown hash v c e result.2
  cached : ∀ l, result.1 = .ok l → result.2.findCached hash expr = some l

theorem cachedLiteral_eq {node : BoolExpr} {l : Lit Nat} (h : e.cachedLiteral hash node = .ok l) :
    e.findCached hash node = some l := by
  unfold cachedLiteral at h
  split at h
  · next l' hl => rw [hl, Except.ok.inj h]
  · cases h

/-- The encoder fails exactly where a variable has no leaf. -/
theorem encode_spec (h : Inv hash v c e) (expr : BoolExpr) :
    CallOutcome hash v c e expr (e.encode hash expr) ∧
      ((∃ message, (e.encode hash expr).1 = .error message) ↔
        ∃ id ∈ expr.getSupportVars, 2 ≤ id ∧ e.Missing id) := by
  have hvisit := @Traversal.visit_spec _ _ _ (encodeTraversal hash) (Grown hash v c e)
    (fun node _ => ∃ id, node = .var id ∧ 2 ≤ id ∧ e.Missing id) expr
    (fun node e' _ hgrown hdone hchildren => by
      have hnew : e'.findCached hash node = none := Option.not_isSome_iff_eq_none.mp
        (Bool.eq_false_iff.mp hdone)
      rcases encodeReadyNode_spec hgrown.inv hnew hchildren with
        ⟨e'', hok, hgrown', hcached⟩ | ⟨message, herror, id, hid, h2, hmissing⟩
      · exact .inl ⟨e'', hok, hgrown.trans hgrown', hcached, fun _ hx => hgrown'.isSome hx⟩
      · exact .inr ⟨message, e', herror, hgrown, id, hid, h2, (hgrown.missing id).mp hmissing⟩)
    e (Grown.refl h)
  unfold FrameEncoder.encode
  rcases hvisit with ⟨e', hok, hgrown, hroot, -⟩ | ⟨message, e', node, herror, hgrown, hbad, hreach⟩
  · rw [hok]
    obtain ⟨l, hl, -, -⟩ := cachedLiteral_spec hgrown.inv hroot
    refine ⟨⟨hgrown, fun l' hl' => cachedLiteral_eq hl'⟩, ⟨fun ⟨message, herror⟩ => ?_, ?_⟩⟩
    · simp only [hl] at herror
      cases herror
    · rintro ⟨id, hid, h2, hmissing⟩
      exact absurd hmissing (hgrown.not_missing (cachedLiteral_eq hl) id hid h2)
  · rw [herror]
    obtain ⟨id, rfl, h2, hmissing⟩ := hbad
    exact ⟨⟨hgrown, fun l hl => nomatch hl⟩, fun _ => ⟨id,
      BoolExpr.mem_support_iff_hasNode.mpr hreach, h2, hmissing⟩, fun _ => ⟨message, rfl⟩⟩

/-- Every node comes after its operands. -/
def ChildrenFirst : List BoolExpr → List BoolExpr → Prop
  | _, [] => True
  | done, node :: rest =>
    (∀ operand ∈ node.operands, operand ∈ done) ∧ ChildrenFirst (node :: done) rest

theorem encodeNodes_grown (nodes : List BoolExpr) {e : FrameEncoder} (h : Inv hash v c e) :
    (∃ e', e.encodeNodes hash nodes = .ok e' ∧ Grown hash v c e e' ∧
      ∀ node ∈ nodes, (e'.findCached hash node).isSome) ∨
    ∃ message e', e.encodeNodes hash nodes = .error (message, e') ∧ Grown hash v c e e' ∧
      ∀ done, (∀ node ∈ done, (e.findCached hash node).isSome) → ChildrenFirst done nodes →
        ∃ id, .var id ∈ nodes ∧ 2 ≤ id ∧ e.Missing id := by
  induction nodes generalizing e with
  | nil => exact .inl ⟨e, rfl, Grown.refl h, fun _ hmem => absurd hmem List.not_mem_nil⟩
  | cons node rest ih =>
    unfold encodeNodes
    by_cases hcached : (e.findCached hash node).isSome
    · rw [if_pos hcached]
      rcases ih h with ⟨e', hok, hgrown, hall⟩ | ⟨message, e', herror, hgrown, hfirst⟩
      · exact .inl ⟨e', hok, hgrown, List.forall_mem_cons.mpr ⟨hgrown.isSome hcached, hall⟩⟩
      · refine .inr ⟨message, e', herror, hgrown, fun done hdone hchildren => ?_⟩
        obtain ⟨id, hid, h2, hmissing⟩ := hfirst (node :: done)
          (List.forall_mem_cons.mpr ⟨hcached, hdone⟩) hchildren.2
        exact ⟨id, List.mem_cons_of_mem _ hid, h2, hmissing⟩
    · rw [if_neg hcached]
      have hnew : e.findCached hash node = none := Option.not_isSome_iff_eq_none.mp hcached
      by_cases hready : ∀ operand ∈ node.operands, (e.findCached hash operand).isSome
      · rw [if_neg (by simpa [List.any_eq_true, ← Option.isSome_iff_ne_none] using hready)]
        rcases encodeReadyNode_spec h hnew hready with
          ⟨e₁, hok, hgrown₁, hnode⟩ | ⟨message, herror, id, hid, h2, hmissing⟩
        · simp only [hok]
          rcases ih hgrown₁.inv with
            ⟨e', hok', hgrown, hall⟩ | ⟨message, e', herror, hgrown, hfirst⟩
          · exact .inl ⟨e', hok', hgrown₁.trans hgrown,
              List.forall_mem_cons.mpr ⟨hgrown.isSome hnode, hall⟩⟩
          · refine .inr ⟨message, e', herror, hgrown₁.trans hgrown, fun done hdone hchildren => ?_⟩
            obtain ⟨id, hid, h2, hmissing⟩ := hfirst (node :: done)
              (List.forall_mem_cons.mpr ⟨hnode, fun n hn => hgrown₁.isSome (hdone n hn)⟩)
              hchildren.2
            exact ⟨id, List.mem_cons_of_mem _ hid, h2, (hgrown₁.missing id).mp hmissing⟩
        · simp only [herror]
          exact .inr ⟨message, e, rfl, Grown.refl h,
            fun _ _ _ => ⟨id, hid ▸ List.mem_cons_self, h2, hmissing⟩⟩
      · rw [if_pos (by simpa [List.any_eq_true, ← Option.isSome_iff_ne_none] using hready)]
        refine .inr ⟨_, e, rfl, Grown.refl h, fun done hdone hchildren => ?_⟩
        exact absurd (fun operand hoperand => hdone operand (hchildren.1 operand hoperand)) hready

/-- A supplied order that has every node of the formula after its operands. -/
structure IsOrder (expr : BoolExpr) (postorder : List BoolExpr) : Prop where
  childrenFirst : ChildrenFirst [] postorder
  root : expr ∈ postorder
  below : ∀ node ∈ postorder, expr.HasNode node

/-- A supplied order gives what the stack gives; a malformed one is rejected. -/
theorem encodeInOrder_spec (h : Inv hash v c e) (expr : BoolExpr) (postorder : List BoolExpr) :
    CallOutcome hash v c e expr (e.encodeInOrder hash expr postorder) ∧
      (IsOrder expr postorder → ((∃ message, (e.encodeInOrder hash expr postorder).1 =
        .error message) ↔ ∃ id ∈ expr.getSupportVars, 2 ≤ id ∧ e.Missing id)) := by
  unfold FrameEncoder.encodeInOrder
  rcases encodeNodes_grown postorder h with
    ⟨e', hok, hgrown, hall⟩ | ⟨message, e', herror, hgrown, hfirst⟩
  · rw [hok]
    refine ⟨⟨hgrown, fun l hl => cachedLiteral_eq hl⟩, fun horder => ⟨fun ⟨message, herror⟩ => ?_, ?_⟩⟩
    · obtain ⟨l, hl, -, -⟩ := cachedLiteral_spec hgrown.inv (hall expr horder.root)
      simp only [hl] at herror
      cases herror
    · rintro ⟨id, hid, h2, hmissing⟩
      obtain ⟨l, hl, -, -⟩ := cachedLiteral_spec hgrown.inv (hall expr horder.root)
      exact absurd hmissing (hgrown.not_missing (cachedLiteral_eq hl) id hid h2)
  · rw [herror]
    refine ⟨⟨hgrown, fun l hl => nomatch hl⟩, fun horder => ⟨fun _ => ?_, fun _ => ⟨message, rfl⟩⟩⟩
    obtain ⟨id, hid, h2, hmissing⟩ :=
      hfirst [] (fun _ hmem => absurd hmem List.not_mem_nil) horder.childrenFirst
    exact ⟨id, BoolExpr.mem_support_iff_hasNode.mpr (horder.below _ hid), h2, hmissing⟩

/-! ## Between the calls -/

/-- More leaves, variables and clauses, which may also restrict the old ones. -/
structure Widens (v : CraigVariablePartition) (c : CraigClausePartition) (a b : CraigCnf) :
    Prop where
  wf : CnfState.Wf v c b
  vars : a.vars ≤ b.vars
  models : ∀ σ ν, b.Models σ ν → a.Models σ ν
  leaves : ∀ s l, a.leafLits.lookup s = some l → b.leafLits.lookup s = some l

theorem Widens.denotes {a b : CraigCnf} (h : Widens v c a b) {l : Lit Nat} {f : Valuation → Bool}
    (hl : a.Denotes l f) : b.Denotes l f :=
  ⟨Nat.lt_of_lt_of_le hl.lt h.vars, fun σ ν hb => hl.value σ ν (h.models σ ν hb)⟩

theorem Widens.present {a b : CraigCnf} (h : Widens v c a b) {s : Nat} (hs : Present a s) :
    Present b s := by
  obtain ⟨l, hl⟩ := Option.isSome_iff_exists.mp hs
  exact Option.isSome_iff_exists.mpr ⟨l, h.leaves s l hl⟩

theorem Inv.widen (h : Inv hash v c e) {cnf : CraigCnf} (hcnf : Widens v c e.cnf cnf) :
    Inv hash v c { e with gates := { e.gates with cnf := cnf } } where
  gates := ⟨hcnf.wf, fun t ht => hcnf.denotes (h.gates.trueLit t ht)⟩
  cache := h.cache
  nodes node l hl := hcnf.denotes (h.nodes node l hl)
  covers node l hl id hid h2 := by
    obtain ⟨symbol, hsymbol, hpresent⟩ := h.covers node l hl id hid h2
    exact ⟨symbol, hsymbol, hcnf.present hpresent⟩

theorem addLeafLiteral_widens {a : CraigCnf} (hwf : CnfState.Wf v c a) {symbol : Nat}
    {literal : Lit Nat} (hnew : a.leafLits.lookup symbol = none) (hlt : literal.atom < a.vars) :
    Widens v c a { a with leafLits := (symbol, literal) :: a.leafLits } := by
  have hlookup : ∀ s l, a.leafLits.lookup s = some l →
      ((symbol, literal) :: a.leafLits).lookup s = some l := by
    intro s l hl
    rw [List.lookup_cons]
    split
    · next hsame =>
      rw [eq_of_beq hsame, hnew] at hl
      cases hl
    · exact hl
  refine ⟨⟨hwf.variablePartition, hwf.clausePartition, hwf.clauses, fun s l hl => ?_⟩, Nat.le_refl _,
    fun σ ν hb => ⟨hb.clauses, fun s l hl => hb.leaves s l (hlookup s l hl)⟩, hlookup⟩
  rw [List.lookup_cons] at hl
  split at hl
  · exact Option.some.inj hl ▸ hlt
  · exact hwf.leaves s l hl

theorem solver_widens {a : CraigCnf} (hwf : CnfState.Wf v c a) {newVars : Nat}
    {clauses : Query Nat} (hbound : CnfState.Bounded (a.vars + newVars) clauses) :
    Widens v c a (CraigCnfGrown newVars clauses a) := by
  have hvars : (CraigCnfGrown newVars clauses a).vars = a.vars + newVars := by
    simp [CraigCnfGrown, CnfState.vars, CnfState.addClauses]
  have hquery : (CraigCnfGrown newVars clauses a).query = a.query ++ clauses := by
    rw [CraigCnfGrown, CnfState.query_addClauses]
    rfl
  refine ⟨⟨hwf.variablePartition, hwf.clausePartition, ?_, fun s l hl => ?_⟩, ?_,
    fun σ ν hb => ⟨?_, hb.leaves⟩, fun _ _ hl => hl⟩
  · rw [hquery, hvars]
    exact (hwf.clauses.mono (Nat.le_add_right _ _)).append hbound
  · rw [hvars]
    exact Nat.lt_of_lt_of_le (hwf.leaves s l hl) (Nat.le_add_right _ _)
  · rw [hvars]
    exact Nat.le_add_right _ _
  · have hclauses := hb.clauses
    rw [hquery, evalQuery_append, Bool.and_eq_true] at hclauses
    exact hclauses.1

/-- What every call keeps. -/
structure Keeps (hash : BoolExpr → Nat) (e e' : FrameEncoder) : Prop where
  nodes : ∀ node l, e.findCached hash node = some l → e'.findCached hash node = some l
  symbolMap : e'.symbolMap = e.symbolMap

theorem step_inv (h : Inv hash v c e) {call : EncoderCall} (hvalid : call.Valid e) :
    Inv hash v c (e.step hash call) ∧ Keeps hash e (e.step hash call) := by
  cases call with
  | addLeafLiteral symbol literal =>
    simp only [step, addLeafLiteral]
    cases hleaf : e.cnf.leafLits.lookup symbol with
    | some existing =>
      simp only
      split <;> exact ⟨h, fun _ _ hl => hl, rfl⟩
    | none =>
      exact ⟨h.widen (addLeafLiteral_widens h.gates.wf hleaf hvalid), fun _ _ hl => hl, rfl⟩
  | encode expr =>
    have hgrown := (encode_spec h expr).1.grown
    exact ⟨hgrown.inv, hgrown.kept, hgrown.symbolMap⟩
  | encodeInOrder expr postorder =>
    have hgrown := (encodeInOrder_spec h expr postorder).1.grown
    exact ⟨hgrown.inv, hgrown.kept, hgrown.symbolMap⟩
  | solver newVars clauses =>
    exact ⟨h.widen (solver_widens h.gates.wf hvalid), fun _ _ hl => hl, rfl⟩

theorem run_inv (h : Inv hash v c e) {calls : List EncoderCall}
    (hcalls : ValidCalls hash e calls) :
    Inv hash v c (e.run hash calls) ∧ Keeps hash e (e.run hash calls) := by
  induction calls generalizing e with
  | nil => exact ⟨h, fun _ _ hl => hl, rfl⟩
  | cons call calls ih =>
    obtain ⟨hstep, hkeeps⟩ := step_inv h hcalls.1
    obtain ⟨hrun, hkeeps'⟩ := ih hstep hcalls.2
    exact ⟨hrun, fun node l hl => hkeeps'.nodes node l (hkeeps.nodes node l hl),
      hkeeps'.symbolMap.trans hkeeps.symbolMap⟩

theorem new_inv {solver : CraigCnf}
    (hsolver : CnfState.Wf solver.variablePartition solver.clausePartition solver)
    (symbolMap : Option (List (Nat × Nat))) (createMissingLeaves : Bool) (hint : Nat) :
    Inv hash solver.variablePartition solver.clausePartition
      (FrameEncoder.new hash solver symbolMap createMissingLeaves hint) := by
  obtain ⟨hcache, hfind⟩ :=
    @reserveNodeCache_inv hash solver.leafLits.length hint
  have hnone : ∀ node, (FrameEncoder.new hash solver symbolMap createMissingLeaves hint).findCached
      hash node = none := hfind
  refine
    { gates := ⟨hsolver, fun _ ht => nomatch ht⟩
      cache := hcache
      nodes := fun node l hl => ?_
      covers := fun node l hl => ?_ }
  · rw [hnone] at hl
    cases hl
  · rw [hnone] at hl
    cases hl

/-! ## What the calls are worth -/

/-- The values of the leaf literals. -/
def leafValues (a : CraigCnf) (ν : Nat → Bool) : Valuation := fun symbol =>
  match a.leafLits.lookup symbol with
  | some literal => evalLit ν literal
  | none => false

/-- All variables of the formula have leaf literals, and in every model of the clauses the literal
has the value that the formula has under them. -/
structure LiteralOf (e : FrameEncoder) (expr : BoolExpr) (l : Lit Nat) : Prop where
  covers : e.Covers e.cnf expr
  value : ∀ ν, evalQuery ν e.cnf.query = true →
    evalLit ν l = expr.eval (e.through (leafValues e.cnf ν))

theorem models_leafValues {a : CraigCnf} {ν : Nat → Bool} (h : evalQuery ν a.query = true) :
    a.Models (leafValues a ν) ν := by
  refine ⟨h, fun s l hl => ?_⟩
  rw [leafValues, hl]

theorem Inv.literalOf (h : Inv hash v c e) {expr : BoolExpr} {l : Lit Nat}
    (hl : e.findCached hash expr = some l) : LiteralOf e expr l :=
  ⟨h.covers expr l hl, fun ν hν => (h.nodes expr l hl).value _ ν (models_leafValues hν)⟩

theorem CallOutcome.literalOf {expr : BoolExpr}
    {result : Except String (Lit Nat) × FrameEncoder} (h : CallOutcome hash v c e expr result)
    {l : Lit Nat} (hl : result.1 = .ok l) {later : List EncoderCall}
    (hlater : ValidCalls hash result.2 later) : LiteralOf (result.2.run hash later) expr l := by
  obtain ⟨hinv, hkeeps⟩ := run_inv h.grown.inv hlater
  exact hinv.literalOf (hkeeps.nodes expr l (h.cached l hl))

/-- The encoder is in order: what its calls do to the clauses, when they fail, what their literals
are worth from then on, and what its cache does. -/
structure Exact (hash : BoolExpr → Nat) (v : CraigVariablePartition) (c : CraigClausePartition)
    (e : FrameEncoder) : Prop where
  /-- the new clauses restrict no value of the old variables and of any leaf -/
  encode_extends : ∀ expr, CnfState.Extends v c e.cnf (e.encode hash expr).2.cnf fun _ _ => True
  encodeInOrder_extends : ∀ expr postorder,
    CnfState.Extends v c e.cnf (e.encodeInOrder hash expr postorder).2.cnf fun _ _ => True
  addLeafLiteral_clauses : ∀ symbol literal,
    (e.addLeafLiteral symbol literal).2.cnf.clauses = e.cnf.clauses
  encode_fails : ∀ expr, (∃ message, (e.encode hash expr).1 = .error message) ↔
    ∃ id ∈ expr.getSupportVars, 2 ≤ id ∧ e.Missing id
  encodeInOrder_fails : ∀ expr postorder, IsOrder expr postorder →
    ((∃ message, (e.encodeInOrder hash expr postorder).1 = .error message) ↔
      ∃ id ∈ expr.getSupportVars, 2 ≤ id ∧ e.Missing id)
  encode_literal : ∀ expr l, (e.encode hash expr).1 = .ok l →
    ∀ later, ValidCalls hash (e.encode hash expr).2 later →
      LiteralOf ((e.encode hash expr).2.run hash later) expr l
  encodeInOrder_literal : ∀ expr postorder l, (e.encodeInOrder hash expr postorder).1 = .ok l →
    ∀ later, ValidCalls hash (e.encodeInOrder hash expr postorder).2 later →
      LiteralOf ((e.encodeInOrder hash expr postorder).2.run hash later) expr l
  kept : ∀ later, ValidCalls hash e later → ∀ node l, e.findCached hash node = some l →
    (e.run hash later).findCached hash node = some l
  probe_ends : ∀ node, ∃ slot < e.cache.nodeToLit.length, ∀ fuel, e.cache.nodeToLit.length ≤ fuel →
    e.cache.nodeToLit.probe e.cache.wrap node fuel (e.cache.wrap (hash node)) = some slot
  cache_set : ∀ node l, e.findCached hash node = none → ∀ other,
    (e.cache.cacheEncodedLiteral hash node l).findCachedLiteral hash other =
      if other = node then some l else e.findCached hash other
  cache_grows : ∀ desiredEntries node,
    (e.cache.reserveNodeCacheSlots hash desiredEntries).findCachedLiteral hash node =
      e.findCached hash node

theorem addLeafLiteral_clauses (symbol : Nat) (literal : Lit Nat) :
    (e.addLeafLiteral symbol literal).2.cnf.clauses = e.cnf.clauses := by
  unfold addLeafLiteral
  split
  · split <;> rfl
  · rfl

theorem Inv.exact (h : Inv hash v c e) : Exact hash v c e where
  encode_extends expr := (encode_spec h expr).1.grown.extends_
  encodeInOrder_extends expr postorder := (encodeInOrder_spec h expr postorder).1.grown.extends_
  addLeafLiteral_clauses := addLeafLiteral_clauses
  encode_fails expr := (encode_spec h expr).2
  encodeInOrder_fails expr postorder := (encodeInOrder_spec h expr postorder).2
  encode_literal expr _ hl _ hlater := (encode_spec h expr).1.literalOf hl hlater
  encodeInOrder_literal expr postorder _ hl _ hlater :=
    (encodeInOrder_spec h expr postorder).1.literalOf hl hlater
  kept _ hlater := (run_inv h hlater).2.nodes
  probe_ends := h.cache.probe_ends
  cache_set node l hnew := (find_cacheEncodedLiteral h.cache hnew l).2
  cache_grows desiredEntries := (reserveNodeCacheSlots_spec h.cache desiredEntries).2.2.2

end Spec

/-- After any calls, with any hash function. -/
theorem frameFormulaEncoder_exact (hash : BoolExpr → Nat) (solver : CraigCnf)
    (hsolver : CnfState.Wf solver.variablePartition solver.clausePartition solver)
    (symbolMap : Option (List (Nat × Nat))) (createMissingLeaves : Bool) (hint : Nat)
    (calls : List EncoderCall)
    (hcalls : ValidCalls hash
      (FrameEncoder.new hash solver symbolMap createMissingLeaves hint) calls) :
    Exact hash solver.variablePartition solver.clausePartition
      ((FrameEncoder.new hash solver symbolMap createMissingLeaves hint).run hash calls) :=
  (run_inv (new_inv hsolver symbolMap createMissingLeaves hint) hcalls).1.exact

/-- A solver with two variables. -/
def twoVariables : CraigCnf :=
  { labels := [.Global, .Global], variablePartition := .Global, clausePartition := .A }

theorem twoVariables_wf : CnfState.Wf twoVariables.variablePartition twoVariables.clausePartition
    twoVariables :=
  ⟨rfl, rfl, fun _ hc => absurd hc List.not_mem_nil, fun _ _ hl => nomatch hl⟩

/-- All nodes in one bucket: two leaves are added, and a conjunction is encoded. -/
theorem frameFormulaEncoder_exact_and :
    let e := (FrameEncoder.new (fun _ => 0) twoVariables none false 0).run (fun _ => 0)
      [.addLeafLiteral 2 ⟨0, true⟩, .addLeafLiteral 3 ⟨1, true⟩]
    ∃ l, (e.encode (fun _ => 0) (.and (.var 2) (.var 3))).1 = .ok l ∧
      LiteralOf (e.encode (fun _ => 0) (.and (.var 2) (.var 3))).2 (.and (.var 2) (.var 3)) l := by
  have hexact := frameFormulaEncoder_exact (fun _ => 0) twoVariables twoVariables_wf none false 0
    [.addLeafLiteral 2 ⟨0, true⟩, .addLeafLiteral 3 ⟨1, true⟩]
    ⟨Nat.zero_lt_two, Nat.one_lt_two, trivial⟩
  intro e
  cases hresult : (e.encode (fun _ => 0) (.and (.var 2) (.var 3))).1 with
  | ok l => exact ⟨l, rfl, hexact.encode_literal _ l hresult [] trivial⟩
  | error message =>
    obtain ⟨id, hid, h2, hmissing⟩ := (hexact.encode_fails _).mp ⟨message, hresult⟩
    have hid' : id = 2 ∨ id = 3 := by simpa [BoolExpr.getSupportVars] using hid
    rcases hmissing with ⟨message, herror⟩ | ⟨symbol, hsymbol, -, habsent⟩
    · cases herror
    · obtain rfl := Except.ok.inj hsymbol
      rcases hid' with rfl | rfl
      · exact absurd rfl habsent
      · exact absurd rfl habsent

end KeplerFormal.SatEncoding
