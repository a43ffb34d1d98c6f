import KeplerFormal.Core.Dimacs
import KeplerFormal.L1Formula.ExprTraversal

/-!
# CNF export (`src/formal/BoolExprCnfWriter.cpp`)

Each node of an expression gets a DIMACS variable, and clauses that define it from the
variables of its operands. The variables of the expression are named; a constant that occurs
gets a variable with a unit clause.

* `CnfBuild.Encodes`: the invariant: every assignment of the names fixes all variables, and
  the node literals have the values of their nodes.
* `finishNode_encodes`: one lemma for all operators, `encodes_define`, carries it.
* `encodeBoolExprToCnf_exact`: the export is a definitional extension, and its text is
  satisfiable exactly when the expression is.
-/
namespace KeplerFormal.CnfWriter

open Core

/-! ## Operand order -/

structure StableKey where
  h0 : UInt64 := 0
  h1 : UInt64 := 0
  size : Nat := 0
  op : Nat := 5
  varID : Nat := 0

/-- mirrors src/formal/BoolExprCnfWriter.cpp:36-41 -/
def mix64 (value : UInt64) : UInt64 :=
  let value : UInt64 := value + (0x9e3779b97f4a7c15 : UInt64)
  let value : UInt64 := (value ^^^ (value >>> 30)) * (0xbf58476d1ce4e5b9 : UInt64)
  let value : UInt64 := (value ^^^ (value >>> 27)) * (0x94d049bb133111eb : UInt64)
  value ^^^ (value >>> 31)

/-- The lexicographic order of the tuples.
mirrors src/formal/BoolExprCnfWriter.cpp:47-50 -/
def stableLess (a b : StableKey) : Bool :=
  ((compare a.h0 b.h0).then <| (compare a.h1 b.h1).then <| (compare a.size b.size).then <|
    (compare a.op b.op).then (compare a.varID b.varID)) = .lt

/-- One operand is mixed into the two hashes.
mirrors src/formal/BoolExprCnfWriter.cpp:59-66 -/
def mixOperand (key operand : StableKey) : StableKey :=
  { key with
    h0 := mix64 (key.h0 ^^^ operand.h0 ^^^ (operand.h1 <<< 1))
    h1 := mix64 (key.h1 ^^^ operand.h1 ^^^ (operand.h0 >>> 1))
    size := key.size + operand.size }

def leafKey (op varID : Nat) : StableKey where
  h0 := mix64 (UInt64.ofNat op ^^^ (mix64 (UInt64.ofNat varID) <<< 1))
  h1 := mix64 ((UInt64.ofNat op <<< 32) ^^^
    mix64 (UInt64.ofNat varID + (0x517cc1b727220a95 : UInt64)))
  size := 1
  op := op
  varID := varID

/-- mirrors src/formal/BoolExprCnfWriter.cpp:52-68 -/
def combineKey (op varID : Nat) (operands : List StableKey) : StableKey :=
  operands.foldl mixOperand (leafKey op varID)

/-- The smaller operand comes first.
mirrors src/formal/BoolExprCnfWriter.cpp:102-105 -/
def orderKeys (left right : StableKey) : List StableKey :=
  if stableLess right left then [right, left] else [left, right]

/-- mirrors src/formal/BoolExprCnfWriter.cpp:70-110 -/
def stableKey : BoolExpr → StableKey
  | .var id => combineKey 0 id []
  | .and a b => combineKey 1 0 (orderKeys (stableKey a) (stableKey b))
  | .or a b => combineKey 2 0 (orderKeys (stableKey a) (stableKey b))
  | .not a => combineKey 3 0 [stableKey a]
  | .xor a b => combineKey 4 0 (orderKeys (stableKey a) (stableKey b))

/-- The operands in the order in which they are visited and used.
mirrors src/formal/BoolExprCnfWriter.cpp:177-182 and :192-197 -/
def orderedPair (left right : BoolExpr) : BoolExpr × BoolExpr :=
  if stableLess (stableKey right) (stableKey left) then (right, left) else (left, right)

def orderedOperands : BoolExpr → List BoolExpr
  | .var _ => []
  | .not a => [a]
  | .and a b | .or a b | .xor a b => [(orderedPair a b).1, (orderedPair a b).2]

/-! ## Encoding -/

/-- mirrors src/formal/BoolExpr.h:54-67 for a variable -/
def getName (id : Nat) : String :=
  if id = 0 then "FALSE" else if id = 1 then "TRUE" else "x" ++ toString id

structure CnfFormula where
  numVars : Nat
  rootLit : Int
  clauses : Dimacs.Clauses
  varNameToDimacs : List (String × Nat)

/-- The locals of `encodeBoolExprToCnf`. -/
structure CnfBuild where
  nextVar : Nat := 0
  clauses : Dimacs.Clauses := []
  varNameToDimacs : List (String × Nat) := []
  forcedConstants : List String := []
  node2lit : List (BoolExpr × Int) := []

namespace CnfBuild

/-- mirrors src/formal/BoolExprCnfWriter.cpp:126-128 -/
def allocVar (s : CnfBuild) : Nat × CnfBuild :=
  (s.nextVar + 1, { s with nextVar := s.nextVar + 1 })

/-- mirrors src/formal/BoolExprCnfWriter.cpp:130-138 -/
def getOrCreateVar (s : CnfBuild) (key : String) : Nat × CnfBuild :=
  match s.varNameToDimacs.lookup key with
  | some v => (v, s)
  | none =>
    let (v, s) := s.allocVar
    (v, { s with varNameToDimacs := (key, v) :: s.varNameToDimacs })

def constName (value : Bool) : String := if value then "$__CONST_TRUE__" else "$__CONST_FALSE__"

/-- mirrors src/formal/BoolExprCnfWriter.cpp:140-147 -/
def constVar (s : CnfBuild) (value : Bool) : Nat × CnfBuild :=
  let key := constName value
  let (v, s) := s.getOrCreateVar key
  if key ∈ s.forcedConstants then (v, s)
  else
    (v,
      { s with
        forcedConstants := key :: s.forcedConstants
        clauses := s.clauses ++ [[if value then (v : Int) else -(v : Int)]] })

/-- `node2lit[node]`, which reads zero where there is no entry. -/
def litOf (s : CnfBuild) (node : BoolExpr) : Int := (s.node2lit.lookup node).getD 0

def setLit (s : CnfBuild) (node : BoolExpr) (lit : Int) : CnfBuild :=
  { s with node2lit := (node, lit) :: s.node2lit }

end CnfBuild

/-- The clauses of a node with variable `lit`.
mirrors src/formal/BoolExprCnfWriter.cpp:209-238 -/
def gateClauses (node : BoolExpr) (lit left right : Int) : Dimacs.Clauses :=
  match node with
  | .not _ => [[-lit, -left], [lit, left]]
  | .and _ _ => [[-lit, left], [-lit, right], [lit, -left, -right]]
  | .or _ _ => [[-left, lit], [-right, lit], [-lit, left, right]]
  | .xor _ _ =>
    [[-lit, -left, -right], [-lit, left, right], [lit, -left, right], [lit, left, -right]]
  | .var _ => []

/-- A new variable for a node, defined by the literals of the operands. -/
def defineGate (node : BoolExpr) (left right : Int) (s : CnfBuild) : CnfBuild :=
  let (v, s) := s.allocVar
  let s := s.setLit node v
  { s with clauses := s.clauses ++ gateClauses node v left right }

/-- A leaf, or a node whose operands have literals.
mirrors src/formal/BoolExprCnfWriter.cpp:161-173 and :190-240 -/
def finishNode (node : BoolExpr) (s : CnfBuild) : CnfBuild :=
  match node with
  | .var 0 => let (lit, s) := s.constVar false; s.setLit node lit
  | .var 1 => let (lit, s) := s.constVar true; s.setLit node lit
  | .var (n + 2) => let (lit, s) := s.getOrCreateVar (getName (n + 2)); s.setLit node lit
  | .not a => defineGate node (s.litOf a) 0 s
  | .and a b | .or a b | .xor a b =>
    defineGate node (s.litOf (orderedPair a b).1) (s.litOf (orderedPair a b).2) s

theorem weight_orderedPair (a b : BoolExpr) :
    (orderedPair a b).1.weight + (orderedPair a b).2.weight = a.weight + b.weight := by
  unfold orderedPair
  split
  · exact Nat.add_comm _ _
  · rfl

def encodeTraversal : Traversal BoolExpr CnfBuild Empty where
  children := orderedOperands
  done s node := (s.node2lit.lookup node).isSome
  finish node s := .ok (finishNode node s)
  skipDone := false
  weight := BoolExpr.weight
  weight_children node := by
    cases node with
    | var id | not a => simp [orderedOperands, BoolExpr.weight]
    | and a b | or a b | xor a b =>
      have h := weight_orderedPair a b
      simp only [orderedOperands, BoolExpr.weight, List.map_cons, List.sum_cons, List.map_nil,
        List.sum_nil]
      omega

/-- mirrors src/formal/BoolExprCnfWriter.cpp:114-246 -/
def encodeBoolExprToCnf (root : BoolExpr) : CnfFormula :=
  match encodeTraversal.visit root {} with
  | .ok s => ⟨s.nextVar, s.litOf root, s.clauses, s.varNameToDimacs⟩
  | .error (e, _) => e.elim

/-- mirrors src/formal/BoolExprCnfWriter.cpp:248-264 -/
def writeDimacsCnf (cnf : CnfFormula) (assertRoot : Bool) : List Char :=
  let extraClauses := if assertRoot then 1 else 0
  ['p', ' ', 'c', 'n', 'f', ' '] ++ Nat.toDigits 10 cnf.numVars ++ [' '] ++
    Nat.toDigits 10 (cnf.clauses.length + extraClauses) ++ ['\n'] ++
    cnf.clauses.flatMap (fun clause =>
      clause.flatMap (fun lit => Dimacs.printInt lit ++ [' ']) ++ ['0', '\n']) ++
    (if assertRoot then Dimacs.printInt cnf.rootLit ++ [' ', '0', '\n'] else [])

/-! ## The invariant -/

theorem getName_ge {id : Nat} (h : 2 ≤ id) : getName id = "x" ++ toString id := by
  rw [getName, if_neg (by omega), if_neg (by omega)]

theorem getName_inj {i j : Nat} (hi : 2 ≤ i) (hj : 2 ≤ j) (h : getName i = getName j) : i = j := by
  rw [getName_ge hi, getName_ge hj] at h
  have hlist := congrArg String.toList h
  simp only [String.toList_append, List.append_cancel_left_eq, Nat.toString_eq_repr,
    Nat.toList_repr] at hlist
  rw [← Nat.ofDigitChars_ten_toDigits (n := i), hlist, Nat.ofDigitChars_ten_toDigits]

theorem getName_ne_constName {id : Nat} (h : 2 ≤ id) (value : Bool) :
    getName id ≠ CnfBuild.constName value := by
  rw [getName_ge h]
  intro heq
  have hfirst := congrArg (fun s => s.toList.head?) heq
  cases value <;> simp [CnfBuild.constName] at hfirst

namespace CnfBuild

/-- The clauses hold, and the named variables have the values `σ`. -/
def Models (s : CnfBuild) (σ : Valuation) (ν : Dimacs.Assignment) : Prop :=
  Dimacs.satisfies ν s.clauses = true ∧
    ∀ id, 2 ≤ id → ∀ v, s.varNameToDimacs.lookup (getName id) = some v → ν v = σ id

structure Encodes (s : CnfBuild) : Prop where
  bounded : Dimacs.Bounded s.nextVar s.clauses
  names : ∀ key v, s.varNameToDimacs.lookup key = some v → 1 ≤ v ∧ v ≤ s.nextVar
  forced : ∀ value v, s.varNameToDimacs.lookup (constName value) = some v →
    constName value ∈ s.forcedConstants ∧ ∀ σ ν, s.Models σ ν → ν v = value
  named : ∀ value, constName value ∈ s.forcedConstants →
    s.varNameToDimacs.lookup (constName value) ≠ none
  lits : ∀ node l, s.node2lit.lookup node = some l →
    ∃ v : Nat, l = v ∧ 1 ≤ v ∧ v ≤ s.nextVar ∧ ∀ σ ν, s.Models σ ν → ν v = node.eval σ
  determined : Dimacs.Determined s.nextVar s.Models

theorem encodes_empty : Encodes {} := by
  refine ⟨nofun, nofun, nofun, nofun, nofun, ⟨fun _ _ _ _ _ => ⟨rfl, nofun⟩,
    fun σ => ⟨fun _ => false, rfl, nofun⟩, fun _ _ _ _ _ i h1 h0 => ?_⟩⟩
  exact absurd (Nat.le_trans h1 h0) (by decide)

/-- A literal for a node that has the node's value. -/
theorem Encodes.setLit {s : CnfBuild} (h : s.Encodes) {node : BoolExpr} {v : Nat} (h1 : 1 ≤ v)
    (hle : v ≤ s.nextVar) (hval : ∀ σ ν, s.Models σ ν → ν v = node.eval σ) :
    (s.setLit node v).Encodes := by
  refine ⟨h.bounded, h.names, h.forced, h.named, fun other l hl => ?_, h.determined⟩
  rw [CnfBuild.setLit, List.lookup_cons] at hl
  split at hl
  · rename_i hsame
    obtain rfl : other = node := eq_of_beq hsame
    exact ⟨v, (Option.some.inj hl).symm, h1, hle, hval⟩
  · exact h.lits other l hl

/-- A new variable whose value is fixed by that of the older ones. -/
theorem Encodes.fresh {s s' : CnfBuild} (h : s.Encodes) {f : Valuation → Bool}
    (hnext : s'.nextVar = s.nextVar + 1) (hbounded : Dimacs.Bounded s'.nextVar s'.clauses)
    (hnames : ∀ key v, s'.varNameToDimacs.lookup key = some v →
      s.varNameToDimacs.lookup key = some v ∨ v = s.nextVar + 1)
    (hforced : ∀ value v, s'.varNameToDimacs.lookup (constName value) = some v →
      constName value ∈ s'.forcedConstants ∧
        (s.varNameToDimacs.lookup (constName value) = some v ∨
          v = s.nextVar + 1 ∧ ∀ σ, f σ = value))
    (hnamed : ∀ value, constName value ∈ s'.forcedConstants →
      s'.varNameToDimacs.lookup (constName value) ≠ none)
    (hlits : s'.node2lit = s.node2lit)
    (hmodels : ∀ σ ν, s'.Models σ ν ↔ s.Models σ ν ∧ ν (s.nextVar + 1) = f σ) : s'.Encodes := by
  refine ⟨hbounded, fun key v hv => ?_, fun value v hv => ?_, hnamed, fun node l hl => ?_, ?_⟩
  · rw [hnext]
    rcases hnames key v hv with hold | rfl
    · have := h.names key v hold
      omega
    · omega
  · obtain ⟨hmem, hold | ⟨rfl, hf⟩⟩ := hforced value v hv
    · exact ⟨hmem, fun σ ν hm => (h.forced value v hold).2 σ ν ((hmodels σ ν).mp hm).1⟩
    · exact ⟨hmem, fun σ ν hm => ((hmodels σ ν).mp hm).2.trans (hf σ)⟩
  · rw [hlits] at hl
    obtain ⟨v, hv, h1, hle, hval⟩ := h.lits node l hl
    exact ⟨v, hv, h1, by omega, fun σ ν hm => hval σ ν ((hmodels σ ν).mp hm).1⟩
  · rw [hnext]
    exact h.determined.fresh hmodels

/-! ### Leaves -/

theorem lookup_cons_some {α β : Type} [BEq α] [LawfulBEq α] {key other : α} {v w : β}
    {entries : List (α × β)} (h : ((key, v) :: entries).lookup other = some w) :
    (other = key ∧ w = v) ∨ entries.lookup other = some w := by
  rw [List.lookup_cons] at h
  split at h
  · rename_i hsame
    exact .inl ⟨eq_of_beq hsame, (Option.some.inj h).symm⟩
  · exact .inr h

/-- A variable of the expression, new or known. -/
theorem Encodes.variable {s : CnfBuild} (h : s.Encodes) {id : Nat} (h2 : 2 ≤ id) :
    let run := s.getOrCreateVar (getName id)
    run.2.Encodes ∧ 1 ≤ run.1 ∧ run.1 ≤ run.2.nextVar ∧
      (∀ σ ν, run.2.Models σ ν → ν run.1 = σ id) ∧ run.2.node2lit = s.node2lit := by
  unfold getOrCreateVar
  split
  · next v hv =>
    obtain ⟨h1, hle⟩ := h.names _ v hv
    exact ⟨h, h1, hle, fun σ ν hm => hm.2 id h2 v hv, rfl⟩
  · next hnone =>
    have hmodels : ∀ σ ν,
        ({ s with
          nextVar := s.nextVar + 1
          varNameToDimacs := (getName id, s.nextVar + 1) :: s.varNameToDimacs } : CnfBuild).Models
            σ ν ↔ s.Models σ ν ∧ ν (s.nextVar + 1) = σ id := by
      intro σ ν
      constructor
      · intro hm
        refine ⟨⟨hm.1, fun other hother v hv => hm.2 other hother v ?_⟩, hm.2 id h2 _ ?_⟩
        · have hne : getName other ≠ getName id := fun heq => by
            rw [heq, hnone] at hv
            cases hv
          rw [List.lookup_cons, beq_false_of_ne hne]
          exact hv
        · rw [List.lookup_cons, beq_self_eq_true]
      · intro hm
        refine ⟨hm.1.1, fun other hother v hv => ?_⟩
        rcases lookup_cons_some hv with ⟨hname, rfl⟩ | hold
        · rw [getName_inj hother h2 hname]
          exact hm.2
        · exact hm.1.2 other hother v hold
    refine ⟨h.fresh rfl (h.bounded.mono (Nat.le_succ _)) (fun key v hv => ?_)
      (fun value v hv => ?_) (fun value hv => ?_) rfl hmodels, Nat.le_add_left 1 _, Nat.le_refl _,
      fun σ ν hm => ((hmodels σ ν).mp hm).2, rfl⟩
    · exact (lookup_cons_some hv).elim (fun hnew => .inr hnew.2) .inl
    · rcases lookup_cons_some hv with ⟨hname, -⟩ | hold
      · exact absurd hname.symm (getName_ne_constName h2 value)
      · exact ⟨(h.forced value v hold).1, .inl hold⟩
    · rw [List.lookup_cons, beq_false_of_ne (getName_ne_constName h2 value).symm]
      exact h.named value hv

theorem constName_inj {a b : Bool} (h : constName a = constName b) : a = b := by
  cases a <;> cases b <;> first | rfl | exact absurd h (by decide)

/-- A constant, new or known. -/
theorem Encodes.constant {s : CnfBuild} (h : s.Encodes) (value : Bool) :
    let run := s.constVar value
    run.2.Encodes ∧ 1 ≤ run.1 ∧ run.1 ≤ run.2.nextVar ∧
      (∀ σ ν, run.2.Models σ ν → ν run.1 = value) ∧ run.2.node2lit = s.node2lit := by
  cases hlookup : s.varNameToDimacs.lookup (constName value) with
  | some v =>
    obtain ⟨h1, hle⟩ := h.names _ v hlookup
    obtain ⟨hmem, hval⟩ := h.forced value v hlookup
    have hrun : s.constVar value = (v, s) := by
      simp only [constVar, getOrCreateVar, hlookup, if_pos hmem]
    rw [hrun]
    exact ⟨h, h1, hle, hval, rfl⟩
  | none =>
    have hfresh : constName value ∉ s.forcedConstants := fun hmem => h.named value hmem hlookup
    let unit : Int := if value then ((s.nextVar + 1 : Nat) : Int) else -((s.nextVar + 1 : Nat) : Int)
    let s' : CnfBuild :=
      { s with
        nextVar := s.nextVar + 1
        varNameToDimacs := (constName value, s.nextVar + 1) :: s.varNameToDimacs
        forcedConstants := constName value :: s.forcedConstants
        clauses := s.clauses ++ [[unit]] }
    have hrun : s.constVar value = (s.nextVar + 1, s') := by
      simp only [constVar, getOrCreateVar, hlookup, allocVar, if_neg hfresh]
      rfl
    have hunit : ∀ ν, Dimacs.satisfies ν [[unit]] = true ↔ ν (s.nextVar + 1) = value := by
      intro ν
      have hpos := Dimacs.holds_ofNat ν (Nat.le_add_left 1 s.nextVar)
      have hneg := Dimacs.holds_neg ν (l := ((s.nextVar + 1 : Nat) : Int)) (by omega)
      rw [hpos] at hneg
      have hone : Dimacs.satisfies ν [[unit]] = Dimacs.holds ν unit := by simp [Dimacs.satisfies]
      rw [hone]
      cases value
      · change Dimacs.holds ν (-((s.nextVar + 1 : Nat) : Int)) = true ↔ _
        rw [hneg, Bool.not_eq_true']
      · change Dimacs.holds ν ((s.nextVar + 1 : Nat) : Int) = true ↔ _
        rw [hpos]
    have hmodels : ∀ σ ν, s'.Models σ ν ↔ s.Models σ ν ∧ ν (s.nextVar + 1) = value := by
      intro σ ν
      have hclauses : Dimacs.satisfies ν s'.clauses = true ↔
          Dimacs.satisfies ν s.clauses = true ∧ ν (s.nextVar + 1) = value := by
        rw [← hunit, ← Bool.and_eq_true, ← Dimacs.satisfies_append]
      have hnames : ∀ id, 2 ≤ id → ∀ v, s'.varNameToDimacs.lookup (getName id) = some v ↔
          s.varNameToDimacs.lookup (getName id) = some v := by
        intro id h2 v
        rw [List.lookup_cons, beq_false_of_ne (getName_ne_constName h2 value)]
      constructor
      · intro hm
        obtain ⟨hold, hnew⟩ := hclauses.mp hm.1
        exact ⟨⟨hold, fun id h2 v hv => hm.2 id h2 v ((hnames id h2 v).mpr hv)⟩, hnew⟩
      · intro hm
        exact ⟨hclauses.mpr ⟨hm.1.1, hm.2⟩,
          fun id h2 v hv => hm.1.2 id h2 v ((hnames id h2 v).mp hv)⟩
    rw [hrun]
    refine ⟨@Encodes.fresh _ s' h _ rfl ?_ (fun key v hv => ?_) (fun other v hv => ?_)
      (fun other hmem => ?_) rfl hmodels, Nat.le_add_left 1 _, Nat.le_refl _,
      fun σ ν hm => ((hmodels σ ν).mp hm).2, rfl⟩
    · refine (h.bounded.mono (Nat.le_succ _)).append fun c hc l hl => ?_
      rw [List.mem_singleton.mp hc] at hl
      rw [List.mem_singleton.mp hl]
      cases value <;> simp only [unit, Dimacs.Within] <;> constructor <;> simp <;> omega
    · exact (lookup_cons_some hv).elim (fun hnew => .inr hnew.2) .inl
    · rcases lookup_cons_some hv with ⟨hname, hnew⟩ | hold
      · refine ⟨?_, .inr ⟨hnew, fun _ => (constName_inj hname).symm⟩⟩
        rw [hname]
        exact List.mem_cons_self
      · exact ⟨List.mem_cons_of_mem _ (h.forced other v hold).1, .inl hold⟩
    · rw [List.lookup_cons]
      rcases List.mem_cons.mp hmem with hname | hold
      · rw [hname, beq_self_eq_true]
        exact Option.some_ne_none _
      · split
        · exact Option.some_ne_none _
        · exact h.named other hold

/-! ### Gates -/

/-- The value of a node whose operands have the values `x` and `y`. -/
def gateValue (node : BoolExpr) (x y : Bool) : Bool :=
  match node with
  | .not _ => !x
  | .and _ _ => x && y
  | .or _ _ => x || y
  | .xor _ _ => x ^^ y
  | .var _ => false

/-- The clauses of a gate fix its variable. -/
theorem satisfies_gateClauses {node : BoolExpr} (hgate : ∀ id, node ≠ .var id)
    (ν : Dimacs.Assignment) {lit left right : Int} (hlit : lit ≠ 0) (hleft : left ≠ 0)
    (hright : (∀ a, node ≠ .not a) → right ≠ 0) :
    Dimacs.satisfies ν (gateClauses node lit left right) = true ↔
      Dimacs.holds ν lit = gateValue node (Dimacs.holds ν left) (Dimacs.holds ν right) := by
  have hnlit := Dimacs.holds_neg ν hlit
  have hnleft := Dimacs.holds_neg ν hleft
  cases node with
  | var id => exact absurd rfl (hgate id)
  | not a =>
    simp only [gateClauses, Dimacs.satisfies, gateValue, List.all_cons, List.any_cons,
      List.all_nil, List.any_nil, hnlit, hnleft]
    cases Dimacs.holds ν lit <;> cases Dimacs.holds ν left <;> decide
  | and a b | or a b | xor a b =>
    have hnright := Dimacs.holds_neg ν (hright nofun)
    simp only [gateClauses, Dimacs.satisfies, gateValue, List.all_cons, List.any_cons,
      List.all_nil, List.any_nil, hnlit, hnleft, hnright]
    cases Dimacs.holds ν lit <;> cases Dimacs.holds ν left <;> cases Dimacs.holds ν right <;>
      decide

theorem bounded_gateClauses {node : BoolExpr} {n : Nat} {lit left right : Int}
    (hlit : Dimacs.Within n lit) (hleft : Dimacs.Within n left)
    (hright : (∀ a, node ≠ .not a) → Dimacs.Within n right) :
    Dimacs.Bounded n (gateClauses node lit left right) := by
  have hneg : ∀ {l : Int}, Dimacs.Within n l → Dimacs.Within n (-l) := fun hl =>
    ⟨by have := hl.1; omega, by rw [Int.natAbs_neg]; exact hl.2⟩
  intro c hc l hl
  cases node with
  | var id => exact absurd hc List.not_mem_nil
  | not a =>
    simp only [gateClauses, List.mem_cons, List.not_mem_nil, or_false] at hc
    rcases hc with rfl | rfl <;> simp only [List.mem_cons, List.not_mem_nil, or_false] at hl <;>
      rcases hl with rfl | rfl <;> first | assumption | exact hneg ‹_›
  | and a b | or a b | xor a b =>
    have hright := hright nofun
    simp only [gateClauses, List.mem_cons, List.not_mem_nil, or_false] at hc
    rcases hc with rfl | rfl | rfl | rfl
    all_goals
      simp only [List.mem_cons, List.not_mem_nil, or_false] at hl
      rcases hl with rfl | rfl | rfl
      all_goals first | assumption | exact hneg ‹_›

/-- A gate whose operands have literals with the values `x` and `y` of the assignment. -/
theorem Encodes.gate {s : CnfBuild} (h : s.Encodes) {node : BoolExpr}
    (hgate : ∀ id, node ≠ .var id) {left right : Int} (hleft : Dimacs.Within s.nextVar left)
    (hright : (∀ a, node ≠ .not a) → Dimacs.Within s.nextVar right)
    (hval : ∀ σ ν, s.Models σ ν →
      gateValue node (Dimacs.holds ν left) (Dimacs.holds ν right) = node.eval σ) :
    (defineGate node left right s).Encodes ∧
      ∃ l, (defineGate node left right s).node2lit = (node, l) :: s.node2lit := by
  let s' : CnfBuild :=
    { s with
      nextVar := s.nextVar + 1
      clauses := s.clauses ++ gateClauses node ((s.nextVar + 1 : Nat) : Int) left right }
  have hlit : Dimacs.Within (s.nextVar + 1) ((s.nextVar + 1 : Nat) : Int) :=
    ⟨by omega, by rw [Int.natAbs_natCast]⟩
  have hmodels : ∀ σ ν, s'.Models σ ν ↔ s.Models σ ν ∧ ν (s.nextVar + 1) = node.eval σ := by
    intro σ ν
    have hclauses : Dimacs.satisfies ν s'.clauses = true ↔ Dimacs.satisfies ν s.clauses = true ∧
        ν (s.nextVar + 1) = gateValue node (Dimacs.holds ν left) (Dimacs.holds ν right) := by
      rw [Dimacs.satisfies_append, Bool.and_eq_true,
        satisfies_gateClauses hgate ν hlit.1 hleft.1 fun hn => (hright hn).1,
        Dimacs.holds_ofNat ν (Nat.le_add_left 1 _)]
    constructor
    · intro hm
      obtain ⟨hold, hnew⟩ := hclauses.mp hm.1
      have hs : s.Models σ ν := ⟨hold, hm.2⟩
      exact ⟨hs, hnew.trans (hval σ ν hs)⟩
    · intro hm
      exact ⟨hclauses.mpr ⟨hm.1.1, hm.2.trans (hval σ ν hm.1).symm⟩, hm.1.2⟩
  have hs' : s'.Encodes := by
    refine @Encodes.fresh _ s' h _ rfl ?_ (fun _ _ hv => .inl hv)
      (fun value v hv => ⟨(h.forced value v hv).1, .inl hv⟩) h.named rfl hmodels
    exact (h.bounded.mono (Nat.le_succ _)).append (bounded_gateClauses hlit
      (hleft.mono (Nat.le_succ _)) fun hn => (hright hn).mono (Nat.le_succ _))
  have hset : (s'.setLit node ((s.nextVar + 1 : Nat) : Int)).Encodes :=
    hs'.setLit (Nat.le_add_left 1 _) (Nat.le_refl _) fun σ ν hm => ((hmodels σ ν).mp hm).2
  exact ⟨hset, _, rfl⟩

/-- The literal of a node that is done. -/
theorem Encodes.litOf {s : CnfBuild} (h : s.Encodes) {node : BoolExpr}
    (hdone : (s.node2lit.lookup node).isSome = true) :
    Dimacs.Within s.nextVar (s.litOf node) ∧
      ∀ σ ν, s.Models σ ν → Dimacs.holds ν (s.litOf node) = node.eval σ := by
  obtain ⟨l, hl⟩ := Option.isSome_iff_exists.mp hdone
  obtain ⟨v, rfl, h1, hle, hval⟩ := h.lits node l hl
  rw [CnfBuild.litOf, hl, Option.getD_some]
  refine ⟨⟨by omega, by rwa [Int.natAbs_natCast]⟩, fun σ ν hm => ?_⟩
  rw [Dimacs.holds_ofNat ν h1, hval σ ν hm]

end CnfBuild

open CnfBuild

/-- Finishing a node whose operands are done. -/
theorem finishNode_encodes {node : BoolExpr} {s : CnfBuild} (h : s.Encodes)
    (hoperands : ∀ c ∈ orderedOperands node, (s.node2lit.lookup c).isSome = true) :
    (finishNode node s).Encodes ∧
      ∃ l, (finishNode node s).node2lit = (node, l) :: s.node2lit := by
  have hpair : ∀ a b, orderedPair a b = (a, b) ∨ orderedPair a b = (b, a) := by
    intro a b
    unfold orderedPair
    split
    · exact .inr rfl
    · exact .inl rfl
  cases node with
  | var id =>
    match id with
    | 0 =>
      obtain ⟨hs, h1, hle, hval, hlits⟩ := h.constant false
      exact ⟨hs.setLit h1 hle hval, _, congrArg _ hlits⟩
    | 1 =>
      obtain ⟨hs, h1, hle, hval, hlits⟩ := h.constant true
      exact ⟨hs.setLit h1 hle hval, _, congrArg _ hlits⟩
    | n + 2 =>
      obtain ⟨hs, h1, hle, hval, hlits⟩ := @Encodes.variable _ h (n + 2) (by omega)
      exact ⟨hs.setLit h1 hle hval, _, congrArg _ hlits⟩
  | not a =>
    obtain ⟨hin, hval⟩ := h.litOf (hoperands a (List.mem_singleton_self a))
    refine h.gate (by intro id heq; cases heq) hin (fun hn => absurd rfl (hn a)) fun σ ν hm => ?_
    rw [gateValue, hval σ ν hm, BoolExpr.eval]
  | and a b | or a b | xor a b =>
    obtain ⟨hinLeft, hvalLeft⟩ := h.litOf (hoperands (orderedPair a b).1 List.mem_cons_self)
    obtain ⟨hinRight, hvalRight⟩ := h.litOf (hoperands (orderedPair a b).2
      (List.mem_cons_of_mem _ (List.mem_singleton_self _)))
    refine h.gate (by intro id heq; cases heq) hinLeft (fun _ => hinRight) fun σ ν hm => ?_
    -- the operators are commutative
    rw [gateValue, hvalLeft σ ν hm, hvalRight σ ν hm, BoolExpr.eval]
    rcases hpair a b with heq | heq <;> rw [heq]
    all_goals cases a.eval σ <;> cases b.eval σ <;> rfl

/-- The traversal ends with a literal for the root. -/
theorem visit_encodes (root : BoolExpr) :
    ∃ s, encodeTraversal.visit root {} = .ok s ∧ s.Encodes ∧
      (s.node2lit.lookup root).isSome = true := by
  have hvisit := @Traversal.visit_spec _ _ _ encodeTraversal Encodes (fun _ _ => False) root ?_ {}
      encodes_empty
  · rcases hvisit with ⟨s, hok, hs, hroot, -⟩ | ⟨e, -⟩
    · exact ⟨s, hok, hs, hroot⟩
    · exact e.elim
  · intro node s _ hs _ hoperands
    obtain ⟨hnext, l, hl⟩ := finishNode_encodes hs hoperands
    refine .inl ⟨_, rfl, hnext, ?_, fun x hx => ?_⟩
    · simp only [encodeTraversal, hl, List.lookup_cons, beq_self_eq_true, Option.isSome_some]
    · simp only [encodeTraversal, hl, List.lookup_cons] at hx ⊢
      split
      · rfl
      · exact hx

/-! ## The export -/

/-- The assignment gives the named variables of the formula the values `σ`. -/
def CnfFormula.Names (cnf : CnfFormula) (σ : Valuation) (ν : Dimacs.Assignment) : Prop :=
  ∀ id, 2 ≤ id → ∀ v, cnf.varNameToDimacs.lookup (getName id) = some v → ν v = σ id

theorem writeDimacsCnf_eq (cnf : CnfFormula) (assertRoot : Bool) :
    writeDimacsCnf cnf assertRoot =
      Dimacs.printDimacs cnf.numVars
        (cnf.clauses ++ if assertRoot then [[cnf.rootLit]] else []) := by
  have hclauses : cnf.clauses.flatMap (fun clause =>
      clause.flatMap (fun lit => Dimacs.printInt lit ++ [' ']) ++ ['0', '\n']) =
        cnf.clauses.flatMap Dimacs.printClause := rfl
  cases assertRoot <;>
    simp [writeDimacsCnf, Dimacs.printDimacs, Dimacs.printClause, hclauses]

/-- Every expression: the literals are in range, every assignment of the names has exactly
one extension that satisfies the clauses, and the root literal then has the value of the
expression; with the root asserted, the text is satisfiable when the expression is. -/
theorem encodeBoolExprToCnf_exact (root : BoolExpr) :
    Dimacs.Bounded (encodeBoolExprToCnf root).numVars (encodeBoolExprToCnf root).clauses ∧
    Dimacs.Within (encodeBoolExprToCnf root).numVars (encodeBoolExprToCnf root).rootLit ∧
    (∀ σ, ∃ ν, (encodeBoolExprToCnf root).Names σ ν ∧
      Dimacs.satisfies ν (encodeBoolExprToCnf root).clauses = true ∧
      Dimacs.holds ν (encodeBoolExprToCnf root).rootLit = root.eval σ ∧
      ∀ ν', (encodeBoolExprToCnf root).Names σ ν' →
        Dimacs.satisfies ν' (encodeBoolExprToCnf root).clauses = true →
        Dimacs.SameUpTo (encodeBoolExprToCnf root).numVars ν ν') ∧
    (Dimacs.TextSatisfiable (writeDimacsCnf (encodeBoolExprToCnf root) true) ↔
      ∃ σ, root.eval σ = true) := by
  obtain ⟨s, hs, henc, hroot⟩ := visit_encodes root
  have hcnf : encodeBoolExprToCnf root =
      ⟨s.nextVar, s.litOf root, s.clauses, s.varNameToDimacs⟩ := by
    rw [encodeBoolExprToCnf, hs]
  obtain ⟨hin, hval⟩ := henc.litOf hroot
  rw [hcnf]
  refine ⟨henc.bounded, hin, fun σ => ?_, ?_⟩
  · obtain ⟨ν, hν⟩ := henc.determined.exist σ
    exact ⟨ν, hν.2, hν.1, hval σ ν hν, fun ν' hnames hsat =>
      henc.determined.unique σ ν ν' hν ⟨hsat, hnames⟩⟩
  · have hbounded : Dimacs.Bounded s.nextVar (s.clauses ++ [[s.litOf root]]) :=
      henc.bounded.append fun c hc l hl => by
        rw [List.mem_singleton.mp hc] at hl
        rw [List.mem_singleton.mp hl]
        exact hin
    have hasserted : ∀ ν, Dimacs.satisfies ν (s.clauses ++ [[s.litOf root]]) = true ↔
        Dimacs.satisfies ν s.clauses = true ∧ Dimacs.holds ν (s.litOf root) = true := by
      intro ν
      rw [Dimacs.satisfies_append, Bool.and_eq_true]
      simp [Dimacs.satisfies]
    rw [writeDimacsCnf_eq, Dimacs.TextSatisfiable, if_pos rfl,
      Dimacs.parseDimacs_printDimacs hbounded]
    constructor
    · intro htext
      obtain ⟨n, clauses, hparse, ν, hν⟩ := htext
      obtain ⟨rfl, rfl⟩ := Prod.mk.inj (Option.some.inj hparse)
      obtain ⟨hsat, hlit⟩ := (hasserted ν).mp hν
      -- the names have the values of their variables
      let σ : Valuation := fun id =>
        ((s.varNameToDimacs.lookup (getName id)).map ν).getD false
      have hm : s.Models σ ν := ⟨hsat, fun id _ v hv => by simp [σ, hv]⟩
      exact ⟨σ, (hval σ ν hm).symm.trans hlit⟩
    · intro hsat
      obtain ⟨σ, hσ⟩ := hsat
      obtain ⟨ν, hν⟩ := henc.determined.exist σ
      exact ⟨_, _, rfl, ν, (hasserted ν).mpr ⟨hν.1, (hval σ ν hν).trans hσ⟩⟩

end KeplerFormal.CnfWriter
