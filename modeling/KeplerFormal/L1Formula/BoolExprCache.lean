import KeplerFormal.L1Formula.OperandOrder

/-!
# Hash-consed expressions (`src/formal/BoolExprCache.cpp`)

The factories of `BoolExpr` return pointers into a table of interned nodes. A
pointer is the position of its node in allocation order; the addresses the
allocator gives, which the factories compare (`b < a`), are an arbitrary
relation `below`. The hash stored in a node is an arbitrary function of
operator, id and the hashes of the operands.

* `lessFuel`, `less`: `operator<` on pointers; `less_iff` is the order of the
  expressions pointed at.
* `getExpression`: lookup or allocation.
* `Represents`: a pointer, and the expression it points at.
* `WellFormed`: every node represents an expression, and the table holds
  exactly the nodes, each under its key.
* `Represents.injective`: in a well-formed cache one expression has one pointer.
* `Var_returns`, ..., `Xor_returns`: each factory keeps the cache well formed
  and returns a pointer at the canonical form of the folded operands.
-/
namespace KeplerFormal
namespace BoolExprCache
open BoolExpr (operandCompare sortedBy canon commEq foldAnd foldOr foldXor)

/-- mirrors src/formal/BoolExprCache.h:14 -/
inductive Op where
  | VAR
  | AND
  | OR
  | NOT
  | XOR
  | NONE
  deriving DecidableEq, Repr

def Op.index : Op → Nat
  | .VAR => 0
  | .AND => 1
  | .OR => 2
  | .NOT => 3
  | .XOR => 4
  | .NONE => 5

/-- Position of a node in allocation order; `none` stands for `nullptr`. -/
abbrev Ptr := Nat

/-- mirrors src/formal/BoolExpr.h:132-136 -/
structure Node where
  op : Op := .NONE
  varID : Nat := 2 ^ 64 - 1
  left : Option Ptr := none
  right : Option Ptr := none
  structuralHash : UInt64 := 0
  deriving DecidableEq

/-- mirrors src/formal/BoolExprCache.h:18-24 -/
structure Key where
  op : Op
  varId : Nat
  l : Option Ptr
  r : Option Ptr

/-- mirrors src/formal/BoolExprCache.cpp:23 -/
structure TupleKey where
  op : Op
  varId : Nat
  lid : Option Ptr
  rid : Option Ptr
  deriving DecidableEq

/-- The allocated nodes and the table that finds them. -/
structure Cache where
  nodes : List Node := []
  table : List (TupleKey × Ptr) := []

/-- The hash of a node from its operator, its id and the hashes of its operands. -/
abbrev NodeHash := Op → Nat → Option UInt64 → Option UInt64 → UInt64

/-- mirrors src/formal/BoolExpr.cpp:266-281 -/
def nodeHash : NodeHash := fun op id left right =>
  BoolExpr.hashNode op.index id (left.getD 0x6a09e667f3bcc909) (right.getD 0xbb67ae8584caa73b)

namespace Cache
variable (c : Cache)

def node (p : Ptr) : Node := c.nodes.getD p {}

/-- One operand of the comparison; `none` when it does not decide.
mirrors src/formal/BoolExpr.h:97-106 -/
def childLess (less : Ptr → Ptr → Bool) (l m : Option Ptr) : Option Bool :=
  if l = m then none
  else match l, m with
    | some a, some b => if less a b then some true else if less b a then some false else none
    | l, _ => some l.isNone

/-- mirrors src/formal/BoolExpr.h:86-117; operands are allocated before the
node, so the recursion is no deeper than the pointers. -/
def lessFuel : Nat → Ptr → Ptr → Bool
  | 0, _, _ => false
  | fuel + 1, p, q =>
    let a := c.node p
    let b := c.node q
    if p = q then false
    else if a.structuralHash ≠ b.structuralHash then decide (a.structuralHash < b.structuralHash)
    else if a.op.index ≠ b.op.index then decide (a.op.index < b.op.index)
    else if a.varID ≠ b.varID then decide (a.varID < b.varID)
    else (childLess (lessFuel fuel) a.left b.left).getD
      ((childLess (lessFuel fuel) a.right b.right).getD false)

def less (p q : Ptr) : Bool := c.lessFuel c.nodes.length p q

/-- mirrors src/formal/BoolExpr.h:118-120 -/
def lessEq (p q : Ptr) : Bool := !c.less q p

/-- The smaller of two operands goes left.
mirrors src/formal/BoolExpr.cpp:250-264 -/
def orderOperands : Option Ptr → Option Ptr → Option Ptr × Option Ptr
  | some a, some b => if c.lessEq b a then (some b, some a) else (some a, some b)
  | a, b => (a, b)

/-- The private constructor.
mirrors src/formal/BoolExpr.cpp:246-282 -/
def newNode (mix : NodeHash) (op : Op) (id : Nat) (a b : Option Ptr) : Except String Node :=
  if b = none ∧ a = none ∧ op ≠ .VAR then .error "BoolExpr: non-VAR with null children"
  else
    let operands := c.orderOperands a b
    let hashOf (p : Option Ptr) := p.map fun p => (c.node p).structuralHash
    .ok ⟨op, id, operands.1, operands.2, mix op id (hashOf operands.1) (hashOf operands.2)⟩

/-- The larger operand comes first in the key of a node with two operands.
mirrors src/formal/BoolExprCache.cpp:113-131 -/
def tupleKey (k : Key) : TupleKey :=
  match k.l, k.r with
  | none, r => ⟨k.op, k.varId, r, none⟩
  | l, none => ⟨k.op, k.varId, l, none⟩
  | some l, some r =>
    if c.lessEq l r then ⟨k.op, k.varId, some r, some l⟩ else ⟨k.op, k.varId, some l, some r⟩

def insert (key : TupleKey) (n : Node) : Cache :=
  { nodes := c.nodes ++ [n], table := (key, c.nodes.length) :: c.table }

/-- mirrors src/formal/BoolExprCache.cpp:112-169 -/
def getExpression (mix : NodeHash) (k : Key) : Except String (Cache × Ptr) :=
  match c.table.lookup (c.tupleKey k) with
  | some p => .ok (c, p)
  | none => do
    let n ← c.newNode mix k.op k.varId k.l k.r
    .ok (c.insert (c.tupleKey k) n, c.nodes.length)

/-! ## Factories -/

section Factories
variable (mix : NodeHash) (below : Ptr → Ptr → Bool)

/-- mirrors src/formal/BoolExpr.cpp:308-311 -/
def Var (id : Nat) : Except String (Cache × Ptr) := c.getExpression mix ⟨.VAR, id, none, none⟩

def isConstant (p : Ptr) (id : Nat) : Prop := (c.node p).op = .VAR ∧ (c.node p).varID = id

instance (p : Ptr) (id : Nat) : Decidable (c.isConstant p id) :=
  inferInstanceAs (Decidable (_ ∧ _))

def isNotOf (p q : Ptr) : Prop := (c.node p).op = .NOT ∧ (c.node p).left = some q

instance (p q : Ptr) : Decidable (c.isNotOf p q) := inferInstanceAs (Decidable (_ ∧ _))

/-- mirrors src/formal/BoolExpr.cpp:313-324; the operand of a `NOT` node is never null -/
def Not (a : Ptr) : Except String (Cache × Ptr) :=
  if (c.node a).op = .VAR ∧ (c.node a).varID < 2 then c.Var mix (1 - (c.node a).varID)
  else if (c.node a).op = .NOT then .ok (c, (c.node a).left.getD a)
  else c.getExpression mix ⟨.NOT, 0, some a, none⟩

/-- The key of a commutative node: the operand at the lower address goes right. -/
def commutativeKey (op : Op) (a b : Ptr) : Key :=
  ⟨op, 0, some (if below b a then a else b), some (if below b a then b else a)⟩

/-- mirrors src/formal/BoolExpr.cpp:326-355 -/
def And (a b : Ptr) : Except String (Cache × Ptr) :=
  if c.isConstant a 0 ∨ c.isConstant b 0 then c.Var mix 0
  else if c.isConstant a 1 then .ok (c, b)
  else if c.isConstant b 1 then .ok (c, a)
  else if a = b then .ok (c, a)
  else if c.isNotOf a b then c.Var mix 0
  else if c.isNotOf b a then c.Var mix 0
  else c.getExpression mix (commutativeKey below .AND a b)

/-- mirrors src/formal/BoolExpr.cpp:357-385 -/
def Or (a b : Ptr) : Except String (Cache × Ptr) :=
  if c.isConstant a 1 ∨ c.isConstant b 1 then c.Var mix 1
  else if c.isConstant a 0 then .ok (c, b)
  else if c.isConstant b 0 then .ok (c, a)
  else if a = b then .ok (c, a)
  else if c.isNotOf a b then c.Var mix 1
  else if c.isNotOf b a then c.Var mix 1
  else c.getExpression mix (commutativeKey below .OR a b)

/-- mirrors src/formal/BoolExpr.cpp:387-410 -/
def Xor (a b : Ptr) : Except String (Cache × Ptr) :=
  if c.isConstant a 0 then .ok (c, b)
  else if c.isConstant b 0 then .ok (c, a)
  else if c.isConstant a 1 then c.Not mix b
  else if c.isConstant b 1 then c.Not mix a
  else if a = b then c.Var mix 0
  else c.getExpression mix (commutativeKey below .XOR a b)

end Factories
end Cache

/-! ## What a pointer represents -/

def Op.combine : Op → Option (BoolExpr → BoolExpr → BoolExpr)
  | .AND => some .and
  | .OR => some .or
  | .XOR => some .xor
  | _ => none

def opOf : BoolExpr → Op
  | .var _ => .VAR
  | .and _ _ => .AND
  | .or _ _ => .OR
  | .not _ => .NOT
  | .xor _ _ => .XOR

def idOf : BoolExpr → Nat
  | .var id => id
  | _ => 0

section Represents
variable (mix : NodeHash)

/-- The hash of the node an expression is stored in. -/
def exprHash : BoolExpr → UInt64
  | .var id => mix .VAR id none none
  | .and a b => mix .AND 0 (some (exprHash a)) (some (exprHash b))
  | .or a b => mix .OR 0 (some (exprHash a)) (some (exprHash b))
  | .not a => mix .NOT 0 (some (exprHash a)) none
  | .xor a b => mix .XOR 0 (some (exprHash a)) (some (exprHash b))

theorem exprHash_nodeHash (e : BoolExpr) : exprHash nodeHash e = e.structuralHash := by
  induction e with
  | var id => rfl
  | not a ih => simp [exprHash, nodeHash, BoolExpr.structuralHash, Op.index, ih]
  | and a b iha ihb => simp [exprHash, nodeHash, BoolExpr.structuralHash, Op.index, iha, ihb]
  | or a b iha ihb => simp [exprHash, nodeHash, BoolExpr.structuralHash, Op.index, iha, ihb]
  | xor a b iha ihb => simp [exprHash, nodeHash, BoolExpr.structuralHash, Op.index, iha, ihb]

/-- The expression a pointer points at: operands are older nodes, those of a
commutative node are in order, and the hash is that of the expression. -/
inductive Represents (c : Cache) : Ptr → BoolExpr → Prop
  | var {p : Ptr} {id : Nat}
      (hp : c.nodes[p]? = some ⟨.VAR, id, none, none, exprHash mix (.var id)⟩) :
      Represents c p (.var id)
  | not {p a : Ptr} {e : BoolExpr} (ha : Represents c a e) (hap : a < p)
      (hp : c.nodes[p]? = some ⟨.NOT, 0, some a, none, exprHash mix (.not e)⟩) :
      Represents c p (.not e)
  | binary {p a b : Ptr} {e f : BoolExpr} {op : Op} {mk : BoolExpr → BoolExpr → BoolExpr}
      (hop : op.combine = some mk) (ha : Represents c a e) (hb : Represents c b f)
      (hap : a < p) (hbp : b < p) (hlt : operandCompare (exprHash mix) e f = .lt)
      (hp : c.nodes[p]? = some ⟨op, 0, some a, some b, exprHash mix (mk e f)⟩) :
      Represents c p (mk e f)

end Represents

variable {mix : NodeHash} {c c' : Cache} {p q : Ptr} {e f : BoolExpr}

theorem opOf_combine {op : Op} {mk : BoolExpr → BoolExpr → BoolExpr}
    (hop : op.combine = some mk) (e f : BoolExpr) : opOf (mk e f) = op := by
  cases op <;> cases hop <;> rfl

theorem idOf_combine {op : Op} {mk : BoolExpr → BoolExpr → BoolExpr}
    (hop : op.combine = some mk) (e f : BoolExpr) : idOf (mk e f) = 0 := by
  cases op <;> cases hop <;> rfl

theorem combine_inj {op op' : Op} {mk mk' : BoolExpr → BoolExpr → BoolExpr} {a b d : BoolExpr}
    (hop : op.combine = some mk) (hop' : op'.combine = some mk') (h : mk a b = mk' e d) :
    op = op' ∧ a = e ∧ b = d := by
  cases op <;> cases hop <;> cases op' <;> cases hop' <;> simp_all

theorem combine_ne_var {op : Op} {mk : BoolExpr → BoolExpr → BoolExpr}
    (hop : op.combine = some mk) (a b : BoolExpr) (id : Nat) : mk a b ≠ .var id := by
  cases op <;> cases hop <;> simp

theorem combine_ne_not {op : Op} {mk : BoolExpr → BoolExpr → BoolExpr}
    (hop : op.combine = some mk) (a b e : BoolExpr) : mk a b ≠ .not e := by
  cases op <;> cases hop <;> simp

theorem index_opOf (e : BoolExpr) : (opOf e).index = e.opIndex := by
  cases e <;> rfl

theorem opOf_eq_of_index (h : e.opIndex = f.opIndex) : opOf e = opOf f := by
  cases e <;> cases f <;> first | rfl | cases h

theorem node_eq {n : Node} (hp : c.nodes[p]? = some n) : c.node p = n := by
  simp [Cache.node, List.getD_eq_getElem?_getD, hp]

theorem Represents.lt_length (h : Represents mix c p e) : p < c.nodes.length := by
  cases h with
  | var hp => exact (List.getElem?_eq_some_iff.mp hp).1
  | not _ _ hp => exact (List.getElem?_eq_some_iff.mp hp).1
  | binary _ _ _ _ _ _ hp => exact (List.getElem?_eq_some_iff.mp hp).1

theorem Represents.fields (h : Represents mix c p e) :
    (c.node p).op = opOf e ∧ (c.node p).varID = idOf e ∧
      (c.node p).structuralHash = exprHash mix e := by
  cases h with
  | var hp => simp [node_eq hp, opOf, idOf]
  | not _ _ hp => simp [node_eq hp, opOf, idOf]
  | binary hop _ _ _ _ _ hp => simp [node_eq hp, opOf_combine hop, idOf_combine hop]

theorem Represents.of_var {id : Nat} (h : Represents mix c p (.var id)) :
    c.nodes[p]? = some ⟨.VAR, id, none, none, exprHash mix (.var id)⟩ := by
  generalize hg : BoolExpr.var id = g at h
  cases h with
  | var hp =>
    cases hg
    exact hp
  | not => cases hg
  | binary hop => exact absurd hg.symm (combine_ne_var hop _ _ _)

theorem Represents.of_not (h : Represents mix c p (.not e)) :
    ∃ a, Represents mix c a e ∧ a < p ∧
      c.nodes[p]? = some ⟨.NOT, 0, some a, none, exprHash mix (.not e)⟩ := by
  generalize hg : BoolExpr.not e = g at h
  cases h with
  | var => cases hg
  | not ha hap hp =>
    cases hg
    exact ⟨_, ha, hap, hp⟩
  | binary hop => exact absurd hg.symm (combine_ne_not hop _ _ _)

theorem Represents.of_binary {op : Op} {mk : BoolExpr → BoolExpr → BoolExpr}
    (hop : op.combine = some mk) (h : Represents mix c p (mk e f)) :
    ∃ a b, Represents mix c a e ∧ Represents mix c b f ∧ a < p ∧ b < p ∧
      operandCompare (exprHash mix) e f = .lt ∧
      c.nodes[p]? = some ⟨op, 0, some a, some b, exprHash mix (mk e f)⟩ := by
  generalize hg : mk e f = g at h
  cases h with
  | var => exact absurd hg (combine_ne_var hop _ _ _)
  | not => exact absurd hg (combine_ne_not hop _ _ _)
  | binary hop' ha hb hap hbp hlt hp =>
    obtain ⟨rfl, rfl, rfl⟩ := combine_inj hop hop' hg
    exact ⟨_, _, ha, hb, hap, hbp, hlt, hg ▸ hp⟩

theorem exists_of_opOf {op : Op} {mk : BoolExpr → BoolExpr → BoolExpr}
    (hop : op.combine = some mk) (h : opOf e = op) : ∃ a b, e = mk a b := by
  subst h
  cases e <;> cases hop <;> exact ⟨_, _, rfl⟩

theorem Represents.opOf_eq (h : Represents mix c p e) (h' : Represents mix c p f) :
    opOf e = opOf f :=
  h.fields.1.symm.trans h'.fields.1

/-- One pointer represents one expression. -/
theorem Represents.unique (h : Represents mix c p e) (h' : Represents mix c p f) : e = f := by
  induction h generalizing f with
  | var hp =>
    have hop := (Represents.var hp).opOf_eq h'
    cases f <;> cases hop
    have hn := Option.some.inj (hp.symm.trans h'.of_var)
    simp_all
  | not ha hap hp ih =>
    have hop := (Represents.not ha hap hp).opOf_eq h'
    cases f <;> cases hop
    obtain ⟨a', ha', -, hp'⟩ := h'.of_not
    have hn := Option.some.inj (hp.symm.trans hp')
    simp only [Node.mk.injEq, Option.some.injEq, true_and] at hn
    obtain ⟨rfl, -⟩ := hn
    rw [ih ha']
  | binary hmk ha hb hap hbp hlt hp iha ihb =>
    have hop := (Represents.binary hmk ha hb hap hbp hlt hp).opOf_eq h'
    obtain ⟨e', f', rfl⟩ := exists_of_opOf hmk (hop.symm.trans (opOf_combine hmk _ _))
    obtain ⟨a', b', ha', hb', -, -, -, hp'⟩ := h'.of_binary hmk
    have hn := Option.some.inj (hp.symm.trans hp')
    simp only [Node.mk.injEq, Option.some.injEq, true_and] at hn
    obtain ⟨rfl, rfl, -⟩ := hn
    rw [iha ha', ihb hb']

/-! ## The order on pointers -/

/-- The next part of a lexicographic comparison is read only on equality. -/
theorem decide_then_lt {α : Type} [Ord α] [LT α] [LE α] [DecidableEq α] [DecidableLT α]
    [Std.LawfulOrderOrd α] [Std.LawfulOrderLT α] [Std.LawfulEqOrd α] (x y : α) (o : Ordering) :
    decide ((compare x y).then o = .lt) =
      if x ≠ y then decide (x < y) else decide (o = .lt) := by
  by_cases h : x = y
  · simp [h]
  · have hne : compare x y ≠ .eq := fun heq => h (Std.compare_eq_iff_eq.mp heq)
    simp [BoolExpr.then_of_ne hne, h, Std.compare_eq_lt]

/-- The answer of one operand's comparison. -/
def decided : Ordering → Option Bool
  | .lt => some true
  | .eq => none
  | .gt => some false

theorem getD_decided (o : Ordering) (rest : Ordering) :
    (decided o).getD (decide (rest = .lt)) = decide (o.then rest = .lt) := by
  cases o <;> simp [decided]

theorem getD_decided_false (o : Ordering) : (decided o).getD false = decide (o = .lt) := by
  cases o <;> rfl

theorem childLess_eq {less : Ptr → Ptr → Bool} {a b : Ptr} {e f : BoolExpr}
    {hash : BoolExpr → UInt64} (hsame : a = b → e = f)
    (hab : less a b = decide (operandCompare hash e f = .lt))
    (hba : less b a = decide (operandCompare hash f e = .lt)) :
    Cache.childLess less (some a) (some b) = decided (operandCompare hash e f) := by
  have hswap : operandCompare hash f e = (operandCompare hash e f).swap :=
    Std.OrientedCmp.eq_swap
  by_cases h : a = b
  · have hself : operandCompare hash f f = .eq := Std.ReflCmp.compare_self
    simp [Cache.childLess, h, hsame h, hself, decided]
  · rw [hswap] at hba
    simp only [Cache.childLess, Option.some.injEq, if_neg h, hab, hba]
    cases operandCompare hash e f <;> rfl

/-- The comparator in the order in which `operator<` reads a node. -/
theorem operandCompare_combine (hash : BoolExpr → UInt64) {op : Op}
    {mk : BoolExpr → BoolExpr → BoolExpr} (hop : op.combine = some mk) (a b e f : BoolExpr) :
    operandCompare hash (mk a b) (mk e f) =
      (compare (hash (mk a b)) (hash (mk e f))).then
        ((operandCompare hash a e).then (operandCompare hash b f)) := by
  cases op <;> cases hop <;> rfl

/-- `operator<` on pointers is the comparator on what they represent, for every
hash: equal hashes are told apart by the recursion. -/
theorem lessFuel_eq {fuel : Nat} (hp : Represents mix c p e) (hq : Represents mix c q f)
    (hpf : p < fuel) (hqf : q < fuel) :
    c.lessFuel fuel p q = decide (operandCompare (exprHash mix) e f = .lt) := by
  induction fuel generalizing p q e f with
  | zero => exact absurd hpf (Nat.not_lt_zero p)
  | succ fuel ih =>
    obtain ⟨hop, hid, hhash⟩ := hp.fields
    obtain ⟨hop', hid', hhash'⟩ := hq.fields
    simp only [Cache.lessFuel, hop, hid, hhash, hop', hid', hhash', index_opOf]
    by_cases hpq : p = q
    · subst hpq
      have hself : operandCompare (exprHash mix) f f = .eq := Std.ReflCmp.compare_self
      simp [hp.unique hq, hself]
    rw [if_neg hpq]
    by_cases hne : e.opIndex = f.opIndex
    swap
    · rw [BoolExpr.operandCompare_of_opIndex_ne _ hne, decide_then_lt, if_pos hne]
      simp only [compare_lt_iff_lt]
    have hidx : e.opIndex = f.opIndex := hne
    rw [if_neg (not_not.mpr hne)]
    cases hp with
    | var hn =>
      cases f <;> cases hidx
      have hn' := hq.of_var
      rw [operandCompare, decide_then_lt, node_eq hn, node_eq hn']
      have hrest : (Cache.childLess (c.lessFuel fuel) none none).getD
          ((Cache.childLess (c.lessFuel fuel) none none).getD false) = false := rfl
      simp only [idOf, hrest, Std.compare_eq_lt]
      split_ifs with hhashes hids
      · rfl
      · rfl
      · simp [not_not.mp hids]
    | not ha hap hn =>
      cases f <;> cases hidx
      obtain ⟨b, hb, hbq, hn'⟩ := hq.of_not
      have hpa := lt_of_lt_of_le hap (Nat.le_of_lt_succ hpf)
      have hqb := lt_of_lt_of_le hbq (Nat.le_of_lt_succ hqf)
      have hchild := childLess_eq (fun h => ha.unique (h ▸ hb)) (ih ha hb hpa hqb)
        (ih hb ha hqb hpa)
      have hnone : Cache.childLess (c.lessFuel fuel) none none = none := rfl
      rw [operandCompare, decide_then_lt, node_eq hn, node_eq hn']
      simp only [idOf, hchild, hnone, Option.getD_none, getD_decided_false]
      simp
    | binary hmk ha hb hap hbp hlt hn =>
      have hopf : opOf f = _ := (opOf_eq_of_index hidx).symm.trans (opOf_combine hmk _ _)
      obtain ⟨e', f', rfl⟩ := exists_of_opOf hmk hopf
      obtain ⟨a', b', ha', hb', haq, hbq, -, hn'⟩ := hq.of_binary hmk
      have hpa := lt_of_lt_of_le hap (Nat.le_of_lt_succ hpf)
      have hpb := lt_of_lt_of_le hbp (Nat.le_of_lt_succ hpf)
      have hqa := lt_of_lt_of_le haq (Nat.le_of_lt_succ hqf)
      have hqb := lt_of_lt_of_le hbq (Nat.le_of_lt_succ hqf)
      have hleft := childLess_eq (fun h => ha.unique (h ▸ ha')) (ih ha ha' hpa hqa)
        (ih ha' ha hqa hpa)
      have hright := childLess_eq (fun h => hb.unique (h ▸ hb')) (ih hb hb' hpb hqb)
        (ih hb' hb hqb hpb)
      rw [operandCompare_combine _ hmk, decide_then_lt, node_eq hn, node_eq hn']
      simp only [idOf_combine hmk, hleft, hright, getD_decided_false, getD_decided]
      simp

theorem less_iff (hp : Represents mix c p e) (hq : Represents mix c q f) :
    c.less p q = true ↔ operandCompare (exprHash mix) e f = .lt := by
  rw [Cache.less, lessFuel_eq hp hq hp.lt_length hq.lt_length, decide_eq_true_eq]

theorem lessEq_iff (hp : Represents mix c p e) (hq : Represents mix c q f) :
    c.lessEq p q = true ↔ operandCompare (exprHash mix) e f ≠ .gt := by
  rw [Cache.lessEq, Bool.not_eq_true', Bool.eq_false_iff, Ne, less_iff hq hp, Ne,
    ← Std.OrientedCmp.gt_iff_lt]

/-! ## The table -/

/-- The key under which a node is stored: its larger operand first. -/
def Node.key (n : Node) : TupleKey :=
  if n.right = none then ⟨n.op, n.varID, n.left, none⟩ else ⟨n.op, n.varID, n.right, n.left⟩

/-- Every node represents an expression, and the table finds exactly the nodes. -/
structure WellFormed (mix : NodeHash) (c : Cache) : Prop where
  represents : ∀ p < c.nodes.length, ∃ e, Represents mix c p e
  table : ∀ k p, c.table.lookup k = some p ↔ ∃ n, c.nodes[p]? = some n ∧ n.key = k

theorem wellFormed_empty (mix : NodeHash) : WellFormed mix {} where
  represents p hp := absurd hp (Nat.not_lt_zero p)
  table k p := by simp

/-- One expression is represented by one pointer. -/
theorem Represents.injective (wf : WellFormed mix c) (h : Represents mix c p e)
    (h' : Represents mix c q e) : p = q := by
  have found {n n' : Node} {p q : Ptr} (hp : c.nodes[p]? = some n) (hq : c.nodes[q]? = some n')
      (hk : n.key = n'.key) : p = q :=
    Option.some.inj (((wf.table _ _).mpr ⟨n, hp, hk⟩).symm.trans
      ((wf.table _ _).mpr ⟨n', hq, rfl⟩))
  induction h generalizing q with
  | var hp => exact found hp h'.of_var rfl
  | not _ _ hp ih =>
    obtain ⟨a', ha', -, hp'⟩ := h'.of_not
    obtain rfl := ih ha'
    exact found hp hp' rfl
  | binary hop _ _ _ _ _ hp iha ihb =>
    obtain ⟨a', b', ha', hb', -, -, -, hp'⟩ := h'.of_binary hop
    obtain rfl := iha ha'
    obtain rfl := ihb hb'
    exact found hp hp' rfl

theorem eq_iff (wf : WellFormed mix c) (hp : Represents mix c p e) (hq : Represents mix c q f) :
    p = q ↔ e = f := by
  constructor
  · intro h
    subst h
    exact hp.unique hq
  · intro h
    subst h
    exact hp.injective wf hq

/-- Nodes are never changed or removed. -/
def Extends (c c' : Cache) : Prop :=
  ∀ (p : Ptr) (n : Node), c.nodes[p]? = some n → c'.nodes[p]? = some n

theorem Extends.refl (c : Cache) : Extends c c := fun _ _ h => h

theorem Represents.mono (h : Represents mix c p e) (hext : Extends c c') :
    Represents mix c' p e := by
  induction h with
  | var hp => exact .var (hext _ _ hp)
  | not _ hap hp ih => exact .not ih hap (hext _ _ hp)
  | binary hop _ _ hap hbp hlt hp iha ihb => exact .binary hop iha ihb hap hbp hlt (hext _ _ hp)

theorem extends_insert (key : TupleKey) (n : Node) : Extends c (c.insert key n) := by
  intro p m hp
  have hlt := (List.getElem?_eq_some_iff.mp hp).1
  simpa [Cache.insert, List.getElem?_append_left hlt] using hp

theorem getElem?_insert (key : TupleKey) (n m : Node) (p : Ptr) :
    (c.insert key n).nodes[p]? = some m ↔
      c.nodes[p]? = some m ∨ (p = c.nodes.length ∧ m = n) := by
  obtain h | h | h := lt_trichotomy p c.nodes.length
  · simp [Cache.insert, List.getElem?_append_left h, h.ne]
  · simp [Cache.insert, h, eq_comm]
  · have hold : c.nodes[p]? = none := List.getElem?_eq_none h.le
    have hnew : (c.nodes ++ [n])[p]? = none := List.getElem?_eq_none (by simpa using h)
    simp [Cache.insert, h.ne', hold, hnew]

/-- A node with a new key keeps the cache well formed. -/
theorem WellFormed.insert (wf : WellFormed mix c) {n : Node}
    (hnone : c.table.lookup n.key = none)
    (hrep : Represents mix (c.insert n.key n) c.nodes.length e) :
    WellFormed mix (c.insert n.key n) where
  represents p hp := by
    obtain h | h := Nat.lt_succ_iff_lt_or_eq.mp (by simpa [Cache.insert] using hp)
    · obtain ⟨e, he⟩ := wf.represents p h
      exact ⟨e, he.mono (extends_insert _ _)⟩
    · exact ⟨e, h ▸ hrep⟩
  table k p := by
    simp only [getElem?_insert]
    by_cases hk : k = n.key
    · subst hk
      have hno : ∀ m, c.nodes[p]? = some m → m.key ≠ n.key := fun m hm heq => by
        simpa [hnone] using (wf.table n.key p).mpr ⟨m, hm, heq⟩
      simp only [Cache.insert, List.lookup_cons_self, Option.some.injEq]
      constructor
      · intro h
        exact ⟨n, .inr ⟨h.symm, rfl⟩, rfl⟩
      · intro ⟨m, hm, heq⟩
        exact (hm.resolve_left fun h => hno m h heq).1.symm
    · have hb : (k == n.key) = false := by simpa using hk
      simp only [Cache.insert, List.lookup_cons, hb]
      rw [wf.table]
      refine exists_congr fun m => ⟨fun ⟨hm, heq⟩ => ⟨.inl hm, heq⟩, fun ⟨hm, heq⟩ => ?_⟩
      refine ⟨hm.resolve_right fun ⟨_, h⟩ => hk ?_, heq⟩
      rw [← heq, h]

/-- The key of a node determines what it represents. -/
theorem Represents.eq_of_key (hp : Represents mix c p e) (hq : Represents mix c q f)
    (hkey : (c.node p).key = (c.node q).key) : e = f := by
  have hop : opOf e = opOf f := by
    rw [← hp.fields.1, ← hq.fields.1]
    have := congrArg TupleKey.op hkey
    simpa [Node.key, apply_ite TupleKey.op] using this
  cases hp with
  | var hn =>
    cases f <;> cases hop
    rw [node_eq hn, node_eq hq.of_var] at hkey
    simpa [Node.key] using hkey
  | not ha _ hn =>
    cases f <;> cases hop
    obtain ⟨b, hb, -, hn'⟩ := hq.of_not
    rw [node_eq hn, node_eq hn'] at hkey
    obtain rfl : _ = b := by simpa [Node.key] using hkey
    rw [ha.unique hb]
  | binary hmk ha hb _ _ _ hn =>
    obtain ⟨e', f', rfl⟩ := exists_of_opOf hmk (hop.symm.trans (opOf_combine hmk _ _))
    obtain ⟨a', b', ha', hb', -, -, -, hn'⟩ := hq.of_binary hmk
    rw [node_eq hn, node_eq hn'] at hkey
    simp only [Node.key, reduceCtorEq, if_false, TupleKey.mk.injEq, Option.some.injEq,
      true_and] at hkey
    obtain ⟨rfl, rfl⟩ := hkey
    rw [ha.unique ha', hb.unique hb']

/-! ## Factories -/

/-- The call succeeds, only adds nodes, and its result represents `e`. -/
def Returns (mix : NodeHash) (c : Cache) (out : Except String (Cache × Ptr)) (e : BoolExpr) :
    Prop :=
  ∃ c' r, out = .ok (c', r) ∧ WellFormed mix c' ∧ Extends c c' ∧ Represents mix c' r e

theorem Returns.of_represents (wf : WellFormed mix c) (hp : Represents mix c p e) :
    Returns mix c (.ok (c, p)) e :=
  ⟨c, p, rfl, wf, .refl c, hp⟩

theorem getExpression_returns (wf : WellFormed mix c) {k : Key} {n : Node}
    (hn : c.newNode mix k.op k.varId k.l k.r = .ok n) (hkey : c.tupleKey k = n.key)
    (hrep : Represents mix (c.insert n.key n) c.nodes.length e) :
    Returns mix c (c.getExpression mix k) e := by
  unfold Cache.getExpression
  rw [hkey]
  cases h : c.table.lookup n.key with
  | none =>
    refine ⟨c.insert n.key n, c.nodes.length, ?_, wf.insert h hrep, extends_insert _ _, hrep⟩
    simp only [hn]
    rfl
  | some p =>
    obtain ⟨m, hm, hmk⟩ := (wf.table _ _).mp h
    obtain ⟨e', he'⟩ := wf.represents p (List.getElem?_eq_some_iff.mp hm).1
    have hold := extends_insert (c := c) n.key n p m hm
    have hnew : (c.insert n.key n).nodes[c.nodes.length]? = some n :=
      (getElem?_insert _ _ _ _).mpr (.inr ⟨rfl, rfl⟩)
    have heq : e' = e := (he'.mono (extends_insert _ _)).eq_of_key hrep (by
      rw [node_eq hold, node_eq hnew, hmk])
    exact .of_represents wf (heq ▸ he')

theorem Var_returns (wf : WellFormed mix c) (id : Nat) :
    Returns mix c (c.Var mix id) (.var id) := by
  apply getExpression_returns wf (n := ⟨.VAR, id, none, none, exprHash mix (.var id)⟩)
  · rfl
  · rfl
  · exact .var ((getElem?_insert _ _ _ _).mpr (.inr ⟨rfl, rfl⟩))

theorem getExpression_not (wf : WellFormed mix c) (hp : Represents mix c p e) :
    Returns mix c (c.getExpression mix ⟨.NOT, 0, some p, none⟩) (.not e) := by
  apply getExpression_returns wf (n := ⟨.NOT, 0, some p, none, exprHash mix (.not e)⟩)
  · simp [Cache.newNode, Cache.orderOperands, hp.fields.2.2, exprHash]
  · rfl
  · exact .not (hp.mono (extends_insert _ _)) hp.lt_length
      ((getElem?_insert _ _ _ _).mpr (.inr ⟨rfl, rfl⟩))

theorem exprHash_combine {op : Op} {mk : BoolExpr → BoolExpr → BoolExpr}
    (hmk : op.combine = some mk) (e f : BoolExpr) :
    exprHash mix (mk e f) = mix op 0 (some (exprHash mix e)) (some (exprHash mix f)) := by
  cases op <;> cases hmk <;> rfl

/-- Both the key and the constructor sort the operands, in opposite directions. -/
theorem getExpression_binary (wf : WellFormed mix c) {op : Op}
    {mk : BoolExpr → BoolExpr → BoolExpr} (hmk : op.combine = some mk)
    (hp : Represents mix c p e) (hq : Represents mix c q f)
    (hlt : operandCompare (exprHash mix) e f = .lt) :
    Returns mix c (c.getExpression mix ⟨op, 0, some p, some q⟩) (mk e f) ∧
      Returns mix c (c.getExpression mix ⟨op, 0, some q, some p⟩) (mk e f) := by
  have hgt : operandCompare (exprHash mix) f e = .gt := Std.OrientedCmp.gt_of_lt hlt
  have hpq : c.lessEq p q = true := (lessEq_iff hp hq).mpr (by simp [hlt])
  have hqp : ¬ c.lessEq q p = true := fun h => (lessEq_iff hq hp).mp h hgt
  have hrep : Represents mix (c.insert _ _) c.nodes.length (mk e f) :=
    .binary hmk (hp.mono (extends_insert _ _)) (hq.mono (extends_insert _ _)) hp.lt_length
      hq.lt_length hlt ((getElem?_insert
        (Node.key ⟨op, 0, some p, some q, exprHash mix (mk e f)⟩) _ _ _).mpr (.inr ⟨rfl, rfl⟩))
  refine ⟨getExpression_returns wf ?_ ?_ hrep, getExpression_returns wf ?_ ?_ hrep⟩
  · simp [Cache.newNode, Cache.orderOperands, hqp, hp.fields.2.2, hq.fields.2.2,
      exprHash_combine hmk]
  · simp [Cache.tupleKey, hpq, Node.key]
  · simp [Cache.newNode, Cache.orderOperands, hpq, hp.fields.2.2, hq.fields.2.2,
      exprHash_combine hmk]
  · simp [Cache.tupleKey, hqp, Node.key]

theorem getExpression_commutative (wf : WellFormed mix c) (below : Ptr → Ptr → Bool) {op : Op}
    {mk : BoolExpr → BoolExpr → BoolExpr} (hmk : op.combine = some mk)
    (hp : Represents mix c p e) (hq : Represents mix c q f) (hne : e ≠ f) :
    Returns mix c (c.getExpression mix (Cache.commutativeKey below op p q))
      (sortedBy (exprHash mix) mk e f) := by
  cases h : operandCompare (exprHash mix) e f with
  | eq => exact absurd (BoolExpr.eq_of_operandCompare _ h) hne
  | lt =>
    have hboth := getExpression_binary wf hmk hp hq h
    rw [BoolExpr.sortedBy_of_lt _ _ h]
    unfold Cache.commutativeKey
    split
    · exact hboth.1
    · exact hboth.2
  | gt =>
    have hlt : operandCompare (exprHash mix) f e = .lt := Std.OrientedCmp.lt_of_gt h
    have hboth := getExpression_binary wf hmk hq hp hlt
    rw [BoolExpr.sortedBy_comm, BoolExpr.sortedBy_of_lt _ _ hlt]
    unfold Cache.commutativeKey
    split
    · exact hboth.2
    · exact hboth.1

theorem isConstant_iff {i : Nat} (hp : Represents mix c p e) :
    c.isConstant p i ↔ e = .var i := by
  unfold Cache.isConstant
  rw [hp.fields.1, hp.fields.2.1]
  cases e <;> simp [opOf, idOf]

theorem isNotOf_iff (wf : WellFormed mix c) (hp : Represents mix c p e)
    (hq : Represents mix c q f) : c.isNotOf p q ↔ e = .not f := by
  unfold Cache.isNotOf
  constructor
  · intro ⟨hop, hleft⟩
    rw [hp.fields.1] at hop
    cases e <;> cases hop
    obtain ⟨a, ha, -, hn⟩ := hp.of_not
    obtain rfl : a = q := by simpa [node_eq hn] using hleft
    rw [ha.unique hq]
  · intro h
    subst h
    obtain ⟨a, ha, -, hn⟩ := hp.of_not
    simp [node_eq hn, ha.injective wf hq]

theorem Not_returns (wf : WellFormed mix c) (hp : Represents mix c p e) :
    Returns mix c (c.Not mix p) (BoolExpr.Not e) := by
  unfold Cache.Not
  rw [hp.fields.1, hp.fields.2.1]
  split_ifs with hconst hnot
  · cases e with
    | var id =>
      obtain rfl | rfl : id = 0 ∨ id = 1 := Nat.le_one_iff_eq_zero_or_eq_one.mp
        (Nat.le_of_lt_succ hconst.2)
      · exact Var_returns wf 1
      · exact Var_returns wf 0
    | _ => cases hconst.1
  · cases e <;> cases hnot
    obtain ⟨a, ha, -, hn⟩ := hp.of_not
    simp only [node_eq hn, Option.getD_some]
    exact .of_represents wf ha
  · rw [BoolExpr.Not_of_opIndex]
    · exact getExpression_not wf hp
    · intro h
      cases e <;> cases h
      exact hnot rfl
    · intro h
      subst h
      exact hconst ⟨rfl, by simp [idOf]⟩
    · intro h
      subst h
      exact hconst ⟨rfl, by simp [idOf]⟩

section Canonical
variable {s t : BoolExpr} (below : Ptr → Ptr → Bool)

theorem And_returns (wf : WellFormed mix c) (hp : Represents mix c p (s.canon (exprHash mix)))
    (hq : Represents mix c q (t.canon (exprHash mix))) :
    Returns mix c (c.And mix below p q) ((foldAnd s t).canon (exprHash mix)) := by
  simp only [Cache.And, foldAnd, isConstant_iff hp, isConstant_iff hq, isNotOf_iff wf hp hq,
    isNotOf_iff wf hq hp, eq_iff wf hp hq, BoolExpr.canon_eq_var, BoolExpr.canon_eq_iff,
    BoolExpr.canon_eq_not, ite_or]
  split_ifs with hs0 ht0 hs1 ht1 heq hnot hnot'
  · exact Var_returns wf 0
  · exact Var_returns wf 0
  · exact .of_represents wf hq
  · exact .of_represents wf hp
  · exact .of_represents wf hp
  · exact Var_returns wf 0
  · exact Var_returns wf 0
  · exact getExpression_commutative wf below rfl hp hq
      fun h => heq ((BoolExpr.canon_eq_iff _ s t).mp h)

theorem Or_returns (wf : WellFormed mix c) (hp : Represents mix c p (s.canon (exprHash mix)))
    (hq : Represents mix c q (t.canon (exprHash mix))) :
    Returns mix c (c.Or mix below p q) ((foldOr s t).canon (exprHash mix)) := by
  simp only [Cache.Or, foldOr, isConstant_iff hp, isConstant_iff hq, isNotOf_iff wf hp hq,
    isNotOf_iff wf hq hp, eq_iff wf hp hq, BoolExpr.canon_eq_var, BoolExpr.canon_eq_iff,
    BoolExpr.canon_eq_not, ite_or]
  split_ifs with hs0 ht0 hs1 ht1 heq hnot hnot'
  · exact Var_returns wf 1
  · exact Var_returns wf 1
  · exact .of_represents wf hq
  · exact .of_represents wf hp
  · exact .of_represents wf hp
  · exact Var_returns wf 1
  · exact Var_returns wf 1
  · exact getExpression_commutative wf below rfl hp hq
      fun h => heq ((BoolExpr.canon_eq_iff _ s t).mp h)

theorem Xor_returns (wf : WellFormed mix c) (hp : Represents mix c p (s.canon (exprHash mix)))
    (hq : Represents mix c q (t.canon (exprHash mix))) :
    Returns mix c (c.Xor mix below p q) ((foldXor s t).canon (exprHash mix)) := by
  simp only [Cache.Xor, foldXor, isConstant_iff hp, isConstant_iff hq, eq_iff wf hp hq,
    BoolExpr.canon_eq_var, BoolExpr.canon_eq_iff]
  split_ifs with hs0 ht0 hs1 ht1 heq
  · exact .of_represents wf hq
  · exact .of_represents wf hp
  · rw [BoolExpr.canon_Not]
    exact Not_returns wf hq
  · rw [BoolExpr.canon_Not]
    exact Not_returns wf hp
  · exact Var_returns wf 0
  · exact getExpression_commutative wf below rfl hp hq
      fun h => heq ((BoolExpr.canon_eq_iff _ s t).mp h)

end Canonical

end BoolExprCache
end KeplerFormal
