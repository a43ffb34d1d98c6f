import KeplerFormal.L1Formula.BoolExpr

/-!
# Order of the operands (`src/formal/BoolExpr.h`)

`operator<` compares the stored hash first and falls back on operator, id and
operands only when two hashes collide. The results here hold for an arbitrary
hash of expressions, so also for one that maps everything to one number.

* `operandCompare`: the comparator over a given hash; `structuralCompare` is
  the one over the hash the code computes (`structuralCompare_eq`).
* `compareLex_nodeKeys`: it compares the nodes of two expressions from the root,
  left operand first, so it is a linear order for every hash.
* `sortedBy`, `canon`: the operands of every commutative node put in order.
* `commEq`, `canon_eq_iff`: two expressions have one canonical form exactly
  when they are equal up to the order of commutative operands.
* `foldAnd`, `foldOr`, `foldXor`: the local simplifications of the factories, on
  expressions up to that order.
-/
namespace KeplerFormal
namespace BoolExpr

/-! ## The comparator -/

section Order
variable (hash : BoolExpr → UInt64)

/-- mirrors src/formal/BoolExpr.h:86-117, with the stored hash as a parameter -/
def operandCompare : BoolExpr → BoolExpr → Ordering
  | .var i, .var j => (compare (hash (.var i)) (hash (.var j))).then (compare i j)
  | .and a b, .and c d =>
    (compare (hash (.and a b)) (hash (.and c d))).then
      ((operandCompare a c).then (operandCompare b d))
  | .or a b, .or c d =>
    (compare (hash (.or a b)) (hash (.or c d))).then
      ((operandCompare a c).then (operandCompare b d))
  | .xor a b, .xor c d =>
    (compare (hash (.xor a b)) (hash (.xor c d))).then
      ((operandCompare a c).then (operandCompare b d))
  | .not a, .not b => (compare (hash (.not a)) (hash (.not b))).then (operandCompare a b)
  | a, b => (compare (hash a) (hash b)).then (compare a.opIndex b.opIndex)

theorem structuralCompare_eq (a b : BoolExpr) :
    structuralCompare a b = operandCompare structuralHash a b := by
  induction a generalizing b with
  | var i => cases b <;> rfl
  | and a b iha ihb =>
    cases b <;>
      simp [structuralCompare, structuralCompare.compareBinary, operandCompare, iha, ihb]
  | or a b iha ihb =>
    cases b <;>
      simp [structuralCompare, structuralCompare.compareBinary, operandCompare, iha, ihb]
  | not a ih => cases b <;> simp [structuralCompare, operandCompare, ih]
  | xor a b iha ihb =>
    cases b <;>
      simp [structuralCompare, structuralCompare.compareBinary, operandCompare, iha, ihb]

/-- What the comparator reads of one node, most significant part first. -/
def nodeCompare : UInt64 × Nat × Nat → UInt64 × Nat × Nat → Ordering :=
  compareLex (compareOn fun key => key.1)
    (compareLex (compareOn fun key => key.2.1) (compareOn fun key => key.2.2))

instance : Std.TransCmp nodeCompare :=
  inferInstanceAs (Std.TransCmp (compareLex _ (compareLex _ _)))

/-- The nodes of an expression from the root, left operand first. -/
def nodeKeys : BoolExpr → List (UInt64 × Nat × Nat)
  | .var i => [(hash (.var i), 0, i)]
  | .and a b => (hash (.and a b), 1, 0) :: (a.nodeKeys ++ b.nodeKeys)
  | .or a b => (hash (.or a b), 2, 0) :: (a.nodeKeys ++ b.nodeKeys)
  | .not a => (hash (.not a), 3, 0) :: a.nodeKeys
  | .xor a b => (hash (.xor a b), 4, 0) :: (a.nodeKeys ++ b.nodeKeys)

theorem nodeKeys_eq_cons (e : BoolExpr) :
    ∃ id rest, e.nodeKeys hash = (hash e, e.opIndex, id) :: rest := by
  cases e <;> exact ⟨_, _, rfl⟩

theorem then_of_ne {o o' : Ordering} (h : o ≠ .eq) : o.then o' = o := by
  cases o <;> simp_all

theorem operandCompare_of_opIndex_ne {a b : BoolExpr} (h : a.opIndex ≠ b.opIndex) :
    operandCompare hash a b =
      (compare (hash a) (hash b)).then (compare a.opIndex b.opIndex) := by
  cases a <;> cases b <;> simp_all [operandCompare, opIndex]

theorem compareLex_of_opIndex_ne {a b : BoolExpr} (h : a.opIndex ≠ b.opIndex)
    (u v : List (UInt64 × Nat × Nat)) :
    List.compareLex nodeCompare (a.nodeKeys hash ++ u) (b.nodeKeys hash ++ v) =
      (operandCompare hash a b).then (List.compareLex nodeCompare u v) := by
  obtain ⟨i, k, ha⟩ := nodeKeys_eq_cons hash a
  obtain ⟨j, l, hb⟩ := nodeKeys_eq_cons hash b
  have hne : compare a.opIndex b.opIndex ≠ .eq := by simpa using h
  rw [ha, hb, List.cons_append, List.cons_append, List.compareLex_cons_cons,
    operandCompare_of_opIndex_ne hash h]
  simp [nodeCompare, compareLex, compareOn, Ordering.then_assoc, then_of_ne hne]

/-- No key list is a prefix of another, so what follows the two lists counts
only when the expressions compare equal. -/
theorem compareLex_nodeKeys (a b : BoolExpr) (u v : List (UInt64 × Nat × Nat)) :
    List.compareLex nodeCompare (a.nodeKeys hash ++ u) (b.nodeKeys hash ++ v) =
      (operandCompare hash a b).then (List.compareLex nodeCompare u v) := by
  induction a generalizing b u v with
  | var i =>
    cases b with
    | var j =>
      simp [nodeKeys, operandCompare, List.compareLex_cons_cons, nodeCompare, compareLex,
        compareOn]
    | _ => exact compareLex_of_opIndex_ne hash (by simp [opIndex]) u v
  | not a ih =>
    cases b with
    | not b =>
      simp only [nodeKeys, operandCompare, List.cons_append, List.compareLex_cons_cons, ih]
      simp [nodeCompare, compareLex, compareOn, Ordering.then_assoc]
    | _ => exact compareLex_of_opIndex_ne hash (by simp [opIndex]) u v
  | and a₁ a₂ ih₁ ih₂ =>
    cases b with
    | and b₁ b₂ =>
      simp only [nodeKeys, operandCompare, List.cons_append, List.append_assoc,
        List.compareLex_cons_cons, ih₁, ih₂]
      simp [nodeCompare, compareLex, compareOn, Ordering.then_assoc]
    | _ => exact compareLex_of_opIndex_ne hash (by simp [opIndex]) u v
  | or a₁ a₂ ih₁ ih₂ =>
    cases b with
    | or b₁ b₂ =>
      simp only [nodeKeys, operandCompare, List.cons_append, List.append_assoc,
        List.compareLex_cons_cons, ih₁, ih₂]
      simp [nodeCompare, compareLex, compareOn, Ordering.then_assoc]
    | _ => exact compareLex_of_opIndex_ne hash (by simp [opIndex]) u v
  | xor a₁ a₂ ih₁ ih₂ =>
    cases b with
    | xor b₁ b₂ =>
      simp only [nodeKeys, operandCompare, List.cons_append, List.append_assoc,
        List.compareLex_cons_cons, ih₁, ih₂]
      simp [nodeCompare, compareLex, compareOn, Ordering.then_assoc]
    | _ => exact compareLex_of_opIndex_ne hash (by simp [opIndex]) u v

theorem operandCompare_eq_compareLex (a b : BoolExpr) :
    operandCompare hash a b = List.compareLex nodeCompare (a.nodeKeys hash) (b.nodeKeys hash) := by
  simpa [List.compareLex_nil_nil] using (compareLex_nodeKeys hash a b [] []).symm

instance : Std.TransCmp (operandCompare hash) where
  eq_swap {a b} := by
    simp only [operandCompare_eq_compareLex]
    exact Std.OrientedCmp.eq_swap
  isLE_trans {a b c} := by
    simp only [operandCompare_eq_compareLex]
    exact Std.TransCmp.isLE_trans

theorem eq_of_operandCompare {a b : BoolExpr} (h : operandCompare hash a b = .eq) : a = b := by
  induction a generalizing b with
  | var i => cases b <;> simp_all [operandCompare, opIndex]
  | not a ih =>
    cases b with
    | not b =>
      simp only [operandCompare, Ordering.then_eq_eq] at h
      rw [ih h.2]
    | _ => simp [operandCompare, opIndex] at h
  | and a₁ a₂ ih₁ ih₂ =>
    cases b with
    | and b₁ b₂ =>
      simp only [operandCompare, Ordering.then_eq_eq] at h
      rw [ih₁ h.2.1, ih₂ h.2.2]
    | _ => simp [operandCompare, opIndex] at h
  | or a₁ a₂ ih₁ ih₂ =>
    cases b with
    | or b₁ b₂ =>
      simp only [operandCompare, Ordering.then_eq_eq] at h
      rw [ih₁ h.2.1, ih₂ h.2.2]
    | _ => simp [operandCompare, opIndex] at h
  | xor a₁ a₂ ih₁ ih₂ =>
    cases b with
    | xor b₁ b₂ =>
      simp only [operandCompare, Ordering.then_eq_eq] at h
      rw [ih₁ h.2.1, ih₂ h.2.2]
    | _ => simp [operandCompare, opIndex] at h

instance : Std.LawfulEqCmp (operandCompare hash) where
  compare_self := Std.ReflCmp.compare_self
  eq_of_compare := eq_of_operandCompare hash

/-! ## Sorted operands -/

/-- `sorted` at an arbitrary hash. -/
def sortedBy (op : BoolExpr → BoolExpr → BoolExpr) (a b : BoolExpr) : BoolExpr :=
  if operandCompare hash b a ≠ .gt then op b a else op a b

theorem sorted_eq_sortedBy (op : BoolExpr → BoolExpr → BoolExpr) (a b : BoolExpr) :
    sorted op a b = sortedBy structuralHash op a b := by
  simp [sorted, sortedBy, structuralCompare_eq]

theorem sortedBy_comm (op : BoolExpr → BoolExpr → BoolExpr) (a b : BoolExpr) :
    sortedBy hash op a b = sortedBy hash op b a := by
  have hswap : operandCompare hash a b = (operandCompare hash b a).swap :=
    Std.OrientedCmp.eq_swap
  unfold sortedBy
  cases h : operandCompare hash b a with
  | lt => simp [hswap, h]
  | eq => simp [eq_of_operandCompare hash h]
  | gt => simp [hswap, h]

theorem sortedBy_of_lt (op : BoolExpr → BoolExpr → BoolExpr) {a b : BoolExpr}
    (h : operandCompare hash a b = .lt) : sortedBy hash op a b = op a b := by
  have hgt : operandCompare hash b a = .gt := Std.OrientedCmp.gt_of_lt h
  simp [sortedBy, hgt]

theorem sortedBy_cases (op : BoolExpr → BoolExpr → BoolExpr) (a b : BoolExpr) :
    sortedBy hash op a b = op a b ∨ sortedBy hash op a b = op b a := by
  unfold sortedBy
  split
  · exact .inr rfl
  · exact .inl rfl

/-- Two sorted nodes are one node when their operands are the same pair. -/
theorem sortedBy_eq_iff (op : BoolExpr → BoolExpr → BoolExpr)
    (hop : ∀ {a b c d}, op a b = op c d ↔ a = c ∧ b = d) (a b c d : BoolExpr) :
    sortedBy hash op a b = sortedBy hash op c d ↔ (a = c ∧ b = d) ∨ (a = d ∧ b = c) := by
  constructor
  · intro h
    obtain hl | hl := sortedBy_cases hash op a b <;>
      obtain hr | hr := sortedBy_cases hash op c d <;>
      rw [hl, hr, hop] at h <;> tauto
  · intro h
    obtain ⟨rfl, rfl⟩ | ⟨rfl, rfl⟩ := h
    · rfl
    · exact sortedBy_comm hash op a b

/-- Every commutative node with its operands in order. -/
def canon : BoolExpr → BoolExpr
  | .var i => .var i
  | .and a b => sortedBy hash .and a.canon b.canon
  | .or a b => sortedBy hash .or a.canon b.canon
  | .not a => .not a.canon
  | .xor a b => sortedBy hash .xor a.canon b.canon

@[simp] theorem opIndex_canon (e : BoolExpr) : (e.canon hash).opIndex = e.opIndex := by
  cases e with
  | var i => rfl
  | not a => rfl
  | and a b => obtain h | h := sortedBy_cases hash .and (a.canon hash) (b.canon hash) <;>
      simp [canon, h, opIndex]
  | or a b => obtain h | h := sortedBy_cases hash .or (a.canon hash) (b.canon hash) <;>
      simp [canon, h, opIndex]
  | xor a b => obtain h | h := sortedBy_cases hash .xor (a.canon hash) (b.canon hash) <;>
      simp [canon, h, opIndex]

end Order

/-! ## Equality up to the order of operands -/

/-- Equality of expressions when `AND`, `OR` and `XOR` forget the order of
their operands. -/
def commEq : BoolExpr → BoolExpr → Bool
  | .var i, .var j => i == j
  | .and a b, .and c d => (commEq a c && commEq b d) || (commEq a d && commEq b c)
  | .or a b, .or c d => (commEq a c && commEq b d) || (commEq a d && commEq b c)
  | .not a, .not b => commEq a b
  | .xor a b, .xor c d => (commEq a c && commEq b d) || (commEq a d && commEq b c)
  | _, _ => false

theorem opIndex_of_canon {hash : BoolExpr → UInt64} {a b : BoolExpr}
    (h : a.canon hash = b.canon hash) : a.opIndex = b.opIndex := by
  rw [← opIndex_canon hash a, h, opIndex_canon]

/-- The canonical form forgets exactly the order of the operands, for every
hash that picks it. -/
theorem canon_eq_iff (hash : BoolExpr → UInt64) (a b : BoolExpr) :
    a.canon hash = b.canon hash ↔ commEq a b = true := by
  induction a generalizing b with
  | var i =>
    cases b with
    | var j => simp [canon, commEq]
    | _ => exact ⟨fun h => absurd (opIndex_of_canon h) (by simp [opIndex]), by simp [commEq]⟩
  | not a ih =>
    cases b with
    | not b => simp [canon, commEq, ih]
    | _ => exact ⟨fun h => absurd (opIndex_of_canon h) (by simp [opIndex]), by simp [commEq]⟩
  | and a₁ a₂ ih₁ ih₂ =>
    cases b with
    | and b₁ b₂ =>
      simp only [canon, sortedBy_eq_iff hash .and (by simp), ih₁, ih₂, commEq,
        Bool.or_eq_true, Bool.and_eq_true]
    | _ => exact ⟨fun h => absurd (opIndex_of_canon h) (by simp [opIndex]), by simp [commEq]⟩
  | or a₁ a₂ ih₁ ih₂ =>
    cases b with
    | or b₁ b₂ =>
      simp only [canon, sortedBy_eq_iff hash .or (by simp), ih₁, ih₂, commEq,
        Bool.or_eq_true, Bool.and_eq_true]
    | _ => exact ⟨fun h => absurd (opIndex_of_canon h) (by simp [opIndex]), by simp [commEq]⟩
  | xor a₁ a₂ ih₁ ih₂ =>
    cases b with
    | xor b₁ b₂ =>
      simp only [canon, sortedBy_eq_iff hash .xor (by simp), ih₁, ih₂, commEq,
        Bool.or_eq_true, Bool.and_eq_true]
    | _ => exact ⟨fun h => absurd (opIndex_of_canon h) (by simp [opIndex]), by simp [commEq]⟩

/-! ## Simplification up to the order of operands -/

/-- What `And` simplifies to, as a structure. -/
def foldAnd (a b : BoolExpr) : BoolExpr :=
  if a = .var 0 ∨ b = .var 0 then .var 0
  else if a = .var 1 then b
  else if b = .var 1 then a
  else if commEq a b then a
  else if commEq a (.not b) ∨ commEq b (.not a) then .var 0
  else .and a b

/-- What `Or` simplifies to, as a structure. -/
def foldOr (a b : BoolExpr) : BoolExpr :=
  if a = .var 1 ∨ b = .var 1 then .var 1
  else if a = .var 0 then b
  else if b = .var 0 then a
  else if commEq a b then a
  else if commEq a (.not b) ∨ commEq b (.not a) then .var 1
  else .or a b

/-- What `Xor` simplifies to, as a structure. -/
def foldXor (a b : BoolExpr) : BoolExpr :=
  if a = .var 0 then b
  else if b = .var 0 then a
  else if a = .var 1 then Not b
  else if b = .var 1 then Not a
  else if commEq a b then .var 0
  else .xor a b

section Canonical
variable (hash : BoolExpr → UInt64)

@[simp] theorem canon_eq_var {e : BoolExpr} {i : Nat} :
    e.canon hash = .var i ↔ e = .var i := by
  cases e with
  | var j => simp [canon]
  | _ =>
    refine ⟨fun h => absurd (congrArg opIndex h) ?_, by simp⟩
    rw [opIndex_canon]
    simp [opIndex]

theorem canon_eq_not {e f : BoolExpr} :
    e.canon hash = .not (f.canon hash) ↔ commEq e (.not f) = true := by
  rw [← canon_eq_iff hash]
  rfl

theorem Not_of_opIndex {e : BoolExpr} (hop : e.opIndex ≠ 3) (h0 : e ≠ .var 0)
    (h1 : e ≠ .var 1) : Not e = .not e := by
  unfold Not
  split
  · exact absurd rfl h0
  · exact absurd rfl h1
  · exact absurd rfl hop
  · rfl

theorem canon_Not (e : BoolExpr) : (Not e).canon hash = Not (e.canon hash) := by
  by_cases h0 : e = .var 0
  · subst h0; rfl
  by_cases h1 : e = .var 1
  · subst h1; rfl
  by_cases hop : e.opIndex = 3
  · cases e <;> simp [opIndex] at hop
    rfl
  rw [Not_of_opIndex hop h0 h1, canon,
    Not_of_opIndex (by rwa [opIndex_canon]) (by simpa using h0) (by simpa using h1)]

/-- The factories of the code return the canonical form of the folded structure. -/
theorem And_canon (e f : BoolExpr) :
    And (e.canon structuralHash) (f.canon structuralHash) =
      (foldAnd e f).canon structuralHash := by
  simp only [And, foldAnd, canon_eq_var, canon_eq_iff, canon_eq_not, sorted_eq_sortedBy]
  split_ifs <;> rfl

theorem Or_canon (e f : BoolExpr) :
    Or (e.canon structuralHash) (f.canon structuralHash) =
      (foldOr e f).canon structuralHash := by
  simp only [Or, foldOr, canon_eq_var, canon_eq_iff, canon_eq_not, sorted_eq_sortedBy]
  split_ifs <;> rfl

theorem Xor_canon (e f : BoolExpr) :
    Xor (e.canon structuralHash) (f.canon structuralHash) =
      (foldXor e f).canon structuralHash := by
  simp only [Xor, foldXor, canon_eq_var, canon_eq_iff, sorted_eq_sortedBy, ← canon_Not]
  split_ifs <;> rfl

end Canonical

/-! ## Commutativity -/

theorem sorted_comm (op : BoolExpr → BoolExpr → BoolExpr) (e f : BoolExpr) :
    sorted op e f = sorted op f e := by
  rw [sorted_eq_sortedBy, sorted_eq_sortedBy, sortedBy_comm]

theorem And_comm (e f : BoolExpr) : And e f = And f e := by
  simp only [And, sorted_comm .and e f, eq_comm (a := e) (b := f), or_comm (a := e = .var 0),
    or_comm (a := e = .not f)]
  split_ifs <;> simp_all

theorem Or_comm (e f : BoolExpr) : Or e f = Or f e := by
  simp only [Or, sorted_comm .or e f, eq_comm (a := e) (b := f), or_comm (a := e = .var 1),
    or_comm (a := e = .not f)]
  split_ifs <;> simp_all

theorem Xor_comm (e f : BoolExpr) : Xor e f = Xor f e := by
  simp only [Xor, sorted_comm .xor e f, eq_comm (a := e) (b := f)]
  split_ifs <;> simp_all [Not]

theorem foldAnd_comm (e f : BoolExpr) : commEq (foldAnd e f) (foldAnd f e) = true := by
  rw [← canon_eq_iff structuralHash, ← And_canon, ← And_canon, And_comm]

theorem foldOr_comm (e f : BoolExpr) : commEq (foldOr e f) (foldOr f e) = true := by
  rw [← canon_eq_iff structuralHash, ← Or_canon, ← Or_canon, Or_comm]

theorem foldXor_comm (e f : BoolExpr) : commEq (foldXor e f) (foldXor f e) = true := by
  rw [← canon_eq_iff structuralHash, ← Xor_canon, ← Xor_canon, Xor_comm]

end BoolExpr
end KeplerFormal
