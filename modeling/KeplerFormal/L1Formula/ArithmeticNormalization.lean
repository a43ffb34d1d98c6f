import KeplerFormal.Core.Fallible
import KeplerFormal.Core.Memo
import KeplerFormal.L1Formula.OperandOrder

/-!
# Arithmetic normalization (`src/formal/BoolExpr.cpp`)

`normalizeArithmetic` rebuilds an expression bottom-up and turns a disjunction
that spells out the sum or the carry of three atoms into `XOR` form.

* `rewriteArithmeticPattern`: the disjunction is split into terms, the terms into
  literals, and the terms' masks over three sorted atoms are matched as multisets.
* `normalizeArithmeticImpl`: the recursion with its memo table.
* `normalizeArithmeticImpl_computes`: the table changes no result.
* `eval_rewriteArithmeticPattern`, `eval_normalized`: the value is kept.
* `Normal`: every node is what its factory returns, and no disjunction is rewritten.
* `normal_normalized`, `normalized_of_normal`: results are normal, and a normal
  expression is left as it is.
* `normalizeCalls_normalizes`: the same for any sequence of calls on one table.
-/
namespace KeplerFormal
namespace BoolExpr
open Core (Memo)

/-! ## Patterns -/

/-- mirrors src/formal/BoolExpr.cpp:20-23 -/
structure ArithmeticLiteral where
  atom : BoolExpr
  positive : Bool := true
  deriving DecidableEq

/-- mirrors src/formal/BoolExpr.cpp:25-28; only the low three bits are ever set -/
structure ArithmeticTermMask where
  seenMask : Nat := 0
  positiveMask : Nat := 0
  deriving DecidableEq

/-- mirrors src/formal/BoolExpr.cpp:30-36 -/
def arithmeticTermMaskLess (lhs rhs : ArithmeticTermMask) : Bool :=
  if lhs.seenMask ≠ rhs.seenMask then decide (lhs.seenMask < rhs.seenMask)
  else decide (lhs.positiveMask < rhs.positiveMask)

/-- mirrors src/formal/BoolExpr.cpp:44-54 -/
def collectOrTerms : BoolExpr → List BoolExpr
  | .or a b => a.collectOrTerms ++ b.collectOrTerms
  | e => [e]

/-- mirrors src/formal/BoolExpr.cpp:56-79; it fails on null operands only, which
no node has -/
def appendAndLiterals : BoolExpr → List ArithmeticLiteral
  | .and a b => a.appendAndLiterals ++ b.appendAndLiterals
  | .not a => [⟨a, false⟩]
  | e => [⟨e, true⟩]

/-- One round of the loop in `buildArithmeticTermMask`: a foreign or repeated
atom gives up. -/
def addLiteral (atoms : List BoolExpr) (result : ArithmeticTermMask) (literal : ArithmeticLiteral) :
    Option ArithmeticTermMask :=
  let index := atoms.findIdx fun atom => atom = literal.atom
  let bit := 1 <<< index
  if index = atoms.length then none
  else if result.seenMask &&& bit ≠ 0 then none
  else some
    { seenMask := result.seenMask ||| bit
      positiveMask := if literal.positive then result.positiveMask ||| bit
        else result.positiveMask }

/-- mirrors src/formal/BoolExpr.cpp:81-110 -/
def buildArithmeticTermMask (atoms : List BoolExpr) (literals : List ArithmeticLiteral) :
    Option ArithmeticTermMask := do
  let result ← literals.foldlM (addLiteral atoms) {}
  if result.seenMask = 0 then none else some result

/-- mirrors src/formal/BoolExpr.cpp:112-123 -/
def termMasksMatch (masks expected : List ArithmeticTermMask) : Bool :=
  masks.insertionSort (fun a b => !arithmeticTermMaskLess b a) =
    expected.insertionSort (fun a b => !arithmeticTermMaskLess b a)

/-- The atoms of all terms, each once, in order of appearance. -/
def uniqueAtoms (termLiterals : List (List ArithmeticLiteral)) : List BoolExpr :=
  termLiterals.flatten.foldl
    (fun atoms literal => if literal.atom ∈ atoms then atoms else atoms ++ [literal.atom]) []

/-- The forms tried once the masks are known; `expr` when none matches.
mirrors src/formal/BoolExpr.cpp:175-194 -/
def rewriteMasks (expr : BoolExpr) (atoms : BoolExpr × BoolExpr × BoolExpr)
    (masks : List ArithmeticTermMask) : BoolExpr :=
  let propagate := Xor atoms.1 atoms.2.1
  if termMasksMatch masks [⟨7, 1⟩, ⟨7, 2⟩, ⟨7, 4⟩, ⟨7, 7⟩] then Xor propagate atoms.2.2
  -- full-adder carry, from full minterms or from the minimized `ab|ac|bc`
  else if termMasksMatch masks [⟨7, 3⟩, ⟨7, 5⟩, ⟨7, 6⟩, ⟨7, 7⟩] ∨
      termMasksMatch masks [⟨3, 3⟩, ⟨5, 5⟩, ⟨6, 6⟩] then
    Or (And atoms.1 atoms.2.1) (And atoms.2.2 propagate)
  else expr

/-- mirrors src/formal/BoolExpr.cpp:125-195 -/
def rewriteArithmeticPattern (expr : BoolExpr) : BoolExpr :=
  let terms := expr.collectOrTerms
  let termLiterals := terms.map appendAndLiterals
  if terms.length ≠ 3 ∧ terms.length ≠ 4 then expr
  else if ∃ literals ∈ termLiterals, literals = [] ∨ 3 < literals.length then expr
  else match (uniqueAtoms termLiterals).insertionSort fun a b => structuralCompare a b ≠ .gt with
    | [a, b, c] =>
      match termLiterals.mapM (buildArithmeticTermMask [a, b, c]) with
      | some masks => rewriteMasks expr (a, b, c) masks
      | none => expr
    | _ => expr

/-! ## The pass -/

/-- mirrors src/formal/BoolExpr.cpp:197-234 -/
def normalizeArithmeticImpl : BoolExpr → Memo BoolExpr BoolExpr → BoolExpr × Memo BoolExpr BoolExpr
  | .var id, memo => memo.remember (.var id) fun memo => (.var id, memo)
  | .not a, memo => memo.remember (.not a) fun memo =>
    let left := a.normalizeArithmeticImpl memo
    (Not left.1, left.2)
  | .and a b, memo => memo.remember (.and a b) fun memo =>
    let left := a.normalizeArithmeticImpl memo
    let right := b.normalizeArithmeticImpl left.2
    (And left.1 right.1, right.2)
  | .or a b, memo => memo.remember (.or a b) fun memo =>
    let left := a.normalizeArithmeticImpl memo
    let right := b.normalizeArithmeticImpl left.2
    (rewriteArithmeticPattern (Or left.1 right.1), right.2)
  | .xor a b, memo => memo.remember (.xor a b) fun memo =>
    let left := a.normalizeArithmeticImpl memo
    let right := b.normalizeArithmeticImpl left.2
    (Xor left.1 right.1, right.2)

/-- mirrors src/formal/BoolExpr.cpp:412-415 -/
def normalizeArithmetic (e : BoolExpr) : BoolExpr := (e.normalizeArithmeticImpl []).1

/-- Calls in order on one table: the results and the table. -/
def normalizeCalls : List BoolExpr → Memo BoolExpr BoolExpr → List BoolExpr × Memo BoolExpr BoolExpr
  | [], memo => ([], memo)
  | e :: es, memo =>
    let first := e.normalizeArithmeticImpl memo
    let rest := normalizeCalls es first.2
    (first.1 :: rest.1, rest.2)

/-- The recursion without a table. -/
def normalized : BoolExpr → BoolExpr
  | .var id => .var id
  | .not a => Not a.normalized
  | .and a b => And a.normalized b.normalized
  | .or a b => rewriteArithmeticPattern (Or a.normalized b.normalized)
  | .xor a b => Xor a.normalized b.normalized

theorem normalizeArithmeticImpl_computes (e : BoolExpr) {memo : Memo BoolExpr BoolExpr}
    (hmemo : memo.Valid normalized) :
    Memo.Computes normalized e (e.normalizeArithmeticImpl memo) := by
  induction e generalizing memo with
  | var id => exact hmemo.remember ⟨rfl, hmemo⟩
  | not a ih =>
    obtain ⟨ha, hmemo'⟩ := ih hmemo
    exact hmemo.remember ⟨congrArg Not ha, hmemo'⟩
  | and a b iha ihb =>
    obtain ⟨ha, hmemo'⟩ := iha hmemo
    obtain ⟨hb, hmemo''⟩ := ihb hmemo'
    exact hmemo.remember ⟨by simp only [ha, hb, normalized], hmemo''⟩
  | or a b iha ihb =>
    obtain ⟨ha, hmemo'⟩ := iha hmemo
    obtain ⟨hb, hmemo''⟩ := ihb hmemo'
    exact hmemo.remember ⟨by simp only [ha, hb, normalized], hmemo''⟩
  | xor a b iha ihb =>
    obtain ⟨ha, hmemo'⟩ := iha hmemo
    obtain ⟨hb, hmemo''⟩ := ihb hmemo'
    exact hmemo.remember ⟨by simp only [ha, hb, normalized], hmemo''⟩

theorem normalizeArithmetic_eq (e : BoolExpr) : e.normalizeArithmetic = e.normalized :=
  (normalizeArithmeticImpl_computes e (Memo.valid_nil normalized)).1

theorem normalizeCalls_computes (es : List BoolExpr) {memo : Memo BoolExpr BoolExpr}
    (hmemo : memo.Valid normalized) :
    (normalizeCalls es memo).1 = es.map normalized ∧
      (normalizeCalls es memo).2.Valid normalized := by
  induction es generalizing memo with
  | nil => exact ⟨rfl, hmemo⟩
  | cons e es ih =>
    obtain ⟨he, hmemo'⟩ := normalizeArithmeticImpl_computes e hmemo
    obtain ⟨hes, hmemo''⟩ := ih hmemo'
    refine ⟨?_, hmemo''⟩
    simp only [normalizeCalls, List.map_cons, he, hes]

/-! ## The value is kept -/

section Eval
variable (σ : Valuation)

def ArithmeticLiteral.value (literal : ArithmeticLiteral) : Bool :=
  literal.atom.eval σ == literal.positive

/-- A term with mask `m`, when the atoms have the values `v`. -/
def maskValue (v : Nat → Bool) (m : ArithmeticTermMask) : Bool :=
  (List.range 3).all fun i => !m.seenMask.testBit i || v i == m.positiveMask.testBit i

theorem eval_collectOrTerms (e : BoolExpr) :
    e.eval σ = e.collectOrTerms.any fun term => term.eval σ := by
  induction e with
  | or a b iha ihb => rw [collectOrTerms, List.any_append, ← iha, ← ihb, eval]
  | _ => simp [collectOrTerms]

theorem eval_appendAndLiterals (e : BoolExpr) :
    e.eval σ = e.appendAndLiterals.all fun literal => literal.value σ := by
  induction e with
  | and a b iha ihb => rw [appendAndLiterals, List.all_append, ← iha, ← ihb, eval]
  | not a => simp [appendAndLiterals, ArithmeticLiteral.value, eval]
  | _ => simp [appendAndLiterals, ArithmeticLiteral.value]

theorem maskValue_iff (v : Nat → Bool) (m : ArithmeticTermMask) :
    maskValue v m = true ↔
      ∀ i < 3, m.seenMask.testBit i = true → v i = m.positiveMask.testBit i := by
  simp only [maskValue, List.all_eq_true, List.mem_range, Bool.or_eq_true, Bool.not_eq_true',
    beq_iff_eq]
  refine forall₂_congr fun i _ => ?_
  cases m.seenMask.testBit i <;> simp

variable {atoms : List BoolExpr}

/-- Positive bits are seen bits. -/
def ArithmeticTermMask.WellFormed (m : ArithmeticTermMask) : Prop :=
  ∀ i, m.positiveMask.testBit i = true → m.seenMask.testBit i = true

theorem testBit_addBit (n k i : Nat) :
    (n ||| 1 <<< k).testBit i = (n.testBit i || decide (k = i)) := by
  rw [Nat.testBit_or, Nat.one_shiftLeft, Nat.testBit_two_pow]

theorem testBit_of_and_eq_zero {n k : Nat} (h : n &&& 1 <<< k = 0) : n.testBit k = false := by
  have hbit := congrArg (fun m : Nat => m.testBit k) h
  simpa [Nat.testBit_and, Nat.one_shiftLeft] using hbit

/-- What a recorded literal adds to the masks: its bit, in one or both of them. -/
theorem addLiteral_eq {m m' : ArithmeticTermMask} {literal : ArithmeticLiteral}
    (h : addLiteral atoms m literal = some m') :
    ∃ k < atoms.length, atoms[k]? = some literal.atom ∧ m.seenMask.testBit k = false ∧
      (∀ i, m'.seenMask.testBit i = (m.seenMask.testBit i || decide (k = i))) ∧
      ∀ i, m'.positiveMask.testBit i =
        (m.positiveMask.testBit i || (literal.positive && decide (k = i))) := by
  unfold addLiteral at h
  simp only at h
  split_ifs at h with hfar hseen hpositive
  all_goals
    cases h
    have hlt := lt_of_le_of_ne List.findIdx_le_length hfar
    have hfound := List.findIdx_getElem (w := hlt)
    refine ⟨_, hlt, (List.getElem?_eq_getElem hlt).trans (congrArg some (by simpa using hfound)),
      testBit_of_and_eq_zero (not_not.mp hseen), testBit_addBit _ _, fun i => ?_⟩
  · simp only [testBit_addBit, hpositive, Bool.true_and]
  · simp [hpositive]

theorem addLiteral_spec (hlen : atoms.length = 3) {m m' : ArithmeticTermMask}
    {literal : ArithmeticLiteral} (hm : m.WellFormed) (h : addLiteral atoms m literal = some m') :
    m'.WellFormed ∧
      maskValue (fun i => (atoms.getD i (.var 0)).eval σ) m' =
        (maskValue (fun i => (atoms.getD i (.var 0)).eval σ) m && literal.value σ) := by
  obtain ⟨k, hk, hatom, hseen, hseen', hpos'⟩ := addLiteral_eq h
  have hpos : m.positiveMask.testBit k = false := by
    by_contra hne
    have := hm k (by simpa using hne)
    simp_all
  have hvalue : literal.value σ = ((atoms.getD k (.var 0)).eval σ == literal.positive) := by
    rw [ArithmeticLiteral.value, List.getD_eq_getElem?_getD, hatom, Option.getD_some]
  constructor
  · intro i hi
    rw [hpos'] at hi
    rw [hseen']
    have := hm i
    grind
  · rw [Bool.eq_iff_iff, Bool.and_eq_true, maskValue_iff, maskValue_iff, hvalue, beq_iff_eq]
    simp only [hseen', hpos']
    constructor
    · intro hall
      refine ⟨fun i hi hs => ?_, ?_⟩
      · have hne : k ≠ i := by
          intro heq
          rw [heq] at hseen
          simp_all
        simpa [hs, hne] using hall i hi (by simp [hs])
      · simpa [hpos] using hall k (hlen ▸ hk) (by simp)
    · intro ⟨hall, hnew⟩ i hi hs
      by_cases heq : k = i
      · subst heq
        simpa [hpos] using hnew
      · simpa [heq] using hall i hi (by simpa [heq] using hs)

theorem foldlM_addLiteral (hlen : atoms.length = 3) {literals : List ArithmeticLiteral}
    {m m' : ArithmeticTermMask} (hm : m.WellFormed)
    (h : literals.foldlM (addLiteral atoms) m = some m') :
    maskValue (fun i => (atoms.getD i (.var 0)).eval σ) m' =
      (maskValue (fun i => (atoms.getD i (.var 0)).eval σ) m &&
        literals.all fun literal => literal.value σ) := by
  induction literals generalizing m with
  | nil =>
    cases h
    simp
  | cons literal literals ih =>
    rw [List.foldlM_cons, Option.bind_eq_bind, Option.bind_eq_some_iff] at h
    obtain ⟨m₁, hfirst, hrest⟩ := h
    obtain ⟨hm₁, hvalue⟩ := addLiteral_spec σ hlen hm hfirst
    rw [ih hm₁ hrest, hvalue, List.all_cons, Bool.and_assoc]

/-- A mask says what the literals of its term say. -/
theorem maskValue_buildArithmeticTermMask (hlen : atoms.length = 3)
    {literals : List ArithmeticLiteral} {m : ArithmeticTermMask}
    (h : buildArithmeticTermMask atoms literals = some m) :
    maskValue (fun i => (atoms.getD i (.var 0)).eval σ) m =
      literals.all fun literal => literal.value σ := by
  rw [buildArithmeticTermMask, Option.bind_eq_bind, Option.bind_eq_some_iff] at h
  obtain ⟨m', hfold, hm⟩ := h
  split_ifs at hm
  cases hm
  rw [foldlM_addLiteral σ hlen (fun i hi => by simp at hi) hfold]
  have hempty (v : Nat → Bool) : maskValue v {} = true := by
    rw [maskValue_iff]
    simp
  rw [hempty, Bool.true_and]

theorem perm_of_termMasksMatch {masks expected : List ArithmeticTermMask}
    (h : termMasksMatch masks expected = true) : masks.Perm expected := by
  have hsorted := of_decide_eq_true h
  exact ((List.perm_insertionSort _ masks).symm.trans (List.Perm.of_eq hsorted)).trans
    (List.perm_insertionSort _ expected)

theorem any_of_termMasksMatch {masks expected : List ArithmeticTermMask}
    (h : termMasksMatch masks expected = true) (v : Nat → Bool) :
    masks.any (maskValue v) = expected.any (maskValue v) :=
  (perm_of_termMasksMatch h).any_eq

/-- The full minterms with an odd number of positive literals. -/
theorem any_sumMasks (v : Nat → Bool) :
    ([⟨7, 1⟩, ⟨7, 2⟩, ⟨7, 4⟩, ⟨7, 7⟩] : List ArithmeticTermMask).any (maskValue v) =
      ((v 0 ^^ v 1) ^^ v 2) := by
  cases h0 : v 0 <;> cases h1 : v 1 <;> cases h2 : v 2 <;>
    simp [maskValue, List.range_succ, Nat.testBit, h0, h1, h2]

/-- The full minterms with at least two positive literals. -/
theorem any_carryMasks (v : Nat → Bool) :
    ([⟨7, 3⟩, ⟨7, 5⟩, ⟨7, 6⟩, ⟨7, 7⟩] : List ArithmeticTermMask).any (maskValue v) =
      ((v 0 && v 1) || (v 2 && (v 0 ^^ v 1))) := by
  cases h0 : v 0 <;> cases h1 : v 1 <;> cases h2 : v 2 <;>
    simp [maskValue, List.range_succ, Nat.testBit, h0, h1, h2]

theorem any_minimizedCarryMasks (v : Nat → Bool) :
    ([⟨3, 3⟩, ⟨5, 5⟩, ⟨6, 6⟩] : List ArithmeticTermMask).any (maskValue v) =
      ((v 0 && v 1) || (v 2 && (v 0 ^^ v 1))) := by
  cases h0 : v 0 <;> cases h1 : v 1 <;> cases h2 : v 2 <;>
    simp [maskValue, List.range_succ, Nat.testBit, h0, h1, h2]

/-- The masks the pass looks for are the truth tables of what it returns. -/
theorem eval_rewriteMasks {expr a b c : BoolExpr} {masks : List ArithmeticTermMask}
    (h : expr.eval σ = masks.any (maskValue fun i => (([a, b, c] : List BoolExpr).getD i
      (.var 0)).eval σ)) :
    (rewriteMasks expr (a, b, c) masks).eval σ = expr.eval σ := by
  unfold rewriteMasks
  simp only
  split_ifs with hsum hcarry
  · rw [h, any_of_termMasksMatch hsum, any_sumMasks]
    simp
  · have hmasks : masks.any (maskValue fun i => (([a, b, c] : List BoolExpr).getD i
        (.var 0)).eval σ) = ((a.eval σ && b.eval σ) || (c.eval σ && (a.eval σ ^^ b.eval σ))) := by
      obtain hfull | hminimized := hcarry
      · rw [any_of_termMasksMatch hfull, any_carryMasks]
        simp
      · rw [any_of_termMasksMatch hminimized, any_minimizedCarryMasks]
        simp
    rw [h, hmasks]
    simp
  · rfl

/-- The branches of the pass: unchanged, or all terms have masks over the three
sorted atoms. -/
theorem rewriteArithmeticPattern_cases (expr : BoolExpr) :
    rewriteArithmeticPattern expr = expr ∨
      ∃ a b c masks, (expr.collectOrTerms.length = 3 ∨ expr.collectOrTerms.length = 4) ∧
        [a, b, c].Perm (uniqueAtoms (expr.collectOrTerms.map appendAndLiterals)) ∧
        (expr.collectOrTerms.map appendAndLiterals).mapM
          (buildArithmeticTermMask [a, b, c]) = some masks ∧
        rewriteArithmeticPattern expr = rewriteMasks expr (a, b, c) masks := by
  unfold rewriteArithmeticPattern
  simp only
  split_ifs with hcount hlong
  · exact .inl rfl
  · exact .inl rfl
  split
  · rename_i a b c hatoms
    split
    · rename_i masks hmasks
      refine .inr ⟨a, b, c, masks, by omega, ?_, hmasks, rfl⟩
      rw [← hatoms]
      exact List.perm_insertionSort _ _
    · exact .inl rfl
  · exact .inl rfl

@[simp] theorem eval_rewriteArithmeticPattern (expr : BoolExpr) :
    (rewriteArithmeticPattern expr).eval σ = expr.eval σ := by
  obtain h | ⟨a, b, c, masks, -, -, hmasks, h⟩ := rewriteArithmeticPattern_cases expr
  · rw [h]
  rw [h]
  apply eval_rewriteMasks
  have hterms := Core.mapM_some_holds hmasks (P := fun m => maskValue (fun i =>
    (([a, b, c] : List BoolExpr).getD i (.var 0)).eval σ) m = false)
    (Q := fun literals => (literals.all fun literal => literal.value σ) = false)
    fun literals _ m hm => by rw [maskValue_buildArithmeticTermMask σ rfl hm]
  rw [eval_collectOrTerms, Bool.eq_iff_iff, ← not_iff_not, Bool.not_eq_true, Bool.not_eq_true,
    List.any_eq_false, List.any_eq_false]
  simp only [Bool.not_eq_true]
  rw [hterms, List.forall_mem_map]
  simp only [eval_appendAndLiterals]

theorem eval_normalized (e : BoolExpr) : e.normalized.eval σ = e.eval σ := by
  induction e with
  | var id => rfl
  | not a ih => simp [normalized, eval, ih]
  | and a b iha ihb => simp [normalized, eval, iha, ihb]
  | or a b iha ihb => simp [normalized, eval, iha, ihb]
  | xor a b iha ihb => simp [normalized, eval, iha, ihb]

end Eval

/-! ## Normal expressions -/

/-- Every node is what its factory returns for its operands, and no disjunction
is rewritten. -/
inductive Normal : BoolExpr → Prop
  | var (id : Nat) : Normal (.var id)
  | not {a : BoolExpr} (ha : Normal a) (hnode : Not a = .not a) : Normal (.not a)
  | and {a b : BoolExpr} (ha : Normal a) (hb : Normal b) (hnode : And a b = .and a b) :
      Normal (.and a b)
  | or {a b : BoolExpr} (ha : Normal a) (hb : Normal b) (hnode : Or a b = .or a b)
      (hkept : rewriteArithmeticPattern (.or a b) = .or a b) : Normal (.or a b)
  | xor {a b : BoolExpr} (ha : Normal a) (hb : Normal b) (hnode : Xor a b = .xor a b) :
      Normal (.xor a b)

theorem normalized_of_normal {e : BoolExpr} (h : Normal e) : e.normalized = e := by
  induction h with
  | var id => rfl
  | not _ hnode ih => rw [normalized, ih, hnode]
  | and _ _ hnode iha ihb => rw [normalized, iha, ihb, hnode]
  | or _ _ hnode hkept iha ihb => rw [normalized, iha, ihb, hnode, hkept]
  | xor _ _ hnode iha ihb => rw [normalized, iha, ihb, hnode]

theorem Normal.of_not {a : BoolExpr} (h : Normal (.not a)) : Normal a := by
  cases h with
  | not ha _ => exact ha

theorem Normal.Not {a : BoolExpr} (ha : Normal a) : Normal (Not a) := by
  unfold BoolExpr.Not
  split
  · exact .var 1
  · exact .var 0
  · exact ha.of_not
  · rename_i h0 h1 hnot
    refine .not ha ?_
    unfold BoolExpr.Not
    split
    · exact absurd rfl h0
    · exact absurd rfl h1
    · exact absurd rfl (hnot _)
    · rfl

/-- The last branch of a factory: a node with the operands in order. -/
theorem sorted_eq_cases (op : BoolExpr → BoolExpr → BoolExpr) (a b : BoolExpr) :
    sorted op a b = op a b ∨ sorted op a b = op b a := by
  rw [sorted_eq_sortedBy]
  exact sortedBy_cases _ op a b

theorem And_cases (a b : BoolExpr) :
    And a b = .var 0 ∨ And a b = a ∨ And a b = b ∨ And a b = .and a b ∨ And a b = .and b a := by
  have hsorted := sorted_eq_cases .and a b
  unfold And
  split_ifs <;> simp_all

theorem Or_cases (a b : BoolExpr) :
    Or a b = .var 1 ∨ Or a b = a ∨ Or a b = b ∨ Or a b = .or a b ∨ Or a b = .or b a := by
  have hsorted := sorted_eq_cases .or a b
  unfold Or
  split_ifs <;> simp_all

theorem Xor_cases (a b : BoolExpr) :
    Xor a b = .var 0 ∨ Xor a b = a ∨ Xor a b = b ∨ Xor a b = Not a ∨ Xor a b = Not b ∨
      Xor a b = .xor a b ∨ Xor a b = .xor b a := by
  have hsorted := sorted_eq_cases .xor a b
  unfold Xor
  split_ifs <;> simp_all

theorem Normal.And {a b : BoolExpr} (ha : Normal a) (hb : Normal b) : Normal (And a b) := by
  obtain h | h | h | h | h := And_cases a b
  · rw [h]
    exact .var 0
  · rw [h]
    exact ha
  · rw [h]
    exact hb
  · rw [h]
    exact .and ha hb h
  · rw [h]
    exact .and hb ha (And_comm b a ▸ h)

theorem Normal.Xor {a b : BoolExpr} (ha : Normal a) (hb : Normal b) : Normal (Xor a b) := by
  obtain h | h | h | h | h | h | h := Xor_cases a b
  · rw [h]
    exact .var 0
  · rw [h]
    exact ha
  · rw [h]
    exact hb
  · rw [h]
    exact ha.Not
  · rw [h]
    exact hb.Not
  · rw [h]
    exact .xor ha hb h
  · rw [h]
    exact .xor hb ha (Xor_comm b a ▸ h)

/-- A disjunction of normal operands is normal where the pass keeps it. -/
theorem Normal.Or {a b : BoolExpr} (ha : Normal a) (hb : Normal b)
    (hkept : rewriteArithmeticPattern (Or a b) = Or a b) : Normal (Or a b) := by
  obtain h | h | h | h | h := Or_cases a b
  · rw [h]
    exact .var 1
  · rw [h]
    exact ha
  · rw [h]
    exact hb
  · rw [h] at hkept ⊢
    exact .or ha hb h hkept
  · rw [h] at hkept ⊢
    exact .or hb ha (Or_comm b a ▸ h) hkept

/-! ## Terms of a normal disjunction -/

/-- An operand of a normal `AND` or `OR`: normal and no constant. -/
structure Operand (e : BoolExpr) : Prop where
  normal : Normal e
  ne_false : e ≠ .var 0
  ne_true : e ≠ .var 1

theorem operands_of_And {a b : BoolExpr} (ha : Normal a) (hb : Normal b)
    (hnode : And a b = .and a b) : Operand a ∧ Operand b := by
  unfold BoolExpr.And at hnode
  split_ifs at hnode with h0 ha1 hb1
  · cases hnode
  · cases hnode
  · cases hnode
  · rw [not_or] at h0
    exact ⟨⟨ha, h0.1, ha1⟩, ⟨hb, h0.2, hb1⟩⟩

theorem operands_of_Or {a b : BoolExpr} (ha : Normal a) (hb : Normal b)
    (hnode : Or a b = .or a b) : Operand a ∧ Operand b := by
  unfold BoolExpr.Or at hnode
  split_ifs at hnode with h1 ha0 hb0
  · cases hnode
  · cases hnode
  · cases hnode
  · rw [not_or] at h1
    exact ⟨⟨ha, ha0, h1.1⟩, ⟨hb, hb0, h1.2⟩⟩

/-- An atom of a normal disjunction: no constant and no negation. -/
structure Atom (e : BoolExpr) : Prop extends Operand e where
  ne_not : ∀ a, e ≠ .not a

theorem atom_of_not {a : BoolExpr} (h : Normal (.not a)) : Atom a := by
  cases h with
  | not ha hnode =>
    refine ⟨⟨ha, ?_, ?_⟩, fun x hx => ?_⟩
    · intro h0
      subst h0
      cases hnode
    · intro h1
      subst h1
      cases hnode
    · subst hx
      cases hnode

theorem operand_of_mem_collectOrTerms {e term : BoolExpr} (he : Operand e)
    (h : term ∈ e.collectOrTerms) : Operand term := by
  induction e with
  | or a b iha ihb =>
    obtain ⟨ha, hb⟩ : Operand a ∧ Operand b := by
      cases he.normal with
      | or ha hb hnode _ => exact operands_of_Or ha hb hnode
    obtain hterm | hterm := List.mem_append.mp h
    · exact iha ha hterm
    · exact ihb hb hterm
  | _ =>
    obtain rfl := List.mem_singleton.mp h
    exact he

theorem atom_of_mem_appendAndLiterals {e : BoolExpr} {literal : ArithmeticLiteral}
    (he : Operand e) (h : literal ∈ e.appendAndLiterals) : Atom literal.atom := by
  induction e with
  | and a b iha ihb =>
    obtain ⟨ha, hb⟩ : Operand a ∧ Operand b := by
      cases he.normal with
      | and ha hb hnode => exact operands_of_And ha hb hnode
    obtain hliteral | hliteral := List.mem_append.mp h
    · exact iha ha hliteral
    · exact ihb hb hliteral
  | not a =>
    obtain rfl := List.mem_singleton.mp h
    exact atom_of_not he.normal
  | _ =>
    obtain rfl := List.mem_singleton.mp h
    exact ⟨he, nofun⟩

theorem foldl_uniqueAtoms (literals : List ArithmeticLiteral) {atoms : List BoolExpr}
    (hnodup : atoms.Nodup) (hatoms : ∀ a ∈ atoms, Atom a)
    (hliterals : ∀ literal ∈ literals, Atom literal.atom) :
    (literals.foldl (fun atoms literal =>
      if literal.atom ∈ atoms then atoms else atoms ++ [literal.atom]) atoms).Nodup ∧
    ∀ a ∈ literals.foldl (fun atoms literal =>
      if literal.atom ∈ atoms then atoms else atoms ++ [literal.atom]) atoms, Atom a := by
  induction literals generalizing atoms with
  | nil => exact ⟨hnodup, hatoms⟩
  | cons literal literals ih =>
    obtain ⟨hfirst, hrest⟩ := List.forall_mem_cons.mp hliterals
    rw [List.foldl_cons]
    split_ifs with hmem
    · exact ih hnodup hatoms hrest
    · have hnew := List.concat_eq_append ▸ hnodup.concat hmem
      refine ih hnew (fun a ha => ?_) hrest
      obtain ha | ha := List.mem_append.mp ha
      · exact hatoms a ha
      · exact List.mem_singleton.mp ha ▸ hfirst

/-- The atoms of a disjunction of operands are distinct and are atoms. -/
theorem uniqueAtoms_spec {a b : BoolExpr} (ha : Operand a) (hb : Operand b) :
    (uniqueAtoms ((BoolExpr.or a b).collectOrTerms.map appendAndLiterals)).Nodup ∧
      ∀ e ∈ uniqueAtoms ((BoolExpr.or a b).collectOrTerms.map appendAndLiterals), Atom e := by
  apply foldl_uniqueAtoms
  · exact List.nodup_nil
  · exact fun a ha => absurd ha List.not_mem_nil
  · intro literal hliteral
    obtain ⟨literals, hliterals, hmem⟩ := List.mem_flatten.mp hliteral
    obtain ⟨term, hterm, rfl⟩ := List.mem_map.mp hliterals
    obtain hterm | hterm := List.mem_append.mp hterm
    · exact atom_of_mem_appendAndLiterals (operand_of_mem_collectOrTerms ha hterm) hmem
    · exact atom_of_mem_appendAndLiterals (operand_of_mem_collectOrTerms hb hterm) hmem

/-! ## Results are normal -/

theorem collectOrTerms_of_ne {e : BoolExpr} (h : ∀ a b, e ≠ .or a b) :
    e.collectOrTerms = [e] := by
  cases e with
  | or a b => exact absurd rfl (h a b)
  | _ => rfl

theorem rewriteArithmeticPattern_of_few {e : BoolExpr} (h : e.collectOrTerms.length < 3) :
    rewriteArithmeticPattern e = e := by
  obtain hkept | ⟨_, _, _, _, hcount, -⟩ := rewriteArithmeticPattern_cases e
  · exact hkept
  · omega

theorem rewriteArithmeticPattern_of_normal {e : BoolExpr} (h : Normal e) :
    rewriteArithmeticPattern e = e := by
  cases h with
  | or _ _ _ hkept => exact hkept
  | _ => exact rewriteArithmeticPattern_of_few (by simp [collectOrTerms])

/-- A disjunction of two other terms is too small for a pattern. -/
theorem rewriteArithmeticPattern_Or {a b : BoolExpr} (ha : ∀ x y, a ≠ .or x y)
    (hb : ∀ x y, b ≠ .or x y) : rewriteArithmeticPattern (Or a b) = Or a b := by
  apply rewriteArithmeticPattern_of_few
  obtain h | h | h | h | h := Or_cases a b <;> rw [h]
  · simp [collectOrTerms]
  · simp [collectOrTerms_of_ne ha]
  · simp [collectOrTerms_of_ne hb]
  · simp [collectOrTerms, collectOrTerms_of_ne ha, collectOrTerms_of_ne hb]
  · simp [collectOrTerms, collectOrTerms_of_ne ha, collectOrTerms_of_ne hb]

theorem And_of_atoms {a b : BoolExpr} (ha : Atom a) (hb : Atom b) (hne : a ≠ b) :
    And a b = .and a b ∨ And a b = .and b a := by
  have hand : And a b = sorted .and a b := by
    simp [And, ha.ne_false, ha.ne_true, hb.ne_false, hb.ne_true, hne, ha.ne_not, hb.ne_not]
  rw [hand]
  exact sorted_eq_cases .and a b

theorem Xor_of_atoms {a b : BoolExpr} (ha : Atom a) (hb : Atom b) (hne : a ≠ b) :
    Xor a b = .xor a b ∨ Xor a b = .xor b a := by
  have hxor : Xor a b = sorted .xor a b := by
    simp [Xor, ha.ne_false, ha.ne_true, hb.ne_false, hb.ne_true, hne]
  rw [hxor]
  exact sorted_eq_cases .xor a b

/-- The carry the pass builds is a disjunction of two terms. -/
theorem And_xor_ne_or {a b c : BoolExpr} (hc : Atom c) (x y : BoolExpr) :
    And c (.xor a b) ≠ .or x y := by
  have hand : And c (.xor a b) = if c = .xor a b then c else sorted .and c (.xor a b) := by
    simp [And, hc.ne_false, hc.ne_true, hc.ne_not]
  rw [hand]
  split_ifs with heq
  · simp [heq]
  · obtain h | h := sorted_eq_cases .and c (.xor a b) <;> simp [h]

theorem normal_rewriteMasks {a b c : BoolExpr} (hatoms : ∀ e ∈ [a, b, c], Atom e) (hne : a ≠ b)
    (expr : BoolExpr) (masks : List ArithmeticTermMask) :
    rewriteMasks expr (a, b, c) masks = expr ∨ Normal (rewriteMasks expr (a, b, c) masks) := by
  have ha := hatoms a (by simp)
  have hb := hatoms b (by simp)
  have hc := hatoms c (by simp)
  unfold rewriteMasks
  simp only
  split_ifs
  · exact .inr ((ha.normal.Xor hb.normal).Xor hc.normal)
  · right
    apply (ha.normal.And hb.normal).Or (hc.normal.And (ha.normal.Xor hb.normal))
    apply rewriteArithmeticPattern_Or
    · intro x y
      obtain h | h := And_of_atoms ha hb hne <;> simp [h]
    · intro x y
      obtain h | h := Xor_of_atoms ha hb hne
      · rw [h]
        exact And_xor_ne_or hc x y
      · rw [h]
        exact And_xor_ne_or hc x y
  · exact .inl rfl

/-- A new disjunction of normal operands, before the pass looks at it. -/
theorem normal_rewrite_node {a b : BoolExpr} (ha : Normal a) (hb : Normal b)
    (hnode : Or a b = .or a b) : Normal (rewriteArithmeticPattern (.or a b)) := by
  have hkeep (h : rewriteArithmeticPattern (.or a b) = .or a b) :
      Normal (rewriteArithmeticPattern (.or a b)) := by
    rw [h]
    exact .or ha hb hnode h
  obtain h | ⟨p, q, r, masks, -, hperm, -, h⟩ := rewriteArithmeticPattern_cases (.or a b)
  · exact hkeep h
  obtain ⟨hopa, hopb⟩ := operands_of_Or ha hb hnode
  obtain ⟨hnodup, hatoms⟩ := uniqueAtoms_spec hopa hopb
  have hpq : p ≠ q := by
    have := hperm.nodup_iff.mpr hnodup
    simp_all
  obtain hsame | hnormal := normal_rewriteMasks (fun e he => hatoms e (hperm.mem_iff.mp he)) hpq
    (.or a b) masks
  · exact hkeep (h.trans hsame)
  · exact h ▸ hnormal

theorem normal_rewrite_Or {a b : BoolExpr} (ha : Normal a) (hb : Normal b) :
    Normal (rewriteArithmeticPattern (Or a b)) := by
  obtain h | h | h | h | h := Or_cases a b
  · rw [h, rewriteArithmeticPattern_of_normal (.var 1)]
    exact .var 1
  · rw [h, rewriteArithmeticPattern_of_normal ha]
    exact ha
  · rw [h, rewriteArithmeticPattern_of_normal hb]
    exact hb
  · rw [h]
    exact normal_rewrite_node ha hb h
  · rw [h]
    exact normal_rewrite_node hb ha (Or_comm b a ▸ h)

theorem normal_normalized (e : BoolExpr) : Normal e.normalized := by
  induction e with
  | var id => exact .var id
  | not a ih => exact ih.Not
  | and a b iha ihb => exact iha.And ihb
  | or a b iha ihb => exact normal_rewrite_Or iha ihb
  | xor a b iha ihb => exact iha.Xor ihb

/-- For every sequence of calls on one table, each call returns what it returns
on a new table; that result has the value of the argument and is itself the
result when the pass is applied to it again, on a new table or on the shared one. -/
theorem normalizeCalls_normalizes (es : List BoolExpr) :
    (normalizeCalls es []).1 = es.map normalizeArithmetic ∧
    ∀ e : BoolExpr,
      (∀ σ, e.normalizeArithmetic.eval σ = e.eval σ) ∧
      e.normalizeArithmetic.normalizeArithmetic = e.normalizeArithmetic ∧
      (e.normalizeArithmetic.normalizeArithmeticImpl (normalizeCalls es []).2).1 =
        e.normalizeArithmetic := by
  obtain ⟨hresults, hmemo⟩ := normalizeCalls_computes es (Memo.valid_nil normalized)
  have heq : normalizeArithmetic = normalized := funext normalizeArithmetic_eq
  rw [heq]
  refine ⟨hresults, fun e => ?_⟩
  have hfix := normalized_of_normal (normal_normalized e)
  refine ⟨fun σ => eval_normalized σ e, hfix, ?_⟩
  rw [(normalizeArithmeticImpl_computes _ hmemo).1, hfix]

/-- A minimized carry with the atoms out of order becomes two terms. -/
example : (normalizeArithmetic (.or (.or (.and (.var 4) (.var 2)) (.and (.var 3) (.var 4)))
    (.and (.var 2) (.var 3)))).collectOrTerms.length = 2 := by decide +kernel

end BoolExpr
end KeplerFormal
