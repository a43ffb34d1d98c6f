import KeplerFormal.L1Formula.BoolExprCache

/-!
# Sequences of factory calls (`src/formal/BoolExpr.cpp`)

Calls of the factories in any order, each on results of earlier calls.

* `run`: the calls on an empty cache, with the pointer each returned.
* `structures`: what the calls fold to when commutative operands have no order.
* `run_canonical`: two results are one pointer exactly when their structures are
  equal up to the order of operands, and `operator<` is a strict total order on
  the interned nodes, for every hash and every allocator.
* `run_structuralHash`: with the hash of the code, the pointers represent what
  the factories on expression trees return.
-/
namespace KeplerFormal
namespace BoolExprCache
open BoolExpr (operandCompare canon commEq foldAnd foldOr foldXor)

/-! ## Sequences of calls -/

/-- A call of a factory; operands are positions of earlier results. -/
inductive Call where
  | Var (id : Nat)
  | createFalse
  | createTrue
  | Not (a : Nat)
  | And (a b : Nat)
  | Or (a b : Nat)
  | Xor (a b : Nat)
  deriving DecidableEq

def Call.operands : Call → List Nat
  | .Var _ | .createFalse | .createTrue => []
  | .Not a => [a]
  | .And a b | .Or a b | .Xor a b => [a, b]

/-- Every operand is the result of an earlier call. -/
def Ordered (calls : List Call) : Prop :=
  ∀ call ∈ calls.zipIdx, ∀ a ∈ call.1.operands, a < call.2

instance (calls : List Call) : Decidable (Ordered calls) :=
  inferInstanceAs (Decidable (∀ call ∈ calls.zipIdx, ∀ a ∈ call.1.operands, a < call.2))

section Run
variable (mix : NodeHash) (below : Ptr → Ptr → Bool)

def Call.apply (c : Cache) (results : List Ptr) : Call → Except String (Cache × Ptr)
  | .Var id => c.Var mix id
  | .createFalse => c.Var mix 0
  | .createTrue => c.Var mix 1
  | .Not a => c.Not mix (results.getD a 0)
  | .And a b => c.And mix below (results.getD a 0) (results.getD b 0)
  | .Or a b => c.Or mix below (results.getD a 0) (results.getD b 0)
  | .Xor a b => c.Xor mix below (results.getD a 0) (results.getD b 0)

def step (s : Cache × List Ptr) (call : Call) : Except String (Cache × List Ptr) := do
  let out ← call.apply mix below s.1 s.2
  .ok (out.1, s.2 ++ [out.2])

/-- The calls in order on an empty cache, and the pointer each returned. -/
def run (calls : List Call) : Except String (Cache × List Ptr) :=
  calls.foldlM (step mix below) ({}, [])

end Run

/-- The structure a call returns from the structures of its operands. -/
def Call.structure (earlier : List BoolExpr) : Call → BoolExpr
  | .Var id => .var id
  | .createFalse => .var 0
  | .createTrue => .var 1
  | .Not a => BoolExpr.Not (earlier.getD a (.var 0))
  | .And a b => foldAnd (earlier.getD a (.var 0)) (earlier.getD b (.var 0))
  | .Or a b => foldOr (earlier.getD a (.var 0)) (earlier.getD b (.var 0))
  | .Xor a b => foldXor (earlier.getD a (.var 0)) (earlier.getD b (.var 0))

/-- What each call folds to, whatever pointers were returned. -/
def structures (calls : List Call) : List BoolExpr :=
  calls.foldl (fun earlier call => earlier ++ [call.structure earlier]) []

variable {mix : NodeHash} {c c' : Cache} {p q : Ptr} {e f : BoolExpr}

/-! ## Runs -/

/-- What each call folds to after the structures `earlier`. -/
def structuresFrom (earlier : List BoolExpr) (calls : List Call) : List BoolExpr :=
  calls.foldl (fun earlier call => earlier ++ [call.structure earlier]) earlier

theorem structure_congr {call : Call} {ts ts' : List BoolExpr}
    (h : ∀ a ∈ call.operands, ts.getD a (.var 0) = ts'.getD a (.var 0)) :
    call.structure ts = call.structure ts' := by
  cases call with
  | Var id => rfl
  | createFalse => rfl
  | createTrue => rfl
  | Not a =>
    have ha := h a (by simp [Call.operands])
    simp only [Call.structure, ha]
  | And a b =>
    have ha := h a (by simp [Call.operands])
    have hb := h b (by simp [Call.operands])
    simp only [Call.structure, ha, hb]
  | Or a b =>
    have ha := h a (by simp [Call.operands])
    have hb := h b (by simp [Call.operands])
    simp only [Call.structure, ha, hb]
  | Xor a b =>
    have ha := h a (by simp [Call.operands])
    have hb := h b (by simp [Call.operands])
    simp only [Call.structure, ha, hb]

theorem getElem?_structuresFrom_lt {calls : List Call} {ts : List BoolExpr} {i : Nat}
    (hi : i < ts.length) : (structuresFrom ts calls)[i]? = ts[i]? := by
  induction calls generalizing ts with
  | nil => rfl
  | cons call calls ih =>
    rw [structuresFrom, List.foldl_cons, ← structuresFrom, ih (by simp; omega),
      List.getElem?_append_left hi]

theorem length_structuresFrom (ts : List BoolExpr) (calls : List Call) :
    (structuresFrom ts calls).length = ts.length + calls.length := by
  induction calls generalizing ts with
  | nil => rfl
  | cons call calls ih =>
    rw [structuresFrom, List.foldl_cons, ← structuresFrom, ih, List.length_append,
      List.length_singleton, List.length_cons]
    omega

/-- The operands of the call at `i` are among the first `n + i` results. -/
def OrderedFrom (n : Nat) (calls : List Call) : Prop :=
  ∀ (i : Nat) (call : Call), calls[i]? = some call → ∀ a ∈ call.operands, a < n + i

theorem Ordered.from_zero {calls : List Call} (h : Ordered calls) : OrderedFrom 0 calls := by
  intro i call hcall a ha
  have hmem : (call, i) ∈ calls.zipIdx := List.mem_zipIdx_iff_getElem?.mpr hcall
  simpa using h _ hmem a ha

theorem OrderedFrom.tail {n : Nat} {call : Call} {calls : List Call}
    (h : OrderedFrom n (call :: calls)) : OrderedFrom (n + 1) calls := by
  intro i call hcall a ha
  have := h (i + 1) call hcall a ha
  omega

theorem getElem?_structuresFrom {calls : List Call} {ts : List BoolExpr}
    (h : OrderedFrom ts.length calls) {i : Nat} {call : Call} (hcall : calls[i]? = some call) :
    (structuresFrom ts calls)[ts.length + i]? =
      some (call.structure (structuresFrom ts calls)) := by
  induction calls generalizing ts i with
  | nil => cases hcall
  | cons first calls ih =>
    rw [structuresFrom, List.foldl_cons, ← structuresFrom]
    set ts' := ts ++ [first.structure ts] with hts'
    have hlen : ts'.length = ts.length + 1 := by simp [hts']
    cases i with
    | zero =>
      obtain rfl : first = call := by simpa using hcall
      rw [Nat.add_zero, getElem?_structuresFrom_lt (by omega)]
      nth_rewrite 1 [hts']
      rw [List.getElem?_concat_length]
      congr 1
      apply structure_congr
      intro a ha
      have hlt : a < ts.length := h 0 first rfl a ha
      have hkept : (structuresFrom ts' calls)[a]? = ts[a]? := by
        rw [getElem?_structuresFrom_lt (by omega), hts', List.getElem?_append_left hlt]
      rw [List.getD_eq_getElem?_getD, List.getD_eq_getElem?_getD, hkept]
    | succ i =>
      have hlater := ih (hlen ▸ h.tail : OrderedFrom ts'.length calls) hcall
      rwa [hlen, Nat.add_assoc, Nat.add_comm 1 i] at hlater

section Run
variable (below : Ptr → Ptr → Bool)

/-- Results so far, each representing the canonical form of its structure. -/
def Matches (mix : NodeHash) (c : Cache) : List Ptr → List BoolExpr → Prop :=
  List.Forall₂ fun p t => Represents mix c p (t.canon (exprHash mix))

theorem Matches.getD {rs : List Ptr} {ts : List BoolExpr} (h : Matches mix c rs ts) {a : Nat}
    (ha : a < rs.length) :
    Represents mix c (rs.getD a 0) ((ts.getD a (.var 0)).canon (exprHash mix)) := by
  have hlen := h.length_eq
  have := h.get ha (hlen ▸ ha)
  simpa [List.getD_eq_getElem?_getD, ha, hlen ▸ ha] using this

theorem Matches.mono {rs : List Ptr} {ts : List BoolExpr} (h : Matches mix c rs ts)
    (hext : Extends c c') : Matches mix c' rs ts :=
  h.imp fun _ _ hp => hp.mono hext

theorem apply_returns (wf : WellFormed mix c) {rs : List Ptr} {ts : List BoolExpr}
    (h : Matches mix c rs ts) {call : Call} (hcall : ∀ a ∈ call.operands, a < rs.length) :
    Returns mix c (call.apply mix below c rs) ((call.structure ts).canon (exprHash mix)) := by
  cases call with
  | Var id => exact Var_returns wf id
  | createFalse => exact Var_returns wf 0
  | createTrue => exact Var_returns wf 1
  | Not a =>
    rw [Call.structure, BoolExpr.canon_Not]
    exact Not_returns wf (h.getD (hcall a (by simp [Call.operands])))
  | And a b =>
    exact And_returns below wf (h.getD (hcall a (by simp [Call.operands])))
      (h.getD (hcall b (by simp [Call.operands])))
  | Or a b =>
    exact Or_returns below wf (h.getD (hcall a (by simp [Call.operands])))
      (h.getD (hcall b (by simp [Call.operands])))
  | Xor a b =>
    exact Xor_returns below wf (h.getD (hcall a (by simp [Call.operands])))
      (h.getD (hcall b (by simp [Call.operands])))

/-- One call adds one result, and the older results represent what they did. -/
theorem step_matches (wf : WellFormed mix c) {rs : List Ptr} {ts : List BoolExpr}
    (h : Matches mix c rs ts) {call : Call} (hcall : ∀ a ∈ call.operands, a < rs.length) :
    ∃ c' r, step mix below (c, rs) call = .ok (c', rs ++ [r]) ∧ WellFormed mix c' ∧
      Matches mix c' (rs ++ [r]) (ts ++ [call.structure ts]) := by
  obtain ⟨c', r, hrun, hwf, hext, hr⟩ := apply_returns below wf h hcall
  refine ⟨c', r, ?_, hwf, List.rel_append (h.mono hext) (.cons hr .nil)⟩
  simp only [step, hrun]
  rfl

theorem run_matches (wf : WellFormed mix c) {rs : List Ptr} {ts : List BoolExpr}
    (h : Matches mix c rs ts) {calls : List Call} (hcalls : OrderedFrom rs.length calls) :
    ∃ c' results, calls.foldlM (step mix below) (c, rs) = .ok (c', results) ∧
      WellFormed mix c' ∧ Matches mix c' results (structuresFrom ts calls) := by
  induction calls generalizing c rs ts with
  | nil => exact ⟨c, rs, rfl, wf, h⟩
  | cons call calls ih =>
    obtain ⟨c', r, hstep, hwf, hmatch⟩ := step_matches below wf h (hcalls 0 call rfl)
    have hlen : (rs ++ [r]).length = rs.length + 1 := by simp
    obtain ⟨c'', results, hrun, hwf', hmatch'⟩ := ih hwf hmatch (hlen ▸ hcalls.tail)
    refine ⟨c'', results, ?_, hwf', hmatch'⟩
    rw [List.foldlM_cons, hstep]
    exact hrun

end Run

/-- `less` on the interned nodes. -/
structure StrictTotalOrder (c : Cache) : Prop where
  irrefl : ∀ p < c.nodes.length, c.less p p = false
  trans : ∀ p < c.nodes.length, ∀ q < c.nodes.length, ∀ r < c.nodes.length,
    c.less p q = true → c.less q r = true → c.less p r = true
  total : ∀ p < c.nodes.length, ∀ q < c.nodes.length,
    p ≠ q → (c.less p q = true ∧ c.less q p = false) ∨ (c.less q p = true ∧ c.less p q = false)

theorem WellFormed.strictTotalOrder (wf : WellFormed mix c) : StrictTotalOrder c where
  irrefl p hp := by
    obtain ⟨e, he⟩ := wf.represents p hp
    have hself : operandCompare (exprHash mix) e e = .eq := Std.ReflCmp.compare_self
    rw [Bool.eq_false_iff, Ne, less_iff he he, hself]
    decide
  trans p hp q hq r hr := by
    obtain ⟨e, he⟩ := wf.represents p hp
    obtain ⟨f, hf⟩ := wf.represents q hq
    obtain ⟨g, hg⟩ := wf.represents r hr
    rw [less_iff he hf, less_iff hf hg, less_iff he hg]
    exact Std.TransCmp.lt_trans
  total p hp q hq hne := by
    obtain ⟨e, he⟩ := wf.represents p hp
    obtain ⟨f, hf⟩ := wf.represents q hq
    have hswap : operandCompare (exprHash mix) f e = (operandCompare (exprHash mix) e f).swap :=
      Std.OrientedCmp.eq_swap
    simp only [Bool.eq_false_iff, Ne, less_iff he hf, less_iff hf he, hswap]
    cases h : operandCompare (exprHash mix) e f with
    | lt => simp
    | gt => simp
    | eq => exact absurd ((eq_iff wf he hf).mpr (BoolExpr.eq_of_operandCompare _ h)) hne

/-- The call with its two operands exchanged. -/
def Call.swap : Call → Call
  | .And a b => .And b a
  | .Or a b => .Or b a
  | .Xor a b => .Xor b a
  | call => call

theorem commEq_structure_swap (ts : List BoolExpr) (call : Call) :
    commEq (call.structure ts) (call.swap.structure ts) = true := by
  cases call with
  | And a b => exact BoolExpr.foldAnd_comm _ _
  | Or a b => exact BoolExpr.foldOr_comm _ _
  | Xor a b => exact BoolExpr.foldXor_comm _ _
  | _ => exact (BoolExpr.canon_eq_iff BoolExpr.structuralHash _ _).mp rfl

/-- The structures returned at two positions are equal up to the order of
commutative operands. -/
def SameStructure (calls : List Call) (i j : Nat) : Prop :=
  commEq ((structures calls).getD i (.var 0)) ((structures calls).getD j (.var 0)) = true

instance (calls : List Call) (i j : Nat) : Decidable (SameStructure calls i j) :=
  inferInstanceAs (Decidable (_ = true))

theorem sameStructure_swap {calls : List Call} (h : Ordered calls) {i j : Nat} {call : Call}
    (hi : calls[i]? = some call) (hj : calls[j]? = some call.swap) : SameStructure calls i j := by
  have hcalls : OrderedFrom ([] : List BoolExpr).length calls := h.from_zero
  have hsi := getElem?_structuresFrom hcalls hi
  have hsj := getElem?_structuresFrom hcalls hj
  rw [List.length_nil, Nat.zero_add] at hsi hsj
  unfold SameStructure structures
  rw [List.getD_eq_getElem?_getD, List.getD_eq_getElem?_getD, ← structuresFrom, hsi, hsj]
  exact commEq_structure_swap _ call

/-- For every hash, every allocator and every sequence of factory calls: two
results are one pointer exactly when the calls fold to one structure up to the
order of commutative operands, exchanged operands give the same pointer, and
`operator<` is a strict total order on the interned nodes. -/
theorem run_canonical (mix : NodeHash) (below : Ptr → Ptr → Bool) (calls : List Call)
    (h : Ordered calls) :
    ∃ c results, run mix below calls = .ok (c, results) ∧ results.length = calls.length ∧
      (∀ i < calls.length, ∀ j < calls.length,
        (results[i]? = results[j]? ↔ SameStructure calls i j)) ∧
      (∀ (i j : Nat) (call : Call), calls[i]? = some call → calls[j]? = some call.swap →
        results[i]? = results[j]?) ∧
      StrictTotalOrder c := by
  obtain ⟨c, results, hrun, hwf, hmatch⟩ :=
    run_matches below (wellFormed_empty mix) (.nil : Matches mix {} [] []) h.from_zero
  have hlen : results.length = calls.length := by
    rw [hmatch.length_eq, length_structuresFrom, List.length_nil, Nat.zero_add]
  have hsame : ∀ i < calls.length, ∀ j < calls.length,
      (results[i]? = results[j]? ↔ SameStructure calls i j) := by
    intro i hi j hj
    rw [← hlen] at hi hj
    have hread {i : Nat} (hi : i < results.length) : results[i]? = some (results.getD i 0) := by
      simp [List.getD_eq_getElem?_getD, hi]
    rw [hread hi, hread hj, Option.some.injEq, eq_iff hwf (hmatch.getD hi) (hmatch.getD hj),
      BoolExpr.canon_eq_iff]
    rfl
  refine ⟨c, results, hrun, hlen, hsame, ?_, hwf.strictTotalOrder⟩
  intro i j call hi hj
  exact (hsame i (List.getElem?_eq_some_iff.mp hi).1 j (List.getElem?_eq_some_iff.mp hj).1).mpr
    (sameStructure_swap h hi hj)

/-- A conjunction built in both orders. -/
def conjunctionCalls : List Call := [.Var 2, .Var 3, .And 0 1, .Not 2, .And 1 0, .Or 3 4]

/-- One hash for every node. -/
theorem run_canonical_collisions :
    ∃ c results, run (fun _ _ _ _ => 0) (fun p q => p < q) conjunctionCalls = .ok (c, results) ∧
      results[2]? = results[4]? ∧ StrictTotalOrder c := by
  obtain ⟨c, results, hrun, -, hsame, -, hless⟩ :=
    run_canonical (fun _ _ _ _ => 0) (fun p q => p < q) conjunctionCalls (by decide)
  exact ⟨c, results, hrun, (hsame 2 (by decide) 4 (by decide)).mpr (by decide), hless⟩

/-! ## The expression trees of the rest of the model -/

/-- What a call returns on expression trees, with the factories of `BoolExpr`. -/
def Call.tree (earlier : List BoolExpr) : Call → BoolExpr
  | .Var id => .var id
  | .createFalse => BoolExpr.createFalse
  | .createTrue => BoolExpr.createTrue
  | .Not a => BoolExpr.Not (earlier.getD a (.var 0))
  | .And a b => BoolExpr.And (earlier.getD a (.var 0)) (earlier.getD b (.var 0))
  | .Or a b => BoolExpr.Or (earlier.getD a (.var 0)) (earlier.getD b (.var 0))
  | .Xor a b => BoolExpr.Xor (earlier.getD a (.var 0)) (earlier.getD b (.var 0))

def trees (calls : List Call) : List BoolExpr :=
  calls.foldl (fun earlier call => earlier ++ [call.tree earlier]) []

theorem getD_map_canon (ts : List BoolExpr) (a : Nat) :
    (ts.map (canon BoolExpr.structuralHash)).getD a (.var 0) =
      (ts.getD a (.var 0)).canon BoolExpr.structuralHash := by
  simp only [List.getD_eq_getElem?_getD, List.getElem?_map]
  cases ts[a]? <;> rfl

theorem tree_map_canon (ts : List BoolExpr) (call : Call) :
    call.tree (ts.map (canon BoolExpr.structuralHash)) =
      (call.structure ts).canon BoolExpr.structuralHash := by
  cases call with
  | Var id => rfl
  | createFalse => rfl
  | createTrue => rfl
  | Not a => rw [Call.tree, Call.structure, getD_map_canon, BoolExpr.canon_Not]
  | And a b => rw [Call.tree, Call.structure, getD_map_canon, getD_map_canon, BoolExpr.And_canon]
  | Or a b => rw [Call.tree, Call.structure, getD_map_canon, getD_map_canon, BoolExpr.Or_canon]
  | Xor a b => rw [Call.tree, Call.structure, getD_map_canon, getD_map_canon, BoolExpr.Xor_canon]

theorem trees_eq (calls : List Call) :
    trees calls = (structures calls).map (canon BoolExpr.structuralHash) := by
  suffices h : ∀ ts, calls.foldl (fun earlier call => earlier ++ [call.tree earlier])
      (ts.map (canon BoolExpr.structuralHash)) =
      (structuresFrom ts calls).map (canon BoolExpr.structuralHash) from h []
  induction calls with
  | nil => exact fun _ => rfl
  | cons call calls ih =>
    intro ts
    rw [structuresFrom, List.foldl_cons, List.foldl_cons, ← structuresFrom, ← ih, tree_map_canon]
    simp

/-- With the hash of the code the pointers represent the trees the factories of
`BoolExpr` return, and pointers are equal exactly when the trees are. -/
theorem run_structuralHash (below : Ptr → Ptr → Bool) {calls : List Call} (h : Ordered calls) :
    ∃ c results, run nodeHash below calls = .ok (c, results) ∧
      List.Forall₂ (Represents nodeHash c) results (trees calls) ∧
      ∀ i < calls.length, ∀ j < calls.length,
        (results[i]? = results[j]? ↔ (trees calls)[i]? = (trees calls)[j]?) := by
  have hhash : exprHash nodeHash = BoolExpr.structuralHash := funext exprHash_nodeHash
  obtain ⟨c, results, hrun, hwf, hmatch⟩ :=
    run_matches below (wellFormed_empty nodeHash) (.nil : Matches nodeHash {} [] []) h.from_zero
  have hrep : List.Forall₂ (Represents nodeHash c) results (trees calls) := by
    rw [trees_eq, List.forall₂_map_right_iff]
    simpa [Matches, hhash, structures, structuresFrom] using hmatch
  refine ⟨c, results, hrun, hrep, fun i hi j hj => ?_⟩
  have hlen : results.length = calls.length := by
    rw [hmatch.length_eq, length_structuresFrom, List.length_nil, Nat.zero_add]
  have hlen' := hrep.length_eq
  have hi' : i < (trees calls).length := by omega
  have hj' : j < (trees calls).length := by omega
  rw [← hlen] at hi hj
  rw [List.getElem?_eq_getElem hi, List.getElem?_eq_getElem hj, List.getElem?_eq_getElem hi',
    List.getElem?_eq_getElem hj', Option.some.injEq, Option.some.injEq]
  exact eq_iff hwf (hrep.get hi hi') (hrep.get hj hj')

/-- The conjunction built in both orders is one pointer. -/
theorem run_structuralHash_conjunction :
    ∃ c results, run nodeHash (fun p q => p < q) conjunctionCalls = .ok (c, results) ∧
      results[2]? = results[4]? := by
  obtain ⟨c, results, hrun, -, hsame⟩ :=
    run_structuralHash (fun p q => p < q) (show Ordered conjunctionCalls by decide)
  exact ⟨c, results, hrun, (hsame 2 (by decide) 4 (by decide)).mpr (by decide +kernel)⟩

end BoolExprCache
end KeplerFormal
