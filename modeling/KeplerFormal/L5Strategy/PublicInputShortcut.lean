import KeplerFormal.L1Formula.ExprTraversal
import KeplerFormal.L2Problem.DualRailProblem

/-!
# Outputs that are equal over the public inputs

`src/sec/strategy/SequentialEquivalenceStrategy.cpp` skips the check of an output pair
whose two expressions are the same function of the aligned inputs. It walks both expressions
at once with a stack and a memo of pairs, and matches the operands of commutative nodes in
both orders. A null pointer is `none`.

* `outputsMatch`: the answer for a pair, from the answers for its operands.
* `walk_unvisited`: a frame leaves the stack with its answer in the memo.
* `outputsMatch_eval`, `outputsMatch_support`: what a positive answer says.
* `publicInputs_sound`: the walk ends, and a positive answer is right.
-/
namespace KeplerFormal

open Core

/-- mirrors src/sec/strategy/SequentialEquivalenceStrategy.cpp:62 -/
abbrev PublicInputAbstractMap := List (Nat × Nat)

/-- `emplace`: an entry that is there is kept. -/
def PublicInputAbstractMap.emplace (map : PublicInputAbstractMap) (var symbol : Nat) :
    PublicInputAbstractMap :=
  if (map.lookup var).isSome then map else map ++ [(var, symbol)]

section Maps
variable {κ : Type} [DecidableEq κ]

/-- The loop over the aligned inputs, from the next abstract symbol on.
mirrors src/sec/strategy/SequentialEquivalenceStrategy.cpp:122-127 -/
def addPublicInputs (model0 model1 : SequentialDesignModel κ) :
    AlignedSignals κ → Nat → PublicInputAbstractMap × PublicInputAbstractMap →
      Except String (PublicInputAbstractMap × PublicInputAbstractMap)
  | [], _, maps => .ok maps
  | (key0, key1) :: inputs, symbol, maps => do
    let var0 ← lookupAt model0.inputVarByKey key0
    let var1 ← lookupAt model1.inputVarByKey key1
    addPublicInputs model0 model1 inputs (symbol + 1)
      (maps.1.emplace var0 symbol, maps.2.emplace var1 symbol)

/-- mirrors src/sec/strategy/SequentialEquivalenceStrategy.cpp:110-129 -/
def buildPublicInputAbstractMaps (model0 model1 : SequentialDesignModel κ)
    (alignedInputs : AlignedSignals κ) :
    Except String (PublicInputAbstractMap × PublicInputAbstractMap) :=
  addPublicInputs model0 model1 alignedInputs 2 ([], [])

end Maps

/-- mirrors src/sec/strategy/SequentialEquivalenceStrategy.cpp:131-142 -/
def publicInputVarsMatch (var0 var1 : Nat) (map0 map1 : PublicInputAbstractMap) : Bool :=
  if var0 < 2 ∨ var1 < 2 then var0 = var1
  else
    match map0.lookup var0, map1.lookup var1 with
    | some symbol0, some symbol1 => symbol0 = symbol1
    | _, _ => false

namespace BoolExpr

def getLeft : BoolExpr → Option BoolExpr
  | .var _ => none
  | .not a => some a
  | .and a _ => some a
  | .or a _ => some a
  | .xor a _ => some a

def getRight : BoolExpr → Option BoolExpr
  | .var _ => none
  | .not _ => none
  | .and _ b => some b
  | .or _ b => some b
  | .xor _ b => some b

def varId : BoolExpr → Option Nat
  | .var id => some id
  | _ => none

/-- mirrors src/sec/strategy/SequentialEquivalenceStrategy.cpp:99-101 -/
def isCommutativeOutputCompareOp : BoolExpr → Bool
  | .and _ _ => true
  | .or _ _ => true
  | .xor _ _ => true
  | _ => false

end BoolExpr

namespace PublicInputWalk

abbrev Pair := Option BoolExpr × Option BoolExpr

abbrev Memo := List (Pair × Bool)

structure StackFrame where
  lhs : Option BoolExpr
  rhs : Option BoolExpr
  visited : Bool

structure State where
  stack : List StackFrame
  memo : Memo

/-- A frame that is pushed unless its pair has an answer. -/
def pushMissing (memo : Memo) (lhs rhs : Option BoolExpr) (stack : List StackFrame) :
    List StackFrame :=
  if (memo.lookup (lhs, rhs)).isSome then stack else ⟨lhs, rhs, false⟩ :: stack

/-- `memo.at` -/
def answerAt (memo : Memo) (lhs rhs : Option BoolExpr) : Except String Bool :=
  match memo.lookup (lhs, rhs) with
  | some answer => .ok answer
  | none => .error "unordered_map::at"

/-- A frame whose operands have their answers.
mirrors src/sec/strategy/SequentialEquivalenceStrategy.cpp:204-236 -/
def combine (lhs rhs : BoolExpr) (stack : List StackFrame) (memo : Memo) : Except String State := do
  let leftEquivalent ← answerAt memo lhs.getLeft rhs.getLeft
  let rightEquivalent ← answerAt memo lhs.getRight rhs.getRight
  if leftEquivalent && rightEquivalent then
    .ok ⟨stack, ((some lhs, some rhs), true) :: memo⟩
  else if lhs.isCommutativeOutputCompareOp then
    if (memo.lookup (lhs.getRight, rhs.getLeft)).isSome &&
        (memo.lookup (lhs.getLeft, rhs.getRight)).isSome then do
      let crossLeft ← answerAt memo lhs.getLeft rhs.getRight
      let crossRight ← answerAt memo lhs.getRight rhs.getLeft
      .ok ⟨stack, ((some lhs, some rhs), crossLeft && crossRight) :: memo⟩
    else
      .ok ⟨pushMissing memo lhs.getLeft rhs.getRight
        (pushMissing memo lhs.getRight rhs.getLeft (⟨some lhs, some rhs, true⟩ :: stack)), memo⟩
  else .ok ⟨stack, ((some lhs, some rhs), false) :: memo⟩

/-- One iteration for a frame of two expressions.
mirrors src/sec/strategy/SequentialEquivalenceStrategy.cpp:169-203 -/
def visit (map0 map1 : PublicInputAbstractMap) (lhs rhs : BoolExpr) (visited : Bool)
    (stack : List StackFrame) (memo : Memo) : Except String State :=
  match lhs.varId, rhs.varId with
  | some var0, some var1 =>
    .ok ⟨stack, ((some lhs, some rhs), publicInputVarsMatch var0 var1 map0 map1) :: memo⟩
  | _, _ =>
    if lhs.opIndex ≠ rhs.opIndex then .ok ⟨stack, ((some lhs, some rhs), false) :: memo⟩
    else if !visited then
      .ok ⟨pushMissing memo lhs.getLeft rhs.getLeft (pushMissing memo lhs.getRight rhs.getRight
        (⟨some lhs, some rhs, true⟩ :: stack)), memo⟩
    else combine lhs rhs stack memo

/-- mirrors src/sec/strategy/SequentialEquivalenceStrategy.cpp:157-237 -/
def step (map0 map1 : PublicInputAbstractMap) (s : State) : Except String State :=
  match s.stack with
  | [] => .ok s
  | current :: stack =>
    if (s.memo.lookup (current.lhs, current.rhs)).isSome then .ok ⟨stack, s.memo⟩
    else
      match current.lhs, current.rhs with
      | some lhs, some rhs => visit map0 map1 lhs rhs current.visited stack s.memo
      | lhs, rhs => .ok ⟨stack, ((lhs, rhs), decide (lhs = rhs)) :: s.memo⟩

/-- The loop; `none` where the fuel runs out. -/
def loop (map0 map1 : PublicInputAbstractMap) : Nat → State → Option (Except String Memo)
  | 0, _ => none
  | fuel + 1, s =>
    if s.stack.isEmpty then some (.ok s.memo)
    else
      match step map0 map1 s with
      | .ok s' => loop map0 map1 fuel s'
      | .error e => some (.error e)

end PublicInputWalk

open PublicInputWalk

/-- mirrors src/sec/strategy/SequentialEquivalenceStrategy.cpp:144-240 -/
def areOutputExprsEquivalentUnderPublicInputs (expr0 expr1 : BoolExpr)
    (map0 map1 : PublicInputAbstractMap) (fuel : Nat) : Option (Except String Bool) :=
  (loop map0 map1 fuel ⟨[⟨some expr0, some expr1, false⟩], []⟩).map fun outcome =>
    outcome.bind fun memo => answerAt memo (some expr0) (some expr1)

/-! ## The answer -/

/-- Two expressions match when their nodes do, the operands of a commutative node in one of the
two orders. -/
def outputsMatch (map0 map1 : PublicInputAbstractMap) : BoolExpr → BoolExpr → Bool
  | .var a, .var b => publicInputVarsMatch a b map0 map1
  | .not a, .not b => outputsMatch map0 map1 a b
  | .and a b, .and c d =>
    (outputsMatch map0 map1 a c && outputsMatch map0 map1 b d) ||
      (outputsMatch map0 map1 a d && outputsMatch map0 map1 b c)
  | .or a b, .or c d =>
    (outputsMatch map0 map1 a c && outputsMatch map0 map1 b d) ||
      (outputsMatch map0 map1 a d && outputsMatch map0 map1 b c)
  | .xor a b, .xor c d =>
    (outputsMatch map0 map1 a c && outputsMatch map0 map1 b d) ||
      (outputsMatch map0 map1 a d && outputsMatch map0 map1 b c)
  | _, _ => false

/-- The answer for two pointers. -/
def pairMatch (map0 map1 : PublicInputAbstractMap) (pair : Pair) : Bool :=
  match pair with
  | (some lhs, some rhs) => outputsMatch map0 map1 lhs rhs
  | (lhs, rhs) => decide (lhs = rhs)

section Walk
variable {map0 map1 : PublicInputAbstractMap}

theorem outputsMatch_of_ops {lhs rhs : BoolExpr} (h : lhs.opIndex ≠ rhs.opIndex) :
    outputsMatch map0 map1 lhs rhs = false := by
  cases lhs <;> cases rhs <;> first | exact absurd rfl h | rfl

/-- The answer for a node from the answers for its operands. -/
theorem outputsMatch_node {lhs rhs : BoolExpr} (hop : lhs.opIndex = rhs.opIndex)
    (hvar : lhs.varId = none ∨ rhs.varId = none) :
    outputsMatch map0 map1 lhs rhs =
      ((pairMatch map0 map1 (lhs.getLeft, rhs.getLeft) &&
          pairMatch map0 map1 (lhs.getRight, rhs.getRight)) ||
        (lhs.isCommutativeOutputCompareOp && (pairMatch map0 map1 (lhs.getLeft, rhs.getRight) &&
          pairMatch map0 map1 (lhs.getRight, rhs.getLeft)))) := by
  cases lhs <;> cases rhs <;> try (simp [BoolExpr.opIndex] at hop; done)
  · rcases hvar with h | h <;> cases h
  all_goals
    simp [outputsMatch, pairMatch, BoolExpr.getLeft, BoolExpr.getRight,
      BoolExpr.isCommutativeOutputCompareOp]

/-- All answers of the memo are right. -/
def Right (map0 map1 : PublicInputAbstractMap) (memo : Memo) : Prop :=
  ∀ pair answer, memo.lookup pair = some answer → answer = pairMatch map0 map1 pair

/-- The memo only grows. -/
def Keeps (memo memo' : Memo) : Prop :=
  ∀ pair answer, memo.lookup pair = some answer → memo'.lookup pair = some answer

theorem Keeps.trans {a b c : Memo} (hab : Keeps a b) (hbc : Keeps b c) : Keeps a c :=
  fun pair answer h => hbc pair answer (hab pair answer h)

theorem Right.at {memo : Memo} (h : Right map0 map1 memo) {pair : Pair} {answer : Bool}
    (ha : memo.lookup pair = some answer) :
    memo.lookup pair = some (pairMatch map0 map1 pair) := by
  rw [ha, h pair answer ha]

theorem lookup_cons_pair (memo : Memo) (key pair : Pair) (answer : Bool) :
    List.lookup pair ((key, answer) :: memo) = if pair = key then some answer else memo.lookup pair := by
  rw [List.lookup_cons]
  by_cases h : pair = key
  · subst h
    simp
  · rw [beq_false_of_ne h, if_neg h]

theorem Right.cons {memo : Memo} (h : Right map0 map1 memo) {key : Pair} {answer : Bool}
    (ha : answer = pairMatch map0 map1 key) : Right map0 map1 ((key, answer) :: memo) := by
  intro pair b hb
  rw [lookup_cons_pair] at hb
  split at hb
  · next heq =>
    subst heq
    cases hb
    exact ha
  · exact h pair b hb

theorem Keeps.cons {memo : Memo} {key : Pair} (h : memo.lookup key = none) (answer : Bool) :
    Keeps memo ((key, answer) :: memo) := by
  intro pair b hb
  rw [lookup_cons_pair]
  split
  · next heq =>
    subst heq
    rw [h] at hb
    cases hb
  · exact hb

def Steps (map0 map1 : PublicInputAbstractMap) : State → State → Prop :=
  Relation.ReflTransGen fun s s' => s.stack ≠ [] ∧ step map0 map1 s = .ok s'

/-- A frame leaves the stack with its answer in the memo. -/
def Settles (map0 map1 : PublicInputAbstractMap) (frame : StackFrame) (memo : Memo) : Prop :=
  ∀ stack, ∃ memo', Steps map0 map1 ⟨frame :: stack, memo⟩ ⟨stack, memo'⟩ ∧
    Right map0 map1 memo' ∧ Keeps memo memo' ∧
    memo'.lookup (frame.lhs, frame.rhs) = some (pairMatch map0 map1 (frame.lhs, frame.rhs))

theorem settles_known {frame : StackFrame} {memo : Memo} (hmemo : Right map0 map1 memo)
    {answer : Bool} (h : memo.lookup (frame.lhs, frame.rhs) = some answer) :
    Settles map0 map1 frame memo := by
  intro stack
  refine ⟨memo, Relation.ReflTransGen.single ⟨by simp, ?_⟩, hmemo, fun _ _ h => h, hmemo.at h⟩
  simp [step, h]

/-- An iteration that answers its pair. -/
theorem settles_answer {frame : StackFrame} {memo : Memo} (hmemo : Right map0 map1 memo)
    (hnew : memo.lookup (frame.lhs, frame.rhs) = none)
    (hstep : ∀ stack, step map0 map1 ⟨frame :: stack, memo⟩ =
      .ok ⟨stack, ((frame.lhs, frame.rhs), pairMatch map0 map1 (frame.lhs, frame.rhs)) :: memo⟩) :
    Settles map0 map1 frame memo := by
  intro stack
  refine ⟨_, Relation.ReflTransGen.single ⟨by simp, hstep stack⟩, hmemo.cons rfl,
    Keeps.cons hnew _, ?_⟩
  rw [lookup_cons_pair, if_pos rfl]

/-- Frames that are pushed where they are missing settle one after the other. -/
theorem settles_missing {lhs rhs : Option BoolExpr} {memo : Memo} (hmemo : Right map0 map1 memo)
    (h : Settles map0 map1 ⟨lhs, rhs, false⟩ memo) (stack : List StackFrame) :
    ∃ memo', Steps map0 map1 ⟨pushMissing memo lhs rhs stack, memo⟩ ⟨stack, memo'⟩ ∧
      Right map0 map1 memo' ∧ Keeps memo memo' ∧
      memo'.lookup (lhs, rhs) = some (pairMatch map0 map1 (lhs, rhs)) := by
  unfold pushMissing
  split
  · next hsome =>
    obtain ⟨answer, ha⟩ := Option.isSome_iff_exists.1 hsome
    exact ⟨memo, Relation.ReflTransGen.refl, hmemo, fun _ _ h => h, hmemo.at ha⟩
  · exact h stack

/-! ## The walk -/

/-- Null pointers have no size. -/
def pointerWeight : Option BoolExpr → Nat
  | none => 0
  | some e => e.weight

theorem weight_left {e : BoolExpr} : pointerWeight e.getLeft < e.weight := by
  cases e <;> simp only [BoolExpr.getLeft, pointerWeight, BoolExpr.weight] <;> omega

theorem weight_right {e : BoolExpr} : pointerWeight e.getRight < e.weight := by
  cases e <;> simp only [BoolExpr.getRight, pointerWeight, BoolExpr.weight] <;> omega

theorem answerAt_of_lookup {memo : Memo} {lhs rhs : Option BoolExpr} {answer : Bool}
    (h : memo.lookup (lhs, rhs) = some answer) : answerAt memo lhs rhs = .ok answer := by
  rw [answerAt, h]

/-- The operands of the two nodes, in both orders, have their answers. -/
structure Known (map0 map1 : PublicInputAbstractMap) (lhs rhs : BoolExpr) (memo : Memo) : Prop where
  left : memo.lookup (lhs.getLeft, rhs.getLeft)
    = some (pairMatch map0 map1 (lhs.getLeft, rhs.getLeft))
  right : memo.lookup (lhs.getRight, rhs.getRight)
    = some (pairMatch map0 map1 (lhs.getRight, rhs.getRight))

theorem Known.keeps {lhs rhs : BoolExpr} {memo memo' : Memo} (h : Known map0 map1 lhs rhs memo)
    (hkeeps : Keeps memo memo') : Known map0 map1 lhs rhs memo' :=
  ⟨hkeeps _ _ h.left, hkeeps _ _ h.right⟩

variable {lhs rhs : BoolExpr}

theorem step_visit {visited : Bool} {stack : List StackFrame} {memo : Memo}
    (hnew : memo.lookup (some lhs, some rhs) = none) :
    step map0 map1 ⟨⟨some lhs, some rhs, visited⟩ :: stack, memo⟩
      = visit map0 map1 lhs rhs visited stack memo := by
  simp [step, hnew]

theorem visit_node {visited : Bool} {stack : List StackFrame} {memo : Memo}
    (hop : lhs.opIndex = rhs.opIndex) (hvar : lhs.varId = none ∨ rhs.varId = none) :
    visit map0 map1 lhs rhs visited stack memo =
      if !visited then
        .ok ⟨pushMissing memo lhs.getLeft rhs.getLeft (pushMissing memo lhs.getRight rhs.getRight
          (⟨some lhs, some rhs, true⟩ :: stack)), memo⟩
      else combine lhs rhs stack memo := by
  unfold visit
  split
  · next h0 h1 =>
    rcases hvar with h | h
    · rw [h] at h0
      cases h0
    · rw [h] at h1
      cases h1
  · rw [if_neg (not_not.2 hop)]

/-- A frame whose operands have their answers settles: at once, or after the pairs of the other
order. -/
theorem walk_visited {memo : Memo} (hmemo : Right map0 map1 memo)
    (hop : lhs.opIndex = rhs.opIndex) (hvar : lhs.varId = none ∨ rhs.varId = none)
    (hknown : Known map0 map1 lhs rhs memo)
    (hcross0 : ∀ memo, Right map0 map1 memo →
      Settles map0 map1 ⟨lhs.getLeft, rhs.getRight, false⟩ memo)
    (hcross1 : ∀ memo, Right map0 map1 memo →
      Settles map0 map1 ⟨lhs.getRight, rhs.getLeft, false⟩ memo) :
    Settles map0 map1 ⟨some lhs, some rhs, true⟩ memo := by
  -- with the pairs of the other order at hand, the frame is answered
  have hlast : ∀ memo, Right map0 map1 memo → Known map0 map1 lhs rhs memo →
      memo.lookup (lhs.getLeft, rhs.getRight)
        = some (pairMatch map0 map1 (lhs.getLeft, rhs.getRight)) →
      memo.lookup (lhs.getRight, rhs.getLeft)
        = some (pairMatch map0 map1 (lhs.getRight, rhs.getLeft)) →
      Settles map0 map1 ⟨some lhs, some rhs, true⟩ memo := by
    intro memo hmemo hknown h0 h1
    cases hkey : memo.lookup (some lhs, some rhs) with
    | some answer => exact settles_known hmemo hkey
    | none =>
      refine settles_answer hmemo hkey fun stack => ?_
      rw [step_visit hkey, visit_node hop hvar, combine, answerAt_of_lookup hknown.left,
        answerAt_of_lookup hknown.right, answerAt_of_lookup h0, answerAt_of_lookup h1]
      simp only [h0, h1, Bool.not_true, Bool.false_eq_true, if_false, Option.isSome_some,
        Bool.and_self, if_true, ok_bind]
      rw [pairMatch, outputsMatch_node hop hvar]
      split
      · next hboth => rw [hboth, Bool.true_or]
      · next hboth =>
        rw [Bool.eq_false_of_not_eq_true hboth, Bool.false_or]
        split
        · next hcomm => rw [hcomm, Bool.true_and]
        · next hcomm => rw [Bool.eq_false_of_not_eq_true hcomm, Bool.false_and]
  cases hkey : memo.lookup (some lhs, some rhs) with
  | some answer => exact settles_known hmemo hkey
  | none =>
    by_cases hboth : (pairMatch map0 map1 (lhs.getLeft, rhs.getLeft) &&
        pairMatch map0 map1 (lhs.getRight, rhs.getRight)) = true
    · refine settles_answer hmemo hkey fun stack => ?_
      rw [step_visit hkey, visit_node hop hvar, combine, answerAt_of_lookup hknown.left,
        answerAt_of_lookup hknown.right]
      simp only [ok_bind, Bool.not_true, Bool.false_eq_true, if_false]
      rw [if_pos hboth, pairMatch, outputsMatch_node hop hvar, hboth, Bool.true_or]
    · by_cases hcomm : lhs.isCommutativeOutputCompareOp = true
      · by_cases hcross : ((memo.lookup (lhs.getRight, rhs.getLeft)).isSome &&
            (memo.lookup (lhs.getLeft, rhs.getRight)).isSome) = true
        · rw [Bool.and_eq_true] at hcross
          obtain ⟨answer1, h1⟩ := Option.isSome_iff_exists.1 hcross.1
          obtain ⟨answer0, h0⟩ := Option.isSome_iff_exists.1 hcross.2
          exact hlast memo hmemo hknown (hmemo.at h0) (hmemo.at h1)
        · intro stack
          have hfirst : step map0 map1 ⟨⟨some lhs, some rhs, true⟩ :: stack, memo⟩
              = .ok ⟨pushMissing memo lhs.getLeft rhs.getRight (pushMissing memo lhs.getRight
                  rhs.getLeft (⟨some lhs, some rhs, true⟩ :: stack)), memo⟩ := by
            rw [step_visit hkey, visit_node hop hvar, combine, answerAt_of_lookup hknown.left,
              answerAt_of_lookup hknown.right]
            simp only [ok_bind, Bool.not_true, Bool.false_eq_true, if_false]
            rw [if_neg hboth, if_pos hcomm, if_neg hcross]
          obtain ⟨memo₁, hsteps₁, hmemo₁, hkeeps₁, h0⟩ := settles_missing hmemo
            (hcross0 memo hmemo) (pushMissing memo lhs.getRight rhs.getLeft
              (⟨some lhs, some rhs, true⟩ :: stack))
          -- the second pair may have got its answer on the way
          obtain ⟨memo₂, hsteps₂, hmemo₂, hkeeps₂, h1⟩ : ∃ memo₂,
              Steps map0 map1 ⟨pushMissing memo lhs.getRight rhs.getLeft
                (⟨some lhs, some rhs, true⟩ :: stack), memo₁⟩
                ⟨⟨some lhs, some rhs, true⟩ :: stack, memo₂⟩ ∧ Right map0 map1 memo₂ ∧
              Keeps memo₁ memo₂ ∧ memo₂.lookup (lhs.getRight, rhs.getLeft)
                = some (pairMatch map0 map1 (lhs.getRight, rhs.getLeft)) := by
            unfold pushMissing
            split
            · next hsome =>
              obtain ⟨answer, ha⟩ := Option.isSome_iff_exists.1 hsome
              exact ⟨memo₁, Relation.ReflTransGen.refl, hmemo₁, fun _ _ h => h,
                hkeeps₁ _ _ (hmemo.at ha)⟩
            · exact hcross1 memo₁ hmemo₁ _
          obtain ⟨memo₃, hsteps₃, hmemo₃, hkeeps₃, hdone⟩ := hlast memo₂ hmemo₂
            ((hknown.keeps hkeeps₁).keeps hkeeps₂) (hkeeps₂ _ _ h0) h1 stack
          refine ⟨memo₃, ?_, hmemo₃, (hkeeps₁.trans hkeeps₂).trans hkeeps₃, hdone⟩
          exact ((Relation.ReflTransGen.head ⟨by simp, hfirst⟩ hsteps₁).trans hsteps₂).trans hsteps₃
      · refine settles_answer hmemo hkey fun stack => ?_
        rw [step_visit hkey, visit_node hop hvar, combine, answerAt_of_lookup hknown.left,
          answerAt_of_lookup hknown.right]
        simp only [ok_bind, Bool.not_true, Bool.false_eq_true, if_false]
        rw [if_neg hboth, if_neg hcomm, pairMatch, outputsMatch_node hop hvar,
          Bool.eq_false_of_not_eq_true hboth, Bool.eq_false_of_not_eq_true hcomm]
        rfl

/-- By induction on the sizes of the two expressions. -/
theorem walk_unvisited (n : Nat) : ∀ (lhs rhs : Option BoolExpr),
    pointerWeight lhs + pointerWeight rhs < n → ∀ memo, Right map0 map1 memo →
      Settles map0 map1 ⟨lhs, rhs, false⟩ memo := by
  induction n with
  | zero => exact fun lhs rhs h => absurd h (Nat.not_lt_zero _)
  | succ n ih =>
    intro lhs rhs hn memo hmemo
    cases hkey : memo.lookup (lhs, rhs) with
    | some answer => exact settles_known hmemo hkey
    | none =>
      match lhs, rhs with
      | none, rhs =>
        refine settles_answer hmemo hkey fun stack => ?_
        simp [step, hkey, pairMatch]
      | some lhs, none =>
        refine settles_answer hmemo hkey fun stack => ?_
        simp [step, hkey, pairMatch]
      | some lhs, some rhs =>
        have hsmall : ∀ l r, pointerWeight l < lhs.weight → pointerWeight r < rhs.weight →
            ∀ memo, Right map0 map1 memo → Settles map0 map1 ⟨l, r, false⟩ memo := by
          intro l r hl hr
          refine ih l r ?_
          simp only [pointerWeight] at hn
          omega
        by_cases hop : lhs.opIndex = rhs.opIndex
        · by_cases hvar : lhs.varId = none ∨ rhs.varId = none
          · intro stack
            have hfirst : step map0 map1 ⟨⟨some lhs, some rhs, false⟩ :: stack, memo⟩
                = .ok ⟨pushMissing memo lhs.getLeft rhs.getLeft (pushMissing memo lhs.getRight
                    rhs.getRight (⟨some lhs, some rhs, true⟩ :: stack)), memo⟩ := by
              rw [step_visit hkey, visit_node hop hvar]
              rfl
            obtain ⟨memo₁, hsteps₁, hmemo₁, hkeeps₁, hleft⟩ := settles_missing hmemo
              (hsmall lhs.getLeft rhs.getLeft weight_left weight_left memo hmemo)
              (pushMissing memo lhs.getRight rhs.getRight (⟨some lhs, some rhs, true⟩ :: stack))
            obtain ⟨memo₂, hsteps₂, hmemo₂, hkeeps₂, hright⟩ : ∃ memo₂,
                Steps map0 map1 ⟨pushMissing memo lhs.getRight rhs.getRight
                  (⟨some lhs, some rhs, true⟩ :: stack), memo₁⟩
                  ⟨⟨some lhs, some rhs, true⟩ :: stack, memo₂⟩ ∧ Right map0 map1 memo₂ ∧
                Keeps memo₁ memo₂ ∧ memo₂.lookup (lhs.getRight, rhs.getRight)
                  = some (pairMatch map0 map1 (lhs.getRight, rhs.getRight)) := by
              unfold pushMissing
              split
              · next hsome =>
                obtain ⟨answer, ha⟩ := Option.isSome_iff_exists.1 hsome
                exact ⟨memo₁, Relation.ReflTransGen.refl, hmemo₁, fun _ _ h => h,
                  hkeeps₁ _ _ (hmemo.at ha)⟩
              · exact hsmall _ _ weight_right weight_right memo₁ hmemo₁ _
            obtain ⟨memo₃, hsteps₃, hmemo₃, hkeeps₃, hdone⟩ := walk_visited hmemo₂ hop hvar
              ⟨hkeeps₂ _ _ hleft, hright⟩ (hsmall _ _ weight_left weight_right)
              (hsmall _ _ weight_right weight_left) stack
            refine ⟨memo₃, ?_, hmemo₃, (hkeeps₁.trans hkeeps₂).trans hkeeps₃, hdone⟩
            exact ((Relation.ReflTransGen.head ⟨by simp, hfirst⟩ hsteps₁).trans
              hsteps₂).trans hsteps₃
          · rw [not_or] at hvar
            obtain ⟨var0, h0⟩ := Option.ne_none_iff_exists'.1 hvar.1
            obtain ⟨var1, h1⟩ := Option.ne_none_iff_exists'.1 hvar.2
            refine settles_answer hmemo hkey fun stack => ?_
            rw [step_visit hkey]
            cases lhs <;> cases h0
            cases rhs <;> cases h1
            rfl
        · refine settles_answer hmemo hkey fun stack => ?_
          rw [step_visit hkey, pairMatch, outputsMatch_of_ops hop]
          unfold visit
          split
          · next h0 h1 =>
            cases lhs <;> cases h0
            cases rhs <;> cases h1
            exact absurd rfl hop
          · rw [if_pos hop]

/-- Steps that empty the stack are a run of the loop. -/
theorem loop_of_steps {s : State} {memo : Memo} (h : Steps map0 map1 s ⟨[], memo⟩) :
    ∃ bound, ∀ fuel, bound ≤ fuel → loop map0 map1 fuel s = some (.ok memo) := by
  induction h using Relation.ReflTransGen.head_induction_on with
  | refl =>
    refine ⟨1, fun fuel hfuel => ?_⟩
    obtain ⟨fuel, rfl⟩ : ∃ k, fuel = k + 1 := ⟨fuel - 1, by omega⟩
    rfl
  | head hstep _ ih =>
    obtain ⟨bound, hbound⟩ := ih
    obtain ⟨hne, hok⟩ := hstep
    refine ⟨bound + 1, fun fuel hfuel => ?_⟩
    obtain ⟨fuel, rfl⟩ : ∃ k, fuel = k + 1 := ⟨fuel - 1, by omega⟩
    rw [loop, if_neg (by simpa using hne), hok]
    exact hbound fuel (by omega)

theorem walk_ends (expr0 expr1 : BoolExpr) : ∃ bound, ∀ fuel, bound ≤ fuel →
    areOutputExprsEquivalentUnderPublicInputs expr0 expr1 map0 map1 fuel
      = some (.ok (outputsMatch map0 map1 expr0 expr1)) := by
  have hstart : Right map0 map1 [] := fun _ _ h => by cases h
  obtain ⟨memo, hsteps, -, -, hanswer⟩ := walk_unvisited _ (some expr0) (some expr1)
    (Nat.lt_succ_self _) [] hstart []
  obtain ⟨bound, hbound⟩ := loop_of_steps hsteps
  refine ⟨bound, fun fuel hfuel => ?_⟩
  rw [areOutputExprsEquivalentUnderPublicInputs, hbound fuel hfuel]
  show some (answerAt memo (some expr0) (some expr1)) = _
  rw [answerAt_of_lookup hanswer]
  rfl

end Walk

/-! ## What a positive answer says -/

section Meaning
variable {map0 map1 : PublicInputAbstractMap}

/-- Matched variables have one value. -/
def MatchedVarsAgree (map0 map1 : PublicInputAbstractMap) (σ0 σ1 : Valuation) : Prop :=
  ∀ var0 var1 symbol, map0.lookup var0 = some symbol → map1.lookup var1 = some symbol →
    σ0 var0 = σ1 var1

theorem eval_of_varsMatch {var0 var1 : Nat} {σ0 σ1 : Valuation}
    (hagree : MatchedVarsAgree map0 map1 σ0 σ1)
    (h : publicInputVarsMatch var0 var1 map0 map1 = true) :
    (BoolExpr.var var0).eval σ0 = (BoolExpr.var var1).eval σ1 := by
  unfold publicInputVarsMatch at h
  split at h
  · next hconst =>
    obtain rfl : var0 = var1 := of_decide_eq_true h
    have hlt : var0 < 2 := hconst.elim id id
    match var0, hlt with
    | 0, _ => rfl
    | 1, _ => rfl
  · next hvars =>
    rw [not_or, Nat.not_lt, Nat.not_lt] at hvars
    rw [BoolExpr.eval_var _ hvars.1, BoolExpr.eval_var _ hvars.2]
    split at h
    · next symbol0 symbol1 h0 h1 =>
      obtain rfl : symbol0 = symbol1 := of_decide_eq_true h
      exact hagree var0 var1 symbol0 h0 h1
    · cases h

/-- Matching expressions have one value wherever matched variables do. -/
theorem outputsMatch_eval {σ0 σ1 : Valuation} (hagree : MatchedVarsAgree map0 map1 σ0 σ1)
    {lhs rhs : BoolExpr} (h : outputsMatch map0 map1 lhs rhs = true) :
    lhs.eval σ0 = rhs.eval σ1 := by
  induction lhs generalizing rhs with
  | var a =>
    cases rhs with
    | var b => exact eval_of_varsMatch hagree h
    | _ => cases h
  | not a ih =>
    cases rhs with
    | not b => rw [BoolExpr.eval, BoolExpr.eval, ih h]
    | _ => cases h
  | and a b iha ihb =>
    cases rhs with
    | and c d =>
      rw [outputsMatch, Bool.or_eq_true, Bool.and_eq_true, Bool.and_eq_true] at h
      rw [BoolExpr.eval, BoolExpr.eval]
      rcases h with ⟨h0, h1⟩ | ⟨h0, h1⟩
      · rw [iha h0, ihb h1]
      · rw [iha h0, ihb h1, Bool.and_comm]
    | _ => cases h
  | or a b iha ihb =>
    cases rhs with
    | or c d =>
      rw [outputsMatch, Bool.or_eq_true, Bool.and_eq_true, Bool.and_eq_true] at h
      rw [BoolExpr.eval, BoolExpr.eval]
      rcases h with ⟨h0, h1⟩ | ⟨h0, h1⟩
      · rw [iha h0, ihb h1]
      · rw [iha h0, ihb h1, Bool.or_comm]
    | _ => cases h
  | xor a b iha ihb =>
    cases rhs with
    | xor c d =>
      rw [outputsMatch, Bool.or_eq_true, Bool.and_eq_true, Bool.and_eq_true] at h
      rw [BoolExpr.eval, BoolExpr.eval]
      rcases h with ⟨h0, h1⟩ | ⟨h0, h1⟩
      · rw [iha h0, ihb h1]
      · rw [iha h0, ihb h1, Bool.xor_comm]
    | _ => cases h

/-- Both expressions read only variables that have an abstract symbol. -/
def ReadsMapped (map : PublicInputAbstractMap) (e : BoolExpr) : Prop :=
  ∀ var ∈ e.getSupportVars, 2 ≤ var → ∃ symbol, map.lookup var = some symbol

theorem readsMapped_of_varsMatch {var0 var1 : Nat}
    (h : publicInputVarsMatch var0 var1 map0 map1 = true) :
    ReadsMapped map0 (.var var0) ∧ ReadsMapped map1 (.var var1) := by
  unfold publicInputVarsMatch at h
  split at h
  · next hconst =>
    obtain rfl : var0 = var1 := of_decide_eq_true h
    have hlt : var0 < 2 := hconst.elim id id
    refine ⟨fun v hv h2 => ?_, fun v hv h2 => ?_⟩ <;>
      rw [Finset.mem_singleton.1 hv] at h2 <;> omega
  · split at h
    · next symbol0 symbol1 h0 h1 =>
      refine ⟨fun v hv _ => ⟨symbol0, ?_⟩, fun v hv _ => ⟨symbol1, ?_⟩⟩
      · rw [Finset.mem_singleton.1 hv, h0]
      · rw [Finset.mem_singleton.1 hv, h1]
    · cases h

theorem ReadsMapped.union {map : PublicInputAbstractMap} {a b e : BoolExpr}
    (he : e.getSupportVars = a.getSupportVars ∪ b.getSupportVars) (ha : ReadsMapped map a)
    (hb : ReadsMapped map b) : ReadsMapped map e := by
  intro v hv h2
  rw [he, Finset.mem_union] at hv
  exact hv.elim (fun hv => ha v hv h2) fun hv => hb v hv h2

theorem outputsMatch_support {lhs rhs : BoolExpr} (h : outputsMatch map0 map1 lhs rhs = true) :
    ReadsMapped map0 lhs ∧ ReadsMapped map1 rhs := by
  induction lhs generalizing rhs with
  | var a =>
    cases rhs with
    | var b => exact readsMapped_of_varsMatch h
    | _ => cases h
  | not a ih =>
    cases rhs with
    | not b =>
      rw [outputsMatch] at h
      obtain ⟨h0, h1⟩ := ih h
      exact ⟨h0, h1⟩
    | _ => cases h
  | and a b iha ihb | or a b iha ihb | xor a b iha ihb =>
    cases rhs <;> try (cases h; done)
    rw [outputsMatch, Bool.or_eq_true, Bool.and_eq_true, Bool.and_eq_true] at h
    rcases h with ⟨h0, h1⟩ | ⟨h0, h1⟩
    · exact ⟨(iha h0).1.union rfl (ihb h1).1, (iha h0).2.union rfl (ihb h1).2⟩
    · exact ⟨(iha h0).1.union rfl (ihb h1).1, (ihb h1).2.union rfl (iha h0).2⟩

end Meaning

/-! ## Aligned inputs -/

section Designs
variable {κ : Type} [DecidableEq κ] {model0 model1 : SequentialDesignModel κ}

/-- The variables of one aligned input. -/
def AlignedVars (model0 model1 : SequentialDesignModel κ) (alignedInputs : AlignedSignals κ)
    (var0 var1 : Nat) : Prop :=
  ∃ keys ∈ alignedInputs, model0.inputVarByKey.lookup keys.1 = some var0 ∧
    model1.inputVarByKey.lookup keys.2 = some var1

/-- Only the variables of an aligned input share a symbol. -/
structure MapsInputs (model0 model1 : SequentialDesignModel κ) (alignedInputs : AlignedSignals κ)
    (symbol : Nat) (maps : PublicInputAbstractMap × PublicInputAbstractMap) : Prop where
  bound0 : ∀ v s, maps.1.lookup v = some s → s < symbol
  bound1 : ∀ v s, maps.2.lookup v = some s → s < symbol
  shared : ∀ v0 v1 s, maps.1.lookup v0 = some s → maps.2.lookup v1 = some s →
    AlignedVars model0 model1 alignedInputs v0 v1
  read0 : ∀ v s, maps.1.lookup v = some s → ∃ v1, AlignedVars model0 model1 alignedInputs v v1
  read1 : ∀ v s, maps.2.lookup v = some s → ∃ v0, AlignedVars model0 model1 alignedInputs v0 v

theorem lookupAt_eq {α : Type} {entries : List (κ × α)} {key : κ} {value : α}
    (h : lookupAt entries key = .ok value) : entries.lookup key = some value := by
  unfold lookupAt at h
  split at h
  · next hlookup =>
    rw [hlookup, Except.ok.inj h]
  · cases h

theorem lookup_emplace {map : PublicInputAbstractMap} {var symbol v s : Nat}
    (h : (map.emplace var symbol).lookup v = some s) :
    map.lookup v = some s ∨ v = var ∧ s = symbol := by
  unfold PublicInputAbstractMap.emplace at h
  split at h
  · exact Or.inl h
  · rw [List.lookup_append] at h
    cases hold : map.lookup v with
    | some s' =>
      rw [hold] at h
      exact Or.inl h
    | none =>
      rw [hold, Option.none_or, List.lookup_cons] at h
      by_cases hv : v = var
      · subst hv
        rw [beq_self_eq_true] at h
        exact Or.inr ⟨rfl, (Option.some.inj h).symm⟩
      · rw [beq_false_of_ne hv] at h
        cases h

theorem addPublicInputs_spec {done inputs : AlignedSignals κ} {symbol : Nat}
    {maps maps' : PublicInputAbstractMap × PublicInputAbstractMap}
    (hmaps : MapsInputs model0 model1 done symbol maps)
    (h : addPublicInputs model0 model1 inputs symbol maps = .ok maps') :
    ∃ last, MapsInputs model0 model1 (done ++ inputs) last maps' := by
  induction inputs generalizing done symbol maps with
  | nil =>
    cases h
    exact ⟨symbol, by rwa [List.append_nil]⟩
  | cons keys inputs ih =>
    obtain ⟨key0, key1⟩ := keys
    unfold addPublicInputs at h
    obtain ⟨var0, h0, h⟩ := bind_ok.1 h
    obtain ⟨var1, h1, h⟩ := bind_ok.1 h
    have h0 := lookupAt_eq h0
    have h1 := lookupAt_eq h1
    have hnew : AlignedVars model0 model1 (done ++ [(key0, key1)]) var0 var1 :=
      ⟨(key0, key1), by simp, h0, h1⟩
    have hold : ∀ {a b : Nat}, AlignedVars model0 model1 done a b →
        AlignedVars model0 model1 (done ++ [(key0, key1)]) a b := by
      rintro a b ⟨keys, hkeys, ha, hb⟩
      exact ⟨keys, List.mem_append_left _ hkeys, ha, hb⟩
    rw [List.append_cons]
    refine ih ⟨?_, ?_, ?_, ?_, ?_⟩ h
    · intro v s hv
      rcases lookup_emplace hv with hv | ⟨-, rfl⟩
      · exact (hmaps.bound0 v s hv).trans (Nat.lt_succ_self _)
      · exact Nat.lt_succ_self _
    · intro v s hv
      rcases lookup_emplace hv with hv | ⟨-, rfl⟩
      · exact (hmaps.bound1 v s hv).trans (Nat.lt_succ_self _)
      · exact Nat.lt_succ_self _
    · intro v0 v1 s hv0 hv1
      rcases lookup_emplace hv0 with h0' | ⟨rfl, hs0⟩
      · rcases lookup_emplace hv1 with h1' | ⟨-, hs1⟩
        · exact hold (hmaps.shared v0 v1 s h0' h1')
        · exact absurd (hs1 ▸ hmaps.bound0 v0 s h0') (Nat.lt_irrefl _)
      · rcases lookup_emplace hv1 with h1' | ⟨rfl, -⟩
        · exact absurd (hs0 ▸ hmaps.bound1 v1 s h1') (Nat.lt_irrefl _)
        · exact hnew
    · intro v s hv
      rcases lookup_emplace hv with hv | ⟨rfl, -⟩
      · obtain ⟨v1, hv1⟩ := hmaps.read0 v s hv
        exact ⟨v1, hold hv1⟩
      · exact ⟨var1, hnew⟩
    · intro v s hv
      rcases lookup_emplace hv with hv | ⟨rfl, -⟩
      · obtain ⟨v0, hv0⟩ := hmaps.read1 v s hv
        exact ⟨v0, hold hv0⟩
      · exact ⟨var0, hnew⟩

/-- The walk over any two outputs ends. A positive answer says that they have one value wherever
the aligned inputs of the two designs do, and that they read nothing else. -/
theorem publicInputs_sound (model0 model1 : SequentialDesignModel κ)
    (alignedInputs : AlignedSignals κ) (expr0 expr1 : BoolExpr)
    {maps : PublicInputAbstractMap × PublicInputAbstractMap}
    (h : buildPublicInputAbstractMaps model0 model1 alignedInputs = .ok maps) :
    ∃ answer bound,
      (∀ fuel, bound ≤ fuel →
        areOutputExprsEquivalentUnderPublicInputs expr0 expr1 maps.1 maps.2 fuel
          = some (.ok answer)) ∧
      (answer = true →
        (∀ σ0 σ1 : Valuation, (∀ var0 var1, AlignedVars model0 model1 alignedInputs var0 var1 →
          σ0 var0 = σ1 var1) → expr0.eval σ0 = expr1.eval σ1) ∧
        (∀ var ∈ expr0.getSupportVars, 2 ≤ var →
          ∃ var1, AlignedVars model0 model1 alignedInputs var var1) ∧
        ∀ var ∈ expr1.getSupportVars, 2 ≤ var →
          ∃ var0, AlignedVars model0 model1 alignedInputs var0 var) := by
  have hstart : MapsInputs model0 model1 [] 2 ([], []) := by
    constructor <;> simp
  obtain ⟨last, hmaps⟩ := addPublicInputs_spec hstart h
  rw [List.nil_append] at hmaps
  obtain ⟨bound, hbound⟩ := @walk_ends maps.1 maps.2 expr0 expr1
  refine ⟨_, bound, hbound, fun hanswer => ⟨fun σ0 σ1 hagree => ?_, ?_, ?_⟩⟩
  · apply outputsMatch_eval _ hanswer
    exact fun var0 var1 symbol h0 h1 => hagree var0 var1 (hmaps.shared var0 var1 symbol h0 h1)
  · intro var hvar h2
    obtain ⟨symbol, hs⟩ := (outputsMatch_support hanswer).1 var hvar h2
    exact hmaps.read0 var symbol hs
  · intro var hvar h2
    obtain ⟨symbol, hs⟩ := (outputsMatch_support hanswer).2 var hvar h2
    exact hmaps.read1 var symbol hs

end Designs

/-- Two inputs (keys 0 and 1); the second design numbers their variables the other way. -/
def swappedInputs (first second : Nat) : SequentialDesignModel Nat where
  stateBits := []
  inputVarByKey := [(0, first), (1, second)]
  observedOutputExprByKey := []
  nextStateExprByStateKey := []
  initialStateValueByKey := []
  complementedStateRelations := []
  inputVar_nodup := by simp

/-- The conjunction of the two inputs, with the operands in both orders. -/
theorem publicInputs_sound_swapped : ∃ answer bound,
    (∀ fuel, bound ≤ fuel →
      areOutputExprsEquivalentUnderPublicInputs (.and (.var 2) (.not (.var 3)))
        (.and (.not (.var 2)) (.var 3)) [(2, 2), (3, 3)] [(3, 2), (2, 3)] fuel
          = some (.ok answer)) ∧
    (answer = true → (∀ σ0 σ1 : Valuation, (∀ var0 var1,
        AlignedVars (swappedInputs 2 3) (swappedInputs 3 2) [(0, 0), (1, 1)] var0 var1 →
          σ0 var0 = σ1 var1) →
        (BoolExpr.and (.var 2) (.not (.var 3))).eval σ0
          = (BoolExpr.and (.not (.var 2)) (.var 3)).eval σ1) ∧
      (∀ var ∈ (BoolExpr.and (.var 2) (.not (.var 3))).getSupportVars, 2 ≤ var →
        ∃ var1, AlignedVars (swappedInputs 2 3) (swappedInputs 3 2) [(0, 0), (1, 1)] var var1) ∧
      ∀ var ∈ (BoolExpr.and (.not (.var 2)) (.var 3)).getSupportVars, 2 ≤ var →
        ∃ var0, AlignedVars (swappedInputs 2 3) (swappedInputs 3 2) [(0, 0), (1, 1)] var0 var) :=
  publicInputs_sound (swappedInputs 2 3) (swappedInputs 3 2) [(0, 0), (1, 1)] _ _ rfl

end KeplerFormal
