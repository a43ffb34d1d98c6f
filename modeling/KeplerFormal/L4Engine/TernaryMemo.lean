import Mathlib.Logic.Relation
import KeplerFormal.L4Engine.TernaryReducer

/-!
# The memo of one symbol map

Against the equations of three-valued evaluation, one memo is a table of values that is
kept up to date by the steps of `propagateChangedAssignments`: first the variables of the
changed symbols take their values, then the worklist is emptied.

* `MemoDomain`: the nodes that the roots of the symbol map evaluate.
* `propagationStep`, `StepInMemo`: one step, and the condition that it reads no parent behind
  the end of the memo.
* `Propagating`: the invariant of a memo and its worklist.
* `updateNodeValue_spec`, `propagateWork_ok_iff`: one update, and the whole propagation, which
  succeeds exactly when every step of it stays inside the memo.
* `evaluate_spec`: the first evaluation of a root.
-/
namespace KeplerFormal

open Core BoolExpr

/-- The region is inside the table and the memo. -/
structure MemoDomain (nodes : TernaryNodes) (size : Nat) (region : BoolExpr → Prop) : Prop where
  wellFormed : nodes.WellFormed
  mem : ∀ e, region e → e ∈ nodes.exprs
  inRange : ∀ e, region e → nodes.slot e < size
  closed : ∀ e, region e → ∀ c ∈ e.children, region c

namespace TernaryEvaluationMemo

def Computed (g : Nat) (memo : TernaryEvaluationMemo) (e : BoolExpr) : Prop :=
  (memo.entry e).generation = g

def value (memo : TernaryEvaluationMemo) (e : BoolExpr) : Option Bool := (memo.entry e).value

/-- No stamp is later than `g`. -/
def Bounded (g : Nat) (memo : TernaryEvaluationMemo) : Prop :=
  ∀ e, (memo.entry e).generation ≤ g ∧ (memo.entry e).queuedGeneration ≤ g

/-- The memos differ at most in what is queued. -/
structure SameValues (memo memo' : TernaryEvaluationMemo) : Prop where
  size : memo'.size = memo.size
  generation : ∀ e, (memo'.entry e).generation = (memo.entry e).generation
  value : ∀ e, (memo'.entry e).value = (memo.entry e).value

theorem SameValues.refl (memo : TernaryEvaluationMemo) : memo.SameValues memo :=
  ⟨rfl, fun _ => rfl, fun _ => rfl⟩

theorem SameValues.trans {m₁ m₂ m₃ : TernaryEvaluationMemo} (h : m₁.SameValues m₂)
    (h' : m₂.SameValues m₃) : m₁.SameValues m₃ :=
  ⟨h'.size.trans h.size, fun e => (h'.generation e).trans (h.generation e),
    fun e => (h'.value e).trans (h.value e)⟩

variable {memo : TernaryEvaluationMemo}

theorem SameValues.computed {memo' : TernaryEvaluationMemo} (h : memo.SameValues memo') {g : Nat}
    {e : BoolExpr} : memo'.Computed g e ↔ memo.Computed g e := by
  unfold Computed
  rw [h.generation]

@[simp] theorem write_entry_self (e : BoolExpr) (entry : TernaryEvaluationMemoEntry) :
    (memo.write e entry).entry e = entry := Function.update_self _ _ _

theorem write_entry_of_ne {a e : BoolExpr} (h : a ≠ e) (entry : TernaryEvaluationMemoEntry) :
    (memo.write e entry).entry a = memo.entry a := Function.update_of_ne h _ _

theorem Bounded.write {g : Nat} (h : memo.Bounded g) (e : BoolExpr)
    {entry : TernaryEvaluationMemoEntry} (hgeneration : entry.generation ≤ g)
    (hqueued : entry.queuedGeneration ≤ g) : (memo.write e entry).Bounded g := by
  intro a
  by_cases ha : a = e
  · rw [ha, write_entry_self]
    exact ⟨hgeneration, hqueued⟩
  · rw [write_entry_of_ne ha]
    exact h a

theorem read_ok {nodes : TernaryNodes} {e : BoolExpr} (h : nodes.slot e < memo.size) :
    memo.read nodes e = .ok (memo.entry e) := if_pos h

theorem read_eq_ok {nodes : TernaryNodes} {e : BoolExpr} {entry : TernaryEvaluationMemoEntry}
    (h : memo.read nodes e = .ok entry) : nodes.slot e < memo.size ∧ entry = memo.entry e := by
  unfold read at h
  split at h
  · exact ⟨‹_›, (Except.ok.inj h).symm⟩
  · cases h

/-- Only the queue stamp of a node changes. -/
theorem sameValues_write_queued (e : BoolExpr) (q : Nat) :
    memo.SameValues (memo.write e { memo.entry e with queuedGeneration := q }) := by
  refine ⟨rfl, fun a => ?_, fun a => ?_⟩ <;> by_cases ha : a = e
  · subst ha
    simp
  · rw [write_entry_of_ne ha]
  · subst ha
    simp
  · rw [write_entry_of_ne ha]

theorem write_value_generation (e a : BoolExpr) (v : Option Bool) :
    ((memo.write e { memo.entry e with value := v }).entry a).generation =
      (memo.entry a).generation := by
  by_cases ha : a = e
  · subst ha
    simp
  · rw [write_entry_of_ne ha]

theorem write_value_queued (e a : BoolExpr) (v : Option Bool) :
    ((memo.write e { memo.entry e with value := v }).entry a).queuedGeneration =
      (memo.entry a).queuedGeneration := by
  by_cases ha : a = e
  · subst ha
    simp
  · rw [write_entry_of_ne ha]

theorem write_value_value (e : BoolExpr) (v : Option Bool) :
    (memo.write e { memo.entry e with value := v }).value = Function.update memo.value e v := by
  funext a
  by_cases ha : a = e
  · subst ha
    simp [value]
  · simp [value, write_entry_of_ne ha, Function.update_of_ne ha]

end TernaryEvaluationMemo

open TernaryEvaluationMemo

/-! ## The worklist -/

/-- The stamps say what is in the worklist; a variable never is. -/
structure Queued (g : Nat) (state : PropagationState) : Prop where
  bounded : state.1.Bounded g
  stamped : ∀ e, (state.1.entry e).queuedGeneration = g ↔ e ∈ state.2
  nodup : state.2.Nodup
  computed : ∀ e ∈ state.2, state.1.Computed g e
  operators : ∀ e ∈ state.2, e.children ≠ []

/-- What enqueueing the parents leaves. -/
structure Enqueued (g : Nat) (parents : List BoolExpr) (state state' : PropagationState) :
    Prop where
  same : state.1.SameValues state'.1
  queued : Queued g state'
  kept : state.2 ⊆ state'.2
  added : ∀ p ∈ parents, state.1.Computed g p → p ∈ state'.2
  cost : ∀ f : BoolExpr → Nat,
    (state'.2.map f).sum ≤ (state.2.map f).sum + (parents.map f).sum

section Worklist
variable {g : Nat}

theorem enqueueParent_spec (nodes : TernaryNodes) {state : PropagationState} {p : BoolExpr}
    (h : Queued g state)
    (hslot : nodes.slot p < state.1.size) (hchildren : p.children ≠ []) :
    ∃ state', enqueueParent nodes g state p = .ok state' ∧ Enqueued g [p] state state' := by
  unfold enqueueParent
  rw [read_ok hslot]
  simp only [bind, Except.bind]
  split
  · rename_i hskip
    refine ⟨state, rfl, .refl _, h, List.Subset.refl _, ?_, fun f => Nat.le_add_right _ _⟩
    intro q hq hcomputed
    obtain rfl := List.mem_singleton.mp hq
    exact (h.stamped q).mp (hskip.resolve_left (absurd hcomputed))
  · rename_i hnew
    obtain ⟨hcomputed, hqueued⟩ := not_or.mp hnew
    have hcomputed : state.1.Computed g p := not_not.mp hcomputed
    have hnot : p ∉ state.2 := fun hp => hqueued ((h.stamped p).mpr hp)
    have hsame := state.1.sameValues_write_queued p g
    refine ⟨_, rfl, hsame, ⟨?_, ?_, ?_, ?_, ?_⟩, List.subset_append_left _ _, ?_, ?_⟩
    · exact h.bounded.write p (h.bounded p).1 (Nat.le_refl g)
    · intro e
      by_cases he : e = p
      · subst he
        simp
      · simp only [write_entry_of_ne he, h.stamped, List.mem_append, List.mem_singleton, he,
          or_false]
    · exact h.nodup.append (List.nodup_singleton p) (List.disjoint_singleton.mpr hnot)
    · intro e he
      rw [hsame.computed]
      rcases List.mem_append.mp he with he | he
      · exact h.computed e he
      · rwa [List.mem_singleton.mp he]
    · intro e he
      rcases List.mem_append.mp he with he | he
      · exact h.operators e he
      · rwa [List.mem_singleton.mp he]
    · intro q hq _
      exact List.mem_append_right _ hq
    · intro f
      simp

theorem enqueueParents_spec (nodes : TernaryNodes) (parents : List BoolExpr)
    {state : PropagationState} (h : Queued g state) (hslots : ∀ p ∈ parents, nodes.slot p < state.1.size)
    (hchildren : ∀ p ∈ parents, p.children ≠ []) :
    ∃ state', parents.foldlM (enqueueParent nodes g) state = .ok state' ∧
      Enqueued g parents state state' := by
  induction parents generalizing state with
  | nil =>
    exact ⟨state, rfl, .refl _, h, List.Subset.refl _, fun p hp => absurd hp List.not_mem_nil,
      fun f => Nat.le_refl _⟩
  | cons p parents ih =>
    obtain ⟨s₁, hs₁, h₁⟩ := enqueueParent_spec nodes h
      (hslots p List.mem_cons_self) (hchildren p List.mem_cons_self)
    obtain ⟨s₂, hs₂, h₂⟩ := ih h₁.queued
      (fun q hq => by rw [h₁.same.size]; exact hslots q (List.mem_cons_of_mem _ hq))
      (fun q hq => hchildren q (List.mem_cons_of_mem _ hq))
    refine ⟨s₂, ?_, h₁.same.trans h₂.same, h₂.queued, List.Subset.trans h₁.kept h₂.kept, ?_, fun f => ?_⟩
    · rw [List.foldlM_cons, hs₁]
      exact hs₂
    · intro q hq hcomputed
      rcases List.mem_cons.mp hq with rfl | hq
      · exact h₂.kept (h₁.added q List.mem_cons_self hcomputed)
      · exact h₂.added q hq (h₁.same.computed.mpr hcomputed)
    · have hfirst := h₁.cost f
      have hrest := h₂.cost f
      simp only [List.map_cons, List.map_nil, List.sum_cons, List.sum_nil] at hfirst hrest ⊢
      omega

end Worklist

/-- The parents of a node have slots of the memo: they were entered before it was last sized. -/
def ParentsInMemo (nodes : TernaryNodes) (memo : TernaryEvaluationMemo) (e : BoolExpr) : Prop :=
  ∀ p ∈ nodes.ternaryParentNodes e, nodes.slot p < memo.size

/-- The variables that take a value, and a memo with its worklist. -/
abbrev PropagationWork := List (Nat × Option Bool) × PropagationState

/-- One step: a variable takes its value, or the front of the worklist is recomputed. -/
def propagationStep (nodes : TernaryNodes) (g : Nat) :
    PropagationWork → Except ReducerFault PropagationWork
  | ((s, value) :: changes, state) => do
    let state ← updateVariableNodes nodes g value state s
    pure (changes, state)
  | ([], memo, []) => pure ([], memo, [])
  | ([], memo, e :: worklist) => do
    let entry ← memo.read nodes e
    let memo := memo.write e { entry with queuedGeneration := 0 }
    let value ← recomputeNodeValue nodes g memo e
    let state ← updateNodeValue nodes g e value (memo, worklist)
    pure ([], state)

/-- Where the next step changes the value of a node, the parents of the node are in the memo. -/
def StepInMemo (nodes : TernaryNodes) (g : Nat) : PropagationWork → Prop
  | ((s, value) :: _, memo, _) =>
    memo.Computed g (.var s) → memo.value (.var s) ≠ value → ParentsInMemo nodes memo (.var s)
  | ([], _, []) => True
  | ([], memo, e :: _) =>
    recomputeNodeValue nodes g (memo.write e { memo.entry e with queuedGeneration := 0 }) e ≠
      .ok (memo.value e) → ParentsInMemo nodes memo e

/-- So it is at every step from there on. -/
def StepsInMemo (nodes : TernaryNodes) (g : Nat) (work : PropagationWork) : Prop :=
  ∀ work', Relation.ReflTransGen (fun w w' => propagationStep nodes g w = .ok w') work work' →
    StepInMemo nodes g work'

/-- The whole propagation: the variables first, then the worklist. -/
def propagateWork (nodes : TernaryNodes) (g fuel : Nat) (work : PropagationWork) :
    Except ReducerFault TernaryEvaluationMemo := do
  let state ← work.1.foldlM (fun state v => updateVariableNodes nodes g v.2 state v.1) work.2
  drainWorklist nodes g fuel state

section Steps
variable {nodes : TernaryNodes} {g : Nat} {work work' : PropagationWork}

theorem StepsInMemo.first (h : StepsInMemo nodes g work) : StepInMemo nodes g work := h work .refl

theorem StepsInMemo.step (h : StepsInMemo nodes g work)
    (hstep : propagationStep nodes g work = .ok work') : StepsInMemo nodes g work' :=
  fun _ hpath => h _ (hpath.head hstep)

theorem propagateWork_variables (fuel s : Nat) (value : Option Bool)
    (changes : List (Nat × Option Bool)) (state : PropagationState) :
    propagateWork nodes g fuel ((s, value) :: changes, state) =
      propagationStep nodes g ((s, value) :: changes, state) >>= propagateWork nodes g fuel := by
  unfold propagateWork propagationStep
  rw [List.foldlM_cons]
  simp only [bind_assoc, pure_bind]

theorem propagateWork_worklist (fuel : Nat) (memo : TernaryEvaluationMemo) (e : BoolExpr)
    (worklist : List BoolExpr) :
    propagateWork nodes g (fuel + 1) ([], memo, e :: worklist) =
      propagationStep nodes g ([], memo, e :: worklist) >>= propagateWork nodes g fuel := by
  unfold propagateWork propagationStep
  simp only [List.foldlM_nil, pure_bind, drainWorklist, bind_assoc]

theorem propagateWork_empty (fuel : Nat) (memo : TernaryEvaluationMemo) :
    propagateWork nodes g fuel ([], memo, []) = .ok memo := by
  cases fuel <;> rfl

/-- An enqueued parent was read. -/
theorem enqueueParent_read {state state' : PropagationState} {p : BoolExpr}
    (h : enqueueParent nodes g state p = .ok state') :
    nodes.slot p < state.1.size ∧ state'.1.size = state.1.size := by
  obtain ⟨entry, hread, hrest⟩ := bind_ok.mp h
  obtain ⟨hslot, -⟩ := read_eq_ok hread
  split at hrest
  · exact ⟨hslot, Except.ok.inj hrest ▸ rfl⟩
  · exact ⟨hslot, Except.ok.inj hrest ▸ rfl⟩

theorem enqueueParents_read {parents : List BoolExpr} {state state' : PropagationState}
    (h : parents.foldlM (enqueueParent nodes g) state = .ok state') :
    (∀ p ∈ parents, nodes.slot p < state.1.size) ∧ state'.1.size = state.1.size := by
  induction parents generalizing state with
  | nil => exact ⟨fun p hp => absurd hp List.not_mem_nil, Except.ok.inj h ▸ rfl⟩
  | cons p parents ih =>
    rw [List.foldlM_cons] at h
    obtain ⟨state₁, hfirst, hrest⟩ := bind_ok.mp h
    obtain ⟨hslot, hsize⟩ := enqueueParent_read hfirst
    obtain ⟨hslots, hsize'⟩ := ih hrest
    rw [hsize] at hslots hsize'
    exact ⟨List.forall_mem_cons.mpr ⟨hslot, hslots⟩, hsize'⟩

/-- A changed value had all parents of its node read. -/
theorem updateNodeValue_read {state state' : PropagationState} {e : BoolExpr}
    {value : Option Bool} (h : updateNodeValue nodes g e value state = .ok state') :
    (state.1.value e ≠ value → ParentsInMemo nodes state.1 e) ∧
      state'.1.size = state.1.size := by
  obtain ⟨entry, hread, hrest⟩ := bind_ok.mp h
  obtain ⟨-, rfl⟩ := read_eq_ok hread
  split at hrest
  · rename_i hsame
    exact ⟨fun hne => absurd hsame hne, Except.ok.inj hrest ▸ rfl⟩
  · obtain ⟨hslots, hsize⟩ := enqueueParents_read hrest
    exact ⟨fun _ => hslots, hsize⟩

theorem updateVariableNodes_read {state state' : PropagationState} {s : Nat}
    {value : Option Bool} (h : updateVariableNodes nodes g value state s = .ok state') :
    (.var s ∈ nodes.exprs → state.1.Computed g (.var s) → state.1.value (.var s) ≠ value →
      ParentsInMemo nodes state.1 (.var s)) ∧ state'.1.size = state.1.size := by
  unfold updateVariableNodes at h
  split at h
  · obtain ⟨entry, hread, hrest⟩ := bind_ok.mp h
    obtain ⟨-, rfl⟩ := read_eq_ok hread
    split at hrest
    · rename_i hother
      exact ⟨fun _ hcomputed => absurd hcomputed hother, Except.ok.inj hrest ▸ rfl⟩
    · obtain ⟨hparents, hsize⟩ := updateNodeValue_read hrest
      exact ⟨fun _ _ => hparents, hsize⟩
  · rename_i hnot
    exact ⟨fun hmem => absurd hmem hnot, Except.ok.inj h ▸ rfl⟩

theorem propagationStep_size (h : propagationStep nodes g work = .ok work') :
    work'.2.1.size = work.2.1.size := by
  obtain ⟨changes, memo, worklist⟩ := work
  match changes, worklist with
  | (s, value) :: changes, worklist =>
    obtain ⟨state, hrun, hafter⟩ := bind_ok.mp h
    obtain rfl := Except.ok.inj hafter
    exact (updateVariableNodes_read hrun).2
  | [], [] =>
    obtain rfl := Except.ok.inj h
    rfl
  | [], e :: worklist =>
    obtain ⟨entry, -, hrest⟩ := bind_ok.mp h
    obtain ⟨value, -, hrest⟩ := bind_ok.mp hrest
    obtain ⟨state, hupdate, hafter⟩ := bind_ok.mp hrest
    obtain rfl := Except.ok.inj hafter
    exact (updateNodeValue_read hupdate).2

/-- Every step stays inside a memo with a slot for every node. -/
theorem stepsInMemo_of_length_le (hwf : nodes.WellFormed)
    (h : nodes.exprs.length ≤ work.2.1.size) : StepsInMemo nodes g work := by
  intro work' hpath
  have hlength : nodes.exprs.length ≤ work'.2.1.size := by
    induction hpath with
    | refl => exact h
    | tail _ hstep ih => rwa [propagationStep_size hstep]
  have hparents : ∀ e, ParentsInMemo nodes work'.2.1 e := by
    intro e p hp
    have hmem := (hwf.links _ (TernaryNodes.mem_ternaryParentNodes.mp hp)).1
    exact Nat.lt_of_lt_of_le (List.idxOf_lt_length_of_mem hmem) hlength
  obtain ⟨changes, memo, worklist⟩ := work'
  match changes, worklist with
  | _ :: _, _ => exact fun _ _ => hparents _
  | [], [] => trivial
  | [], e :: _ => exact fun _ => hparents e

end Steps

/-- The invariant of a memo and its worklist: a node that is neither pending nor queued
has the value that its children give it. -/
structure Propagating (g : Nat) (region : BoolExpr → Prop) (leaf : Nat → Option Bool)
    (pending : BoolExpr → Prop) (state : PropagationState) : Prop where
  known : ∀ e, state.1.Computed g e → region e
  closed : ∀ e, state.1.Computed g e → ∀ c ∈ e.children, state.1.Computed g c
  settled : (ternaryEquations leaf).Settled (state.1.Computed g)
    (fun e => pending e ∨ e ∈ state.2) state.1.value
  queued : Queued g state

theorem le_foldr_max {heights : List Nat} {n : Nat} (h : n ∈ heights) :
    n ≤ heights.foldr max 0 := by
  induction heights with
  | nil => cases h
  | cons first rest ih =>
    rw [List.foldr_cons]
    rcases List.mem_cons.mp h with rfl | h
    · exact Nat.le_max_left _ _
    · exact (ih h).trans (Nat.le_max_right _ _)

/-- The weight of a node of the table. -/
def nodeLoad (nodes : TernaryNodes) : BoolExpr → Nat :=
  (ternaryEquations fun _ => none).load nodes.ternaryParentNodes
    ((nodes.exprs.map height).foldr max 0)

theorem parents_nodeLoad_lt {nodes : TernaryNodes} (h : nodes.WellFormed) (e : BoolExpr) :
    ((nodes.ternaryParentNodes e).map (nodeLoad nodes)).sum < nodeLoad nodes e := by
  apply Equations.parents_load_lt
  intro p hp
  obtain ⟨hmem, hchild⟩ := h.links _ (TernaryNodes.mem_ternaryParentNodes.mp hp)
  refine ⟨height_lt_of_mem_children hchild, ?_⟩
  exact le_foldr_max (List.mem_map.mpr ⟨p, hmem, rfl⟩)

/-- Steps that empty any worklist. -/
def drainFuel (nodes : TernaryNodes) : Nat := ∑ e ∈ nodes.exprs.toFinset, nodeLoad nodes e

section Update
variable {nodes : TernaryNodes} {size g : Nat} {region : BoolExpr → Prop}
  {leaf : Nat → Option Bool}

/-- One update: the node is no longer pending, and pays for the parents it queues. -/
theorem updateNodeValue_spec {pending : BoolExpr → Prop} {state : PropagationState}
    (hd : MemoDomain nodes size region) (hsize : state.1.size = size)
    (h : Propagating g region leaf pending state) {e : BoolExpr}
    (he : state.1.Computed g e)
    (hparents : state.1.value e ≠ ternaryStep leaf state.1.value e →
      ParentsInMemo nodes state.1 e) :
    ∃ state', updateNodeValue nodes g e (ternaryStep leaf state.1.value e) state = .ok state' ∧
      Propagating g region leaf (fun a => pending a ∧ a ≠ e) state' ∧
      state'.1.size = size ∧ (∀ a, state'.1.Computed g a ↔ state.1.Computed g a) ∧
      (state'.2.map (nodeLoad nodes)).sum < (state.2.map (nodeLoad nodes)).sum +
        nodeLoad nodes e := by
  have hregion := h.known e he
  have hrange : nodes.slot e < state.1.size := hsize ▸ hd.inRange e hregion
  have hload := parents_nodeLoad_lt hd.wellFormed e
  have hupdate := h.settled.update e
  have hentry : (state.1.entry e).value = state.1.value e := rfl
  unfold updateNodeValue
  rw [read_ok hrange]
  simp only [bind, Except.bind, hentry]
  by_cases hsame : state.1.value e = ternaryStep leaf state.1.value e
  · rw [if_pos hsame]
    refine ⟨state, rfl, ⟨h.known, h.closed, ?_, h.queued⟩, hsize, fun _ => Iff.rfl, ?_⟩
    · intro a ha hnew
      by_cases hae : a = e
      · rw [hae]
        exact hsame
      · exact h.settled a ha fun hor => hnew (hor.imp_left fun hp => ⟨hp, hae⟩)
    · omega
  · rw [if_neg hsame]
    have hslots := hparents hsame
    rw [show (ternaryEquations leaf).step = ternaryStep leaf from rfl] at hupdate
    generalize ternaryStep leaf state.1.value e = v at hsame hupdate ⊢
    generalize hm : state.1.write e { state.1.entry e with value := v } = memo
    have hgeneration : ∀ a, memo.Computed g a ↔ state.1.Computed g a := by
      intro a
      rw [← hm, Computed, write_value_generation]
      rfl
    have hvalue : memo.value = Function.update state.1.value e v := by
      rw [← hm, write_value_value]
    have hqueued : Queued g (memo, state.2) := by
      refine ⟨?_, fun a => ?_, h.queued.nodup, fun a ha => ?_, h.queued.operators⟩
      · rw [← hm]
        exact h.queued.bounded.write e (h.queued.bounded e).1 (h.queued.bounded e).2
      · rw [← hm, write_value_queued]
        exact h.queued.stamped a
      · exact (hgeneration a).mpr (h.queued.computed a ha)
    have hmsize : memo.size = size := by
      rw [← hm]
      exact hsize
    obtain ⟨state', hrun, henqueued⟩ := enqueueParents_spec nodes
      (nodes.ternaryParentNodes e) hqueued
      (fun p hp => by rw [hmsize, ← hsize]; exact hslots p hp)
      (fun p hp => List.ne_nil_of_mem
        (hd.wellFormed.links _ (TernaryNodes.mem_ternaryParentNodes.mp hp)).2)
    have hcomputed : ∀ a, state'.1.Computed g a ↔ state.1.Computed g a :=
      fun a => henqueued.same.computed.trans (hgeneration a)
    have hvalue' : state'.1.value = Function.update state.1.value e v := by
      rw [← hvalue]
      exact funext henqueued.same.value
    refine ⟨state', hrun, ⟨?_, ?_, ?_, henqueued.queued⟩, ?_, hcomputed, ?_⟩
    · intro a ha
      exact h.known a ((hcomputed a).mp ha)
    · intro a ha c hc
      exact (hcomputed c).mpr (h.closed a ((hcomputed a).mp ha) c hc)
    · rw [hvalue']
      intro a ha hnew
      have ha := (hcomputed a).mp ha
      apply hupdate a ha
      rintro (⟨hpending | hold, hae⟩ | ⟨-, hchild⟩)
      · exact hnew (.inl ⟨hpending, hae⟩)
      · exact hnew (.inr (henqueued.kept hold))
      · -- a computed node is in the table, which links it to its children
        have hlink := (hd.wellFormed.children a (hd.mem a (h.known a ha)) List.not_mem_nil
          e hchild).2
        exact hnew (.inr (henqueued.added a (TernaryNodes.mem_ternaryParentNodes.mpr hlink)
          ((hgeneration a).mpr ha)))
    · rw [henqueued.same.size, hmsize]
    · have hcost : (state'.2.map (nodeLoad nodes)).sum ≤ (state.2.map (nodeLoad nodes)).sum +
          ((nodes.ternaryParentNodes e).map (nodeLoad nodes)).sum := henqueued.cost _
      omega

/-- A queued node may be recomputed: its children are evaluated. -/
theorem recomputeNodeValue_ok {memo : TernaryEvaluationMemo} {e : BoolExpr}
    (hrange : ∀ c ∈ e.children, nodes.slot c < memo.size)
    (hcomputed : ∀ c ∈ e.children, memo.Computed g c) (hoperator : e.children ≠ []) :
    recomputeNodeValue nodes g memo e = .ok (ternaryStep leaf memo.value e) := by
  have hvalue : ∀ c ∈ e.children, evaluatedValue nodes g memo c = .ok (memo.value c) := by
    intro c hc
    unfold evaluatedValue
    rw [read_ok (hrange c hc)]
    exact congrArg Except.ok (if_pos (hcomputed c hc))
  cases e with
  | var id => exact absurd rfl hoperator
  | not a =>
    have ha := hvalue a (by simp [children])
    simp only [recomputeNodeValue, ha, bind, Except.bind]
    rfl
  | and a b | or a b | xor a b =>
    have ha := hvalue a (by simp [children])
    have hb := hvalue b (by simp [children])
    simp only [recomputeNodeValue, ha, hb, bind, Except.bind]
    rfl

/-- The front of the worklist leaves it and is pending. -/
theorem Propagating.pop {memo : TernaryEvaluationMemo} {e : BoolExpr} {rest : List BoolExpr}
    (hg : 0 < g)
    (h : Propagating g region leaf (fun _ => False) (memo, e :: rest)) :
    Propagating g region leaf (· = e)
      (memo.write e { memo.entry e with queuedGeneration := 0 }, rest) := by
  have hsame := memo.sameValues_write_queued e 0
  have hvalue : (memo.write e { memo.entry e with queuedGeneration := 0 }).value = memo.value :=
    funext hsame.value
  have hnodup := List.nodup_cons.mp h.queued.nodup
  refine ⟨fun a ha => h.known a (hsame.computed.mp ha), fun a ha c hc => ?_, ?_,
    ⟨?_, ?_, ?_, ?_, ?_⟩⟩
  · exact hsame.computed.mpr (h.closed a (hsame.computed.mp ha) c hc)
  · rw [hvalue]
    intro a ha hnew
    apply h.settled a (hsame.computed.mp ha)
    rintro (hfalse | hqueued)
    · exact hfalse
    · exact hnew (List.mem_cons.mp hqueued)
  · exact h.queued.bounded.write e (h.queued.bounded e).1 (Nat.zero_le g)
  · intro a
    by_cases ha : a = e
    · subst ha
      simp only [write_entry_self, hnodup.1, iff_false]
      omega
    · have hstamped := h.queued.stamped a
      simp only [List.mem_cons, ha, false_or] at hstamped
      rw [write_entry_of_ne ha, hstamped]
  · exact hnodup.2
  · exact fun a ha => hsame.computed.mpr (h.queued.computed a (List.mem_cons_of_mem _ ha))
  · exact fun a ha => h.queued.operators a (List.mem_cons_of_mem _ ha)

/-- The loop empties the worklist. -/
theorem drainWorklist_spec (hd : MemoDomain nodes size region) (hg : 0 < g) (fuel : Nat)
    {memo : TernaryEvaluationMemo} {worklist : List BoolExpr} (hsize : memo.size = size)
    (h : Propagating g region leaf (fun _ => False) (memo, worklist))
    (hsteps : StepsInMemo nodes g ([], memo, worklist))
    (hfuel : (worklist.map (nodeLoad nodes)).sum ≤ fuel) :
    ∃ memo', drainWorklist nodes g fuel (memo, worklist) = .ok memo' ∧
      Propagating g region leaf (fun _ => False) (memo', []) ∧ memo'.size = size := by
  induction fuel generalizing memo worklist with
  | zero =>
    cases worklist with
    | nil => exact ⟨memo, rfl, h, hsize⟩
    | cons e rest =>
      have hload := parents_nodeLoad_lt hd.wellFormed e
      simp only [List.map_cons, List.sum_cons] at hfuel
      omega
  | succ fuel ih =>
    cases worklist with
    | nil => exact ⟨memo, rfl, h, hsize⟩
    | cons e rest =>
      have he : memo.Computed g e := h.queued.computed e List.mem_cons_self
      have hrange : nodes.slot e < memo.size := hsize ▸ hd.inRange e (h.known e he)
      have hinMemo : recomputeNodeValue nodes g
          (memo.write e { memo.entry e with queuedGeneration := 0 }) e ≠ .ok (memo.value e) →
            ParentsInMemo nodes memo e := hsteps.first
      have hpop := h.pop hg
      have hsame := memo.sameValues_write_queued e 0
      generalize hm : memo.write e { memo.entry e with queuedGeneration := 0 } = memo₁
        at hpop hsame hinMemo
      have he₁ : memo₁.Computed g e := hsame.computed.mpr he
      have hsize₁ : memo₁.size = size := hsame.size.trans hsize
      have hrecompute : recomputeNodeValue nodes g memo₁ e = .ok (ternaryStep leaf memo₁.value e) :=
        recomputeNodeValue_ok
          (fun c hc => by
            rw [hsize₁]
            exact hd.inRange c (hd.closed e (h.known e he) c hc))
          (hpop.closed e he₁) (h.queued.operators e List.mem_cons_self)
      have hparents : memo₁.value e ≠ ternaryStep leaf memo₁.value e →
          ParentsInMemo nodes memo₁ e := by
        intro hchanged p hp
        rw [hsame.size]
        refine hinMemo (fun hvalue => hchanged ?_) p hp
        rw [hrecompute] at hvalue
        exact (hsame.value e).trans (Except.ok.inj hvalue).symm
      obtain ⟨⟨memo₂, worklist₂⟩, hrun, hprop, hsize₂, -, hcost⟩ :=
        updateNodeValue_spec hd hsize₁ hpop he₁ hparents
      have hdone : Propagating g region leaf (fun _ => False) (memo₂, worklist₂) :=
        { hprop with
          settled := hprop.settled.mono fun a _ hor => hor.imp_left fun hp => hp.2 hp.1 }
      have hstep : propagationStep nodes g ([], memo, e :: rest) = .ok ([], memo₂, worklist₂) := by
        simp only [propagationStep, read_ok hrange, hm, hrecompute, hrun, bind, Except.bind]
        rfl
      simp only [List.map_cons, List.sum_cons] at hfuel hcost
      obtain ⟨memo', hdrain, hfinal, hsize'⟩ := ih hsize₂ hdone (hsteps.step hstep) (by omega)
      refine ⟨memo', ?_, hfinal, hsize'⟩
      unfold drainWorklist
      simp only [read_ok hrange, hm, hrecompute, hrun, hdrain, bind, Except.bind]

/-- The variable of one local symbol takes its new value. -/
theorem updateVariableNodes_spec {pending : BoolExpr → Prop} {state : PropagationState}
    (hd : MemoDomain nodes size region) (hsize : state.1.size = size)
    (h : Propagating g region leaf pending state) {s : Nat} (hs : region (.var s))
    (hparents : state.1.Computed g (.var s) → state.1.value (.var s) ≠ leaf s →
      ParentsInMemo nodes state.1 (.var s)) :
    ∃ state', updateVariableNodes nodes g (leaf s) state s = .ok state' ∧
      Propagating g region leaf (fun a => pending a ∧ a ≠ .var s) state' ∧
      state'.1.size = size := by
  unfold updateVariableNodes
  rw [if_pos (hd.mem _ hs), read_ok (hsize ▸ hd.inRange _ hs)]
  simp only [bind, Except.bind]
  split
  · rename_i hother
    have hfewer : (ternaryEquations leaf).Settled (state.1.Computed g)
        (fun a => (pending a ∧ a ≠ .var s) ∨ a ∈ state.2) state.1.value := by
      apply h.settled.mono
      intro a ha hor
      apply hor.imp_left
      intro hpending
      refine ⟨hpending, fun has => ?_⟩
      rw [has] at ha
      exact hother ha
    exact ⟨state, rfl, { h with settled := hfewer }, hsize⟩
  · rename_i hcomputed
    have hcomputed := not_not.mp hcomputed
    obtain ⟨state', hrun, hprop, hsize', -, -⟩ :=
      updateNodeValue_spec hd hsize h hcomputed (hparents hcomputed)
    exact ⟨state', hrun, hprop, hsize'⟩

/-- By induction on the changes: those still to come are pending. -/
theorem updateVariables_spec (hd : MemoDomain nodes size region)
    (changes : List (Nat × Option Bool))
    (hvariables : ∀ v ∈ changes, region (.var v.1) ∧ v.2 = leaf v.1) {state : PropagationState}
    (hsize : state.1.size = size)
    (h : Propagating g region leaf (fun e => ∃ v ∈ changes, e = .var v.1) state)
    (hsteps : StepsInMemo nodes g (changes, state)) :
    ∃ state', changes.foldlM (fun state v => updateVariableNodes nodes g v.2 state v.1) state =
        .ok state' ∧
      Propagating g region leaf (fun _ => False) state' ∧ state'.1.size = size ∧
      StepsInMemo nodes g ([], state') := by
  induction changes generalizing state with
  | nil =>
    refine ⟨state, rfl, { h with settled := h.settled.mono fun a _ hor => ?_ }, hsize, hsteps⟩
    exact hor.imp_left fun hv => hv.elim fun v hv => absurd hv.1 List.not_mem_nil
  | cons v changes ih =>
    obtain ⟨s, value⟩ := v
    obtain ⟨⟨hs, hvalue⟩, hrest⟩ := List.forall_mem_cons.mp hvariables
    obtain rfl : value = leaf s := hvalue
    obtain ⟨state₁, hrun, hprop, hsize₁⟩ :=
      updateVariableNodes_spec hd hsize h hs hsteps.first
    have hnext : Propagating g region leaf (fun e => ∃ v ∈ changes, e = .var v.1) state₁ := by
      refine { hprop with settled := hprop.settled.mono fun a _ hor => hor.imp_left ?_ }
      rintro ⟨⟨v, hv, rfl⟩, hne⟩
      rcases List.mem_cons.mp hv with rfl | hv
      · exact absurd rfl hne
      · exact ⟨v, hv, rfl⟩
    have hstep : propagationStep nodes g ((s, leaf s) :: changes, state) =
        .ok (changes, state₁) := by
      simp only [propagationStep, hrun, bind, Except.bind]
      rfl
    obtain ⟨state', hfold, hfinal, hsize', hsteps'⟩ := ih hrest hsize₁ hnext (hsteps.step hstep)
    refine ⟨state', ?_, hfinal, hsize', hsteps'⟩
    rw [List.foldlM_cons, hrun]
    exact hfold

/-- A propagation that ends reads the parents where its first step changes a value. -/
theorem stepInMemo_of_ok {fuel : Nat} {work : PropagationWork} {memo : TernaryEvaluationMemo}
    (hmem : ∀ v ∈ work.1, .var v.1 ∈ nodes.exprs)
    (h : propagateWork nodes g fuel work = .ok memo) : StepInMemo nodes g work := by
  obtain ⟨changes, memo₀, worklist⟩ := work
  match changes, worklist, fuel with
  | (s, value) :: changes, worklist, fuel =>
    rw [propagateWork_variables] at h
    obtain ⟨_, hstep, -⟩ := bind_ok.mp h
    obtain ⟨state', hrun, -⟩ := bind_ok.mp hstep
    exact (updateVariableNodes_read hrun).1 (hmem _ List.mem_cons_self)
  | [], [], fuel => trivial
  | [], e :: worklist, 0 => cases h
  | [], e :: worklist, fuel + 1 =>
    rw [propagateWork_worklist] at h
    obtain ⟨_, hstep, -⟩ := bind_ok.mp h
    obtain ⟨entry, hread, hrest⟩ := bind_ok.mp hstep
    obtain ⟨-, rfl⟩ := read_eq_ok hread
    obtain ⟨value, hrecompute, hrest⟩ := bind_ok.mp hrest
    obtain ⟨state, hupdate, -⟩ := bind_ok.mp hrest
    intro hchanged
    have hsame := memo₀.sameValues_write_queued e 0
    refine (updateNodeValue_read hupdate).1 fun hvalue => hchanged ?_
    rw [hrecompute, ← hvalue]
    exact congrArg Except.ok (hsame.value e)

/-- What follows the first step ends too. -/
theorem propagateWork_step {fuel : Nat} {work work' : PropagationWork}
    {memo : TernaryEvaluationMemo} (hmem : ∀ v ∈ work.1, .var v.1 ∈ nodes.exprs)
    (h : propagateWork nodes g fuel work = .ok memo)
    (hstep : propagationStep nodes g work = .ok work') :
    (∀ v ∈ work'.1, .var v.1 ∈ nodes.exprs) ∧
      ∃ fuel' memo', propagateWork nodes g fuel' work' = .ok memo' := by
  obtain ⟨changes, memo₀, worklist⟩ := work
  match changes, worklist, fuel with
  | (s, value) :: changes, worklist, fuel =>
    rw [propagateWork_variables, hstep] at h
    obtain ⟨state', -, hafter⟩ := bind_ok.mp hstep
    obtain rfl := Except.ok.inj hafter
    exact ⟨fun v hv => hmem v (List.mem_cons_of_mem _ hv), fuel, memo, h⟩
  | [], [], fuel =>
    obtain rfl := Except.ok.inj hstep
    exact ⟨hmem, fuel, memo, h⟩
  | [], e :: worklist, 0 => cases h
  | [], e :: worklist, fuel + 1 =>
    rw [propagateWork_worklist, hstep] at h
    obtain ⟨entry, -, hrest⟩ := bind_ok.mp hstep
    obtain ⟨value, -, hrest⟩ := bind_ok.mp hrest
    obtain ⟨state, -, hafter⟩ := bind_ok.mp hrest
    obtain rfl := Except.ok.inj hafter
    exact ⟨fun v hv => absurd hv List.not_mem_nil, fuel, memo, h⟩

/-- By induction on the steps: all of them stay inside the memo. -/
theorem stepsInMemo_of_ok {fuel : Nat} {work : PropagationWork} {memo : TernaryEvaluationMemo}
    (hmem : ∀ v ∈ work.1, .var v.1 ∈ nodes.exprs)
    (h : propagateWork nodes g fuel work = .ok memo) : StepsInMemo nodes g work := by
  intro work' hpath
  induction hpath using Relation.ReflTransGen.head_induction_on generalizing fuel memo with
  | refl => exact stepInMemo_of_ok hmem h
  | head hstep _ ih =>
    obtain ⟨hmem', fuel', memo', h'⟩ := propagateWork_step hmem h hstep
    exact ih hmem' h'

/-- The propagation ends exactly when every step of it stays inside the memo; then nothing is
left to propagate. -/
theorem propagateWork_ok_iff (hd : MemoDomain nodes size region) (hg : 0 < g) {fuel : Nat}
    (hfuel : drainFuel nodes ≤ fuel) {changes : List (Nat × Option Bool)}
    (hvariables : ∀ v ∈ changes, region (.var v.1) ∧ v.2 = leaf v.1) {state : PropagationState}
    (hsize : state.1.size = size)
    (h : Propagating g region leaf (fun e => ∃ v ∈ changes, e = .var v.1) state) :
    ((∃ memo, propagateWork nodes g fuel (changes, state) = .ok memo) ↔
      StepsInMemo nodes g (changes, state)) ∧
    ∀ memo, propagateWork nodes g fuel (changes, state) = .ok memo →
      Propagating g region leaf (fun _ => False) (memo, []) ∧ memo.size = size := by
  have hruns : StepsInMemo nodes g (changes, state) →
      ∃ memo, propagateWork nodes g fuel (changes, state) = .ok memo ∧
        Propagating g region leaf (fun _ => False) (memo, []) ∧ memo.size = size := by
    intro hsteps
    obtain ⟨⟨memo, worklist⟩, hrun, hprop, hsize', hsteps'⟩ :=
      updateVariables_spec hd changes hvariables hsize h hsteps
    have hcost : (worklist.map (nodeLoad nodes)).sum ≤ fuel := by
      refine (Equations.sum_load_le hprop.queued.nodup fun e he => ?_).trans hfuel
      exact hd.mem e (hprop.known e (hprop.queued.computed e he))
    obtain ⟨memo', hdrain, hfinal, hsize''⟩ :=
      drainWorklist_spec hd hg fuel hsize' hprop hsteps' hcost
    refine ⟨memo', ?_, hfinal, hsize''⟩
    unfold propagateWork
    rw [hrun]
    exact hdrain
  have hof : ∀ memo, propagateWork nodes g fuel (changes, state) = .ok memo →
      StepsInMemo nodes g (changes, state) :=
    fun memo hrun => stepsInMemo_of_ok (fun v hv => hd.mem _ (hvariables v hv).1) hrun
  refine ⟨⟨fun ⟨memo, hrun⟩ => hof memo hrun, fun hsteps => ?_⟩, fun memo hrun => ?_⟩
  · obtain ⟨memo, hrun, -⟩ := hruns hsteps
    exact ⟨memo, hrun⟩
  · obtain ⟨memo', hrun', hprop, hsize'⟩ := hruns (hof memo hrun)
    rw [hrun] at hrun'
    obtain rfl := Except.ok.inj hrun'
    exact ⟨hprop, hsize'⟩

/-! ## Evaluation of a root -/

/-- A memo with nothing to propagate. -/
structure MemoExact (g : Nat) (region : BoolExpr → Prop) (leaf : Nat → Option Bool)
    (memo : TernaryEvaluationMemo) : Prop where
  known : ∀ e, memo.Computed g e → region e
  closed : ∀ e, memo.Computed g e → ∀ c ∈ e.children, memo.Computed g c
  value : ∀ e, memo.Computed g e → memo.value e = e.ternaryEval leaf
  unqueued : ∀ e, (memo.entry e).queuedGeneration ≠ g
  bounded : memo.Bounded g

/-- A memo of no root holds nothing of this generation. -/
theorem MemoExact.of_no_region {memo : TernaryEvaluationMemo} {leaf' : Nat → Option Bool}
    (h : MemoExact g region leaf memo) (hnone : ∀ e, ¬ region e) : MemoExact g region leaf' memo :=
  { h with value := fun e he => absurd (h.known e he) (hnone e) }

theorem Propagating.exact {memo : TernaryEvaluationMemo}
    (h : Propagating g region leaf (fun _ => False) (memo, [])) :
    MemoExact g region leaf memo where
  known := h.known
  closed := h.closed
  value := by
    have hsettled : (ternaryEquations leaf).Settled (memo.Computed g) (fun _ => False) memo.value :=
      h.settled.mono fun a _ hor => hor.elim id List.not_mem_nil
    have hclosed : (ternaryEquations leaf).Closed (memo.Computed g) := h.closed
    exact hsettled.unique hclosed (ternaryEval_solves leaf)
  unqueued e he := List.not_mem_nil ((h.queued.stamped e).mp he)
  bounded := h.queued.bounded

/-- Before the values are propagated: a leaf may have changed where its variable is pending. -/
theorem MemoExact.propagating {memo : TernaryEvaluationMemo} {before : Nat → Option Bool}
    (h : MemoExact g region before memo)
    {pending : BoolExpr → Prop}
    (hpending : ∀ s, region (.var s) → before s ≠ leaf s → pending (.var s)) :
    Propagating g region leaf pending (memo, []) where
  known := h.known
  closed := h.closed
  settled a ha hnot := by
    have hchildren : ∀ c ∈ a.children, memo.value c = c.ternaryEval before :=
      fun c hc => h.value c (h.closed a ha c hc)
    change memo.value a = ternaryStep leaf memo.value a
    rw [h.value a ha, ternaryStep_congr hchildren]
    cases a with
    | var s =>
      by_contra hne
      exact hnot (.inl (hpending s (h.known _ ha) hne))
    | not a => rfl
    | and a b | or a b | xor a b => rfl
  queued := by
    refine ⟨h.bounded, fun e => ?_, List.nodup_nil, fun e he => absurd he List.not_mem_nil,
      fun e he => absurd he List.not_mem_nil⟩
    simp [h.unqueued e]

/-- What the evaluation of a node leaves. -/
structure Evaluated (g : Nat) (region : BoolExpr → Prop) (leaf : Nat → Option Bool)
    (memo memo' : TernaryEvaluationMemo) : Prop where
  exact : MemoExact g region leaf memo'
  size : memo'.size = memo.size
  more : ∀ e, memo.Computed g e → memo'.Computed g e

theorem MemoExact.insert {memo : TernaryEvaluationMemo} {e : BoolExpr}
    (h : MemoExact g region leaf memo) (he : region e)
    (hchildren : ∀ c ∈ e.children, memo.Computed g c) :
    let entry := { memo.entry e with generation := g, value := e.ternaryEval leaf }
    Evaluated g region leaf memo (memo.write e entry) ∧ (memo.write e entry).Computed g e := by
  intro entry
  have hself : (memo.write e entry).Computed g e := by
    unfold Computed
    rw [write_entry_self]
  have hother : ∀ a, a ≠ e → ((memo.write e entry).Computed g a ↔ memo.Computed g a) := by
    intro a ha
    unfold Computed
    rw [write_entry_of_ne ha]
  have hmore : ∀ a, memo.Computed g a → (memo.write e entry).Computed g a := by
    intro a ha
    by_cases hae : a = e
    · rwa [hae]
    · exact (hother a hae).mpr ha
  have hbounded : (memo.write e entry).Bounded g :=
    h.bounded.write e (Nat.le_refl g) (h.bounded e).2
  refine ⟨⟨⟨fun a ha => ?_, fun a ha c hc => ?_, fun a ha => ?_, fun a => ?_, hbounded⟩, rfl,
    hmore⟩, hself⟩ <;> by_cases hae : a = e
  · rwa [hae]
  · exact h.known a ((hother a hae).mp ha)
  · rw [hae] at hc
    exact hmore c (hchildren c hc)
  · exact hmore c (h.closed a ((hother a hae).mp ha) c hc)
  · rw [hae, TernaryEvaluationMemo.value, write_entry_self]
  · rw [TernaryEvaluationMemo.value, write_entry_of_ne hae]
    exact h.value a ((hother a hae).mp ha)
  · rw [hae, write_entry_self]
    exact h.unqueued e
  · rw [write_entry_of_ne hae]
    exact h.unqueued a

theorem memoized_spec {e : BoolExpr}
    {compute : TernaryEvaluationMemo → Except ReducerFault (Option Bool × TernaryEvaluationMemo)}
    {memo : TernaryEvaluationMemo} (hslot : nodes.slot e < memo.size)
    (h : MemoExact g region leaf memo) (he : region e)
    (hcompute : ∃ memo', compute memo = .ok (e.ternaryEval leaf, memo') ∧
      Evaluated g region leaf memo memo' ∧ ∀ c ∈ e.children, memo'.Computed g c) :
    ∃ memo', memoized nodes g e compute memo = .ok (e.ternaryEval leaf, memo') ∧
      Evaluated g region leaf memo memo' ∧ memo'.Computed g e := by
  unfold memoized
  rw [read_ok hslot]
  simp only [bind, Except.bind]
  split
  · rename_i hcomputed
    refine ⟨memo, ?_, ⟨h, rfl, fun _ ha => ha⟩, hcomputed⟩
    rw [← h.value e hcomputed]
    rfl
  · obtain ⟨memo', hrun, heval, hchildren⟩ := hcompute
    obtain ⟨hinsert, hself⟩ := heval.exact.insert he hchildren
    refine ⟨_, ?_, ⟨hinsert.exact, hinsert.size.trans heval.size,
      fun a ha => hinsert.more a (heval.more a ha)⟩, hself⟩
    rw [hrun]
    rfl

/-- Both operands are evaluated. -/
theorem evaluateOperands_spec {left right : BoolExpr}
    {operator : Option Bool → Option Bool → Option Bool}
    {runLeft runRight : TernaryEvaluationMemo →
      Except ReducerFault (Option Bool × TernaryEvaluationMemo)}
    {memo : TernaryEvaluationMemo}
    (hleft : ∃ memo', runLeft memo = .ok (left.ternaryEval leaf, memo') ∧
      Evaluated g region leaf memo memo' ∧ memo'.Computed g left)
    (hright : ∀ memo', Evaluated g region leaf memo memo' →
      ∃ memo'', runRight memo' = .ok (right.ternaryEval leaf, memo'') ∧
        Evaluated g region leaf memo' memo'' ∧ memo''.Computed g right) :
    ∃ memo', evaluateOperands operator runLeft runRight memo =
        .ok (operator (left.ternaryEval leaf) (right.ternaryEval leaf), memo') ∧
      Evaluated g region leaf memo memo' ∧ ∀ c ∈ [left, right], memo'.Computed g c := by
  obtain ⟨memo₁, hrun₁, h₁, hcomputed₁⟩ := hleft
  obtain ⟨memo₂, hrun₂, h₂, hcomputed₂⟩ := hright memo₁ h₁
  refine ⟨memo₂, ?_, ⟨h₂.exact, h₂.size.trans h₁.size, fun a ha => h₂.more a (h₁.more a ha)⟩, ?_⟩
  · simp only [evaluateOperands, hrun₁, hrun₂, bind, Except.bind]
    rfl
  · intro c hc
    simp only [List.mem_cons, List.not_mem_nil, or_false] at hc
    rcases hc with rfl | rfl
    · exact h₂.more _ hcomputed₁
    · exact hcomputed₂

/-- By induction on the formula: the memo holds the value afterwards. -/
theorem evaluate_spec (hd : MemoDomain nodes size region) (e : BoolExpr)
    (he : region e) {memo : TernaryEvaluationMemo} (hsize : memo.size = size)
    (h : MemoExact g region leaf memo) :
    ∃ memo', evaluate nodes g leaf e memo = .ok (e.ternaryEval leaf, memo') ∧
      Evaluated g region leaf memo memo' ∧ memo'.Computed g e := by
  have hslot : nodes.slot e < memo.size := hsize ▸ hd.inRange e he
  induction e generalizing memo with
  | var id =>
    unfold evaluate
    apply memoized_spec hslot h he
    exact ⟨memo, rfl, ⟨h, rfl, fun _ ha => ha⟩, fun c hc => absurd hc List.not_mem_nil⟩
  | not a ih =>
    have ha : region a := hd.closed _ he a (by simp [children])
    obtain ⟨memo', hrun, heval, hcomputed⟩ := ih ha hsize h (hsize ▸ hd.inRange a ha)
    unfold evaluate
    apply memoized_spec hslot h he
    refine ⟨memo', ?_, heval, fun c hc => ?_⟩
    · simp only [hrun, bind, Except.bind]
      rfl
    · rwa [List.mem_singleton.mp hc]
  | and a b iha ihb | or a b iha ihb | xor a b iha ihb =>
    have ha : region a := hd.closed _ he a (by simp [children])
    have hb : region b := hd.closed _ he b (by simp [children])
    unfold evaluate
    apply memoized_spec hslot h he
    apply evaluateOperands_spec (iha ha hsize h (hsize ▸ hd.inRange a ha))
    intro memo' heval
    have hsize' : memo'.size = size := heval.size.trans hsize
    exact ihb hb hsize' heval.exact (hsize' ▸ hd.inRange b hb)

end Update

end KeplerFormal
