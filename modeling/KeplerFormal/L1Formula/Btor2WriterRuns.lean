import KeplerFormal.Core.Fallible
import KeplerFormal.L1Formula.Btor2WriterSound

/-!
# Sequences of calls of the BTOR2 writer (`src/formal/Btor2Writer.cpp`)

* `Writes`: a call that writes one line; one lemma for each of them.
* `Extends`, `expression_spec`: what `expression` writes when it is accepted, and what it
  leaves when it is rejected.
* `after_spec`: the step lemma, `runCalls_inv`: the run lemma.
* `btor2Writer_exact`: every sequence of calls, accepted or rejected.
-/
namespace KeplerFormal.Btor2Writer

open Core

namespace Writer

/-! ## Calls that write one line -/

def Writes (w : Writer) (body : LineBody) (run : Nat × Writer) : Prop :=
  run.1 = w.nodes.length ∧ ∃ mark, Acceptable w body mark ∧ run.2 = w.push body mark

section Lines
variable {w : Writer} {body : LineBody} {run : Nat × Writer}

theorem emit_ok (h : w.emit body = .ok run) :
    run = (w.nodes.length,
      { w with
        doc := w.doc ++ [.node w.nodes.length body]
        nodes := w.nodes ++ [body.kind]
        dependsOnInput := w.dependsOnInput ++ [decide (body.kind = .input)] }) := by
  unfold emit at h
  split at h
  · cases h
  · exact (Except.ok.inj h).symm

theorem acceptable_leaf {mark : Bool} (hvalues : body.valueRefs = [])
    (hstates : body.stateRefs = []) (hinput : body.kind = .input → mark = true)
    (hconst : ∀ b, body = .const b → w.constantOf b = 0) : Acceptable w body mark := by
  have hnone : ∀ r, r ∉ body.valueRefs := fun r => by
    rw [hvalues]
    exact List.not_mem_nil
  refine ⟨fun r hr => absurd hr (hnone r), fun r hr => ?_, hinput,
    fun r hr => absurd (operands_subset body r hr) (hnone r), ?_, ?_, hconst⟩
  · rw [hstates] at hr
    exact absurd hr List.not_mem_nil
  · intro target value heq
    rw [heq] at hnone
    exact absurd (List.mem_singleton_self value) (hnone value)
  · intro target value heq
    rw [heq] at hnone
    exact absurd (List.mem_singleton_self value) (hnone value)

theorem input_writes {symbol : Bytes} (h : w.input symbol = .ok run) :
    Writes w (.input symbol) run := by
  rw [emit_ok h]
  exact ⟨rfl, true, acceptable_leaf rfl rfl (fun _ => rfl) nofun, rfl⟩

theorem state_writes {symbol : Bytes} (h : w.state symbol = .ok run) :
    Writes w (.state symbol) run := by
  rw [emit_ok h]
  exact ⟨rfl, false, acceptable_leaf rfl rfl nofun nofun, rfl⟩

/-- A constant has its line already, or it gets one. -/
theorem constant_writes {b : Bool} (h : w.constant b = .ok run) :
    (run = (w.constantOf b, w) ∧ w.constantOf b ≠ 0) ∨ Writes w (.const b) run := by
  unfold constant at h
  split at h
  · next hknown => exact .inl ⟨(Except.ok.inj h).symm, hknown⟩
  · next hknown =>
    obtain ⟨emitted, hemit, h⟩ := bind_ok.mp h
    rw [emit_ok hemit] at h
    rw [← Except.ok.inj h]
    refine .inr ⟨rfl, false, acceptable_leaf rfl rfl nofun fun c hc => ?_, ?_⟩
    · rw [← LineBody.const.inj hc]
      exact not_not.mp hknown
    · cases b <;> rfl

theorem emitOperator_writes (hw : w.Inv) (h : w.emitOperator body = .ok run)
    (hvalues : ∀ r ∈ body.valueRefs, IsValue w.doc r) (hoperator : body.operands ≠ []) :
    Writes w body run := by
  obtain ⟨emitted, hemit, h⟩ := bind_ok.mp h
  rw [emit_ok hemit] at h
  rw [← Except.ok.inj h]
  have hset : ∀ a b, (w.dependsOnInput ++ [a]).set w.nodes.length b =
      w.dependsOnInput ++ [b] := fun a b => by
    rw [← hw.marksLength, List.set_append_right _ _ (Nat.le_refl _), Nat.sub_self]
    rfl
  have hmark : ∀ r ∈ body.operands, w.Marked r →
      (body.valueRefs.any fun node => (w.dependsOnInput ++ [false]).getD node false) = true :=
    fun r hr hmarked => List.any_eq_true.mpr ⟨r, operands_subset body r hr,
      (@Inv.marked_push w body _ hw _ (hw.lt_length (hvalues r (operands_subset body r hr)))).mpr
        hmarked⟩
  cases body with
  | not value | binary op left right =>
    refine ⟨rfl, _, ⟨hvalues, ?_, ?_, hmark, ?_, ?_, ?_⟩, ?_⟩
    case refine_6 =>
      simp only [push, hset]
      rfl
    all_goals
      intros
      contradiction
  | _ => exact absurd rfl hoperator

theorem logicalNot_writes (hw : w.Inv) {value : Nat} (h : w.logicalNot value = .ok run) :
    Writes w (.not value) run := by
  obtain ⟨⟨⟩, hvalue, h⟩ := bind_ok.mp h
  refine emitOperator_writes hw h (fun r hr => ?_) (List.cons_ne_nil _ _)
  rw [List.mem_singleton.mp hr]
  exact hw.requireValue hvalue

theorem binary_writes (hw : w.Inv) {op : BinaryOp} {left right : Nat}
    (h : w.binary op left right = .ok run) : Writes w (.binary op left right) run := by
  obtain ⟨⟨⟩, hleft, h⟩ := bind_ok.mp h
  obtain ⟨⟨⟩, hright, h⟩ := bind_ok.mp h
  refine emitOperator_writes hw h (fun r hr => ?_) (List.cons_ne_nil _ _)
  rcases List.mem_pair.mp hr with rfl | rfl
  · exact hw.requireValue hleft
  · exact hw.requireValue hright

theorem stateRelation_ok (hw : w.Inv) {op : String} {target value : Nat} {assigned : List Nat}
    (h : w.stateRelation body op target value assigned = .ok run) :
    IsState w.doc target ∧ IsValue w.doc value ∧ target ∉ assigned ∧ w.emit body = .ok run := by
  obtain ⟨⟨⟩, hstate, h⟩ := bind_ok.mp h
  obtain ⟨⟨⟩, hvalue, h⟩ := bind_ok.mp h
  split at h
  · cases h
  · next hfree => exact ⟨hw.requireState hstate, hw.requireValue hvalue, hfree, h⟩

theorem init_writes (hw : w.Inv) {target value : Nat} (h : w.init target value = .ok run) :
    Writes w (.init target value) run := by
  obtain ⟨⟨⟩, -, h⟩ := bind_ok.mp h
  obtain ⟨⟨⟩, -, h⟩ := bind_ok.mp h
  split at h
  · cases h
  · next hbefore =>
    split at h
    · cases h
    · next hunmarked =>
      obtain ⟨emitted, hrelation, h⟩ := bind_ok.mp h
      obtain ⟨hstate, hvalue, hfree, hemit⟩ := stateRelation_ok hw hrelation
      rw [emit_ok hemit] at h
      rw [← Except.ok.inj h]
      refine ⟨rfl, false, ⟨fun r hr => ?_, fun r hr => ?_, nofun, nofun, ?_, nofun, nofun⟩, rfl⟩
      · rw [List.mem_singleton.mp hr]
        exact hvalue
      · rw [List.mem_singleton.mp hr]
        exact hstate
      · intro t v heq
        obtain ⟨rfl, rfl⟩ := LineBody.init.inj heq
        exact ⟨hfree, by omega, hunmarked⟩

theorem next_writes (hw : w.Inv) {target value : Nat} (h : w.next target value = .ok run) :
    Writes w (.next target value) run := by
  obtain ⟨emitted, hrelation, h⟩ := bind_ok.mp h
  obtain ⟨hstate, hvalue, hfree, hemit⟩ := stateRelation_ok hw hrelation
  rw [emit_ok hemit] at h
  rw [← Except.ok.inj h]
  refine ⟨rfl, false, ⟨fun r hr => ?_, fun r hr => ?_, nofun, nofun, nofun, ?_, nofun⟩, rfl⟩
  · rw [List.mem_singleton.mp hr]
    exact hvalue
  · rw [List.mem_singleton.mp hr]
    exact hstate
  · intro t v heq
    obtain ⟨rfl, rfl⟩ := LineBody.next.inj heq
    exact hfree

theorem property_writes (hw : w.Inv) {op : PropertyOp} {value : Nat} {symbol : Bytes}
    (h : w.property op value symbol = .ok run) :
    Writes w (.property op value symbol) run := by
  obtain ⟨⟨⟩, hvalue, h⟩ := bind_ok.mp h
  rw [emit_ok h]
  refine ⟨rfl, false, ⟨fun r hr => ?_, nofun, nofun, nofun, nofun, nofun, nofun⟩, rfl⟩
  rw [List.mem_singleton.mp hr]
  exact hw.requireValue hvalue

theorem Writes.spec (hw : w.Inv) (h : Writes w body run) : run.2.Inv ∧ Grows w run.2 := by
  obtain ⟨-, mark, haccept, hrun⟩ := h
  rw [hrun]
  exact ⟨inv_push hw haccept, grows_push w body mark⟩

end Lines

/-! ## Entries -/

theorem grows_enter {w : Writer} {node : BoolExpr} (hfresh : w.expressions.lookup node = none)
    (n : Nat) : Grows w (w.enter node n) := by
  refine ⟨⟨[], (List.append_nil _).symm⟩, fun _ _ h => h, fun e m hm => ?_⟩
  simp only [enter, List.lookup_cons]
  split
  · next hsame =>
    rw [eq_of_beq hsame, hfresh] at hm
    cases hm
  · exact hm

theorem inv_enter {w : Writer} (h : w.Inv) {node : BoolExpr} {n : Nat} (hd : w.Denotes node n) :
    (w.enter node n).Inv := by
  refine ⟨h.wf, h.length, h.marksLength, h.zero, h.kinds, h.inputs, h.initMarks, h.marks,
    h.initialized, h.transitioned, h.constants, h.bindings, fun e m hm => ?_⟩
  have hsame : ∀ e m, w.Denotes e m → (w.enter node n).Denotes e m := fun e m hd =>
    ⟨hd.isValue, hd.known, hd.value⟩
  simp only [enter, List.lookup_cons] at hm
  split at hm
  · next heq =>
    rw [eq_of_beq heq, ← Option.some.inj hm]
    exact hsame node n hd
  · exact hsame e m (h.expressions e m hm)

/-- A new line has the value that its text says. -/
theorem docValue_push (w : Writer) (body : LineBody) (mark : Bool) (leaf : Nat → Bool) :
    docValue (w.push body mark).doc leaf w.nodes.length =
      lineValue leaf w.nodes.length body (docValue w.doc leaf) := by
  unfold docValue
  rw [nodeLines_push, NodeDocument.values_last]

/-- A line denotes what its value says in terms of the lines before it. -/
theorem denotes_writes {w : Writer} (h : w.Inv) {body : LineBody} {run : Nat × Writer}
    (hrun : Writes w body run) (hkind : body.kind = .value) {e : BoolExpr}
    (hknown : ∀ s ∈ e.getSupportVars, 2 ≤ s → (w.variableNodes.lookup s).isSome)
    (hvalue : ∀ leaf, lineValue leaf w.nodes.length body (docValue w.doc leaf) =
      e.eval (w.bound leaf)) : run.2.Denotes e run.1 := by
  obtain ⟨hid, mark, haccept, hpush⟩ := hrun
  rw [hid, hpush]
  refine ⟨⟨body, mem_nodeLines_push.mpr (.inr rfl), by rw [hkind]; nofun⟩, hknown,
    fun leaf => ?_⟩
  rw [docValue_push, hvalue]
  apply BoolExpr.eval_congr
  intro s hs h2
  obtain ⟨m, hm⟩ := Option.isSome_iff_exists.mp (hknown s hs h2)
  have hm' : (w.push body mark).variableNodes.lookup s = some m := hm
  rw [bound, bound, hm, hm']
  exact (h.value_stable (inv_push h haccept).wf (grows_push w body mark) leaf
    (h.bindings s m hm)).symm

theorem Inv.expressionAt (h : Inv w) {a : BoolExpr} {n : Nat} (ha : w.expressionAt a = .ok n) :
    w.Denotes a n := by
  unfold Writer.expressionAt at ha
  split at ha
  · next id hid => exact h.expressions a n (hid.trans (congrArg some (Except.ok.inj ha)))
  · cases ha

/-! ## One node of an expression -/

/-- How a node gets its entry: from a line that exists, or from a new one. -/
inductive Finished (w : Writer) (node : BoolExpr) : Writer → Prop
  | shared (n : Nat) (hleaf : node.operands = []) (hd : w.Denotes node n) :
    Finished w node (w.enter node n)
  | written (body : LineBody) (run : Nat × Writer) (hwrites : Writes w body run)
    (hkind : body.kind = .value) (hleaf : body.operands.isEmpty = node.operands.isEmpty)
    (hd : run.2.Denotes node run.1) : Finished w node (run.2.enter node run.1)

theorem finishNode_ok {w w' : Writer} (h : w.Inv) {node : BoolExpr}
    (hok : finishNode node w = .ok w') : Finished w node w' := by
  cases node with
  | var id =>
    simp only [finishNode] at hok
    split at hok
    · next hreserved =>
      obtain ⟨run, hconstant, hok⟩ := bind_ok.mp hok
      rw [← Except.ok.inj hok]
      have hknown : ∀ s ∈ (BoolExpr.var id).getSupportVars, 2 ≤ s →
          (w.variableNodes.lookup s).isSome := fun s hs h2 => by
        rw [Finset.mem_singleton.mp hs] at h2
        omega
      have heval : ∀ leaf, decide (id = 1) = (BoolExpr.var id).eval (w.bound leaf) := by
        intro leaf
        match id, hreserved with
        | 0, _ => rfl
        | 1, _ => rfl
      rcases constant_writes hconstant with ⟨rfl, hne⟩ | hwrites
      · have hline := (h.constants (decide (id = 1)) _).mpr ⟨rfl, hne⟩
        refine .shared _ rfl ⟨⟨_, hline, nofun⟩, hknown, fun leaf => ?_⟩
        rw [← heval leaf]
        exact docValue_const h.wf leaf hline
      · exact .written _ run hwrites rfl rfl (denotes_writes h hwrites rfl hknown heval)
    · next hvariable =>
      split at hok
      · cases hok
      · next n hn =>
        rw [← Except.ok.inj hok]
        refine .shared n rfl ⟨h.bindings id n hn, fun s hs _ => ?_, fun leaf => ?_⟩
        · rw [Finset.mem_singleton.mp hs, hn]
          rfl
        · match id, hvariable with
          | 0, hvariable | 1, hvariable => exact absurd (by decide) hvariable
          | k + 2, _ => simp only [BoolExpr.eval, bound, hn]
  | not a =>
    obtain ⟨n, ha, hok⟩ := bind_ok.mp hok
    obtain ⟨run, hwrites, hok⟩ := bind_ok.mp hok
    rw [← Except.ok.inj hok]
    have hd := h.expressionAt ha
    have hwrites := logicalNot_writes h hwrites
    refine .written _ run hwrites rfl rfl (denotes_writes h hwrites rfl hd.known fun leaf => ?_)
    simp only [lineValue, hd.value leaf, BoolExpr.eval]
  | and a b | or a b | xor a b =>
    obtain ⟨n, ha, hok⟩ := bind_ok.mp hok
    obtain ⟨m, hb, hok⟩ := bind_ok.mp hok
    obtain ⟨run, hwrites, hok⟩ := bind_ok.mp hok
    rw [← Except.ok.inj hok]
    have hda := h.expressionAt ha
    have hdb := h.expressionAt hb
    have hwrites := binary_writes h hwrites
    refine .written _ run hwrites rfl rfl
      (denotes_writes h hwrites rfl (fun s hs h2 => ?_) fun leaf => ?_)
    · rcases Finset.mem_union.mp hs with hs | hs
      · exact hda.known s hs h2
      · exact hdb.known s hs h2
    · simp only [lineValue, BinaryOp.eval, hda.value leaf, hdb.value leaf, BoolExpr.eval]

/-! ## `expression` -/

/-- The lines of operators, by their numbers. -/
def operatorLines (written : List (Nat × LineBody)) : List Nat :=
  (written.filter fun line => !line.2.operands.isEmpty).map Prod.fst

/-- The operators with an entry, by the numbers of their lines. -/
def operatorEntries (fresh : List (BoolExpr × Nat)) : List Nat :=
  (fresh.filter fun entry => !entry.1.operands.isEmpty).map Prod.snd

/-- What `expression` has added so far: every node below the root gets at most one entry, and
every entry of an operator comes with one line. -/
structure Extends (w : Writer) (root : BoolExpr) (w' : Writer) (written : List (Nat × LineBody))
    (fresh : List (BoolExpr × Nat)) : Prop where
  doc : w'.doc = w.doc ++ written.map fun line => .node line.1 line.2
  entries : w'.expressions = fresh ++ w.expressions
  nodup : (fresh.map Prod.fst).Nodup
  below : ∀ entry ∈ fresh, w.expressions.lookup entry.1 = none ∧
    root.HasNode entry.1
  values : ∀ line ∈ written, line.2.kind = .value
  once : operatorLines written = (operatorEntries fresh).reverse

theorem Extends.refl (w : Writer) (root : BoolExpr) : Extends w root w [] [] :=
  ⟨(List.append_nil _).symm, rfl, List.nodup_nil, nofun, nofun, rfl⟩

theorem operatorLines_snoc (written : List (Nat × LineBody)) (line : Nat × LineBody) :
    operatorLines (written ++ [line]) =
      operatorLines written ++ if line.2.operands.isEmpty then [] else [line.1] := by
  unfold operatorLines
  cases hempty : line.2.operands.isEmpty <;> simp [List.filter_append, hempty]

theorem operatorEntries_cons (entry : BoolExpr × Nat) (fresh : List (BoolExpr × Nat)) :
    operatorEntries (entry :: fresh) =
      (if entry.1.operands.isEmpty then [] else [entry.2]) ++ operatorEntries fresh := by
  unfold operatorEntries
  cases hempty : entry.1.operands.isEmpty <;> simp [hempty]

section Node
variable {w : Writer} {root : BoolExpr}

theorem Extends.lookup_none {w' : Writer} {written : List (Nat × LineBody)}
    {fresh : List (BoolExpr × Nat)} (h : Extends w root w' written fresh) {node : BoolExpr}
    (hnone : w'.expressions.lookup node = none) :
    node ∉ fresh.map Prod.fst ∧ w.expressions.lookup node = none := by
  rw [h.entries, List.lookup_eq_none_iff] at hnone
  refine ⟨fun hmem => ?_, List.lookup_eq_none_iff.mpr fun p hp =>
    hnone p (List.mem_append_right _ hp)⟩
  obtain ⟨entry, hentry, rfl⟩ := List.mem_map.mp hmem
  have hne := hnone entry (List.mem_append_left _ hentry)
  simp at hne

theorem Extends.finished {w₁ w₂ : Writer} {written : List (Nat × LineBody)}
    {fresh : List (BoolExpr × Nat)} (h : Extends w root w₁ written fresh) {node : BoolExpr}
    (hreach : expressionTraversal.Reaches root node) (hnone : w₁.expressions.lookup node = none)
    (hfinished : Finished w₁ node w₂) :
    ∃ written' fresh', Extends w root w₂ written' fresh' := by
  obtain ⟨hnew, hold⟩ := h.lookup_none hnone
  cases hfinished with
  | shared n hleaf hd =>
    refine ⟨written, (node, n) :: fresh, h.doc, congrArg _ h.entries,
      List.nodup_cons.mpr ⟨hnew, h.nodup⟩,
      List.forall_mem_cons.mpr ⟨⟨hold, hreach⟩, h.below⟩, h.values, ?_⟩
    rw [operatorEntries_cons, hleaf, h.once]
    rfl
  | written body run hwrites hkind hleaf hd =>
    obtain ⟨hid, mark, -, hpush⟩ := hwrites
    refine ⟨written ++ [(run.1, body)], (node, run.1) :: fresh, ?_, ?_,
      List.nodup_cons.mpr ⟨hnew, h.nodup⟩,
      List.forall_mem_cons.mpr ⟨⟨hold, hreach⟩, h.below⟩, ?_, ?_⟩
    · rw [enter, hpush, push, h.doc, hid, List.map_append, List.append_assoc]
      rfl
    · rw [enter, hpush, push, h.entries]
      rfl
    · intro line hline
      rcases List.mem_append.mp hline with hline | hline
      · exact h.values line hline
      · rw [List.mem_singleton.mp hline]
        exact hkind
    · rw [operatorLines_snoc, operatorEntries_cons, List.reverse_append, h.once, hleaf]
      cases node.operands.isEmpty <;> rfl

/-- The invariant of the traversal from `w`. -/
def Exporting (w : Writer) (root : BoolExpr) (w' : Writer) : Prop :=
  w'.Inv ∧ Grows w w' ∧ ∃ written fresh, Extends w root w' written fresh

theorem Finished.spec {w₁ w₂ : Writer} (h : w₁.Inv) {node : BoolExpr}
    (hnone : w₁.expressions.lookup node = none) (hfinished : Finished w₁ node w₂) :
    w₂.Inv ∧ Grows w₁ w₂ := by
  cases hfinished with
  | shared n hleaf hd => exact ⟨inv_enter h hd, grows_enter hnone n⟩
  | written body run hwrites hkind hleaf hd =>
    obtain ⟨hinv, hgrow⟩ := hwrites.spec h
    obtain ⟨-, mark, -, hpush⟩ := hwrites
    have hstill : run.2.expressions.lookup node = none := by
      rw [hpush]
      exact hnone
    exact ⟨inv_enter hinv hd, hgrow.trans (grows_enter hstill run.1)⟩

theorem exporting_finish {w₁ : Writer} (h : Exporting w root w₁) {node : BoolExpr}
    (hreach : expressionTraversal.Reaches root node)
    (hdone : expressionTraversal.done w₁ node = false) :
    expressionTraversal.Finishes (Exporting w root) (fun _ _ => True) node w₁ := by
  obtain ⟨hinv, hgrow, written, fresh, hextends⟩ := h
  have hnone : w₁.expressions.lookup node = none := Option.not_isSome_iff_eq_none.mp (by
    rw [Bool.not_eq_true]
    exact hdone)
  cases hok : finishNode node w₁ with
  | error e =>
    refine .inr ⟨e, w₁, ?_, ⟨hinv, hgrow, written, fresh, hextends⟩, trivial⟩
    simp only [expressionTraversal, hok]
    rfl
  | ok w₂ =>
    have hfinished := finishNode_ok hinv hok
    obtain ⟨hinv₂, hgrow₂⟩ := hfinished.spec hinv hnone
    refine .inl ⟨w₂, ?_, ⟨hinv₂, hgrow.trans hgrow₂,
      hextends.finished hreach hnone hfinished⟩, ?_, fun x hx => ?_⟩
    · simp only [expressionTraversal, hok]
      rfl
    · cases hfinished <;> simp [expressionTraversal, enter]
    · obtain ⟨n, hn⟩ := Option.isSome_iff_exists.mp hx
      exact Option.isSome_iff_exists.mpr ⟨n, hgrow₂.expressions x n hn⟩

/-- An accepted expression has its value; a rejected one leaves lines of its nodes only. -/
theorem expression_spec (h : w.Inv) (root : BoolExpr) :
    (∃ n w', w.expression root = .ok (n, w') ∧ w'.Denotes root n ∧ Exporting w root w') ∨
    (∃ e w', w.expression root = .error (e, w') ∧ Exporting w root w') := by
  have hvisit := Traversal.visit_spec (t := expressionTraversal) (I := Exporting w root)
    (fun n w₁ hreach hexporting hdone _ => exporting_finish hexporting hreach hdone)
    ⟨h, .refl w, [], [], .refl w root⟩
  unfold expression
  rcases hvisit with ⟨w', hok, hexporting, hroot, -⟩ | ⟨e, w', n, herror, hexporting, -, -⟩
  · obtain ⟨n, hn⟩ := Option.isSome_iff_exists.mp hroot
    refine .inl ⟨n, w', ?_, hexporting.1.expressions root n hn, hexporting⟩
    rw [hok, ok_bind, hn]
  · refine .inr ⟨e, w', ?_, hexporting⟩
    rw [herror]
    rfl

end Node

/-! ## Calls in a row -/

theorem inv_bindVariable {w w' : Writer} (h : w.Inv) {symbol node : Nat}
    (hok : w.bindVariable symbol node = .ok w') : w'.Inv ∧ Grows w w' := by
  obtain ⟨⟨⟩, hnode, hok⟩ := bind_ok.mp hok
  split at hok
  · cases hok
  · split at hok
    · next hnone =>
      rw [← Except.ok.inj hok]
      have hlookup : ∀ s n, ((symbol, node) :: w.variableNodes).lookup s = some n →
          s = symbol ∧ n = node ∨ w.variableNodes.lookup s = some n := by
        intro s n hn
        rw [List.lookup_cons] at hn
        split at hn
        · next hsame => exact .inl ⟨eq_of_beq hsame, (Option.some.inj hn).symm⟩
        · exact .inr hn
      have hgrow : Grows w { w with variableNodes := (symbol, node) :: w.variableNodes } := by
        refine ⟨⟨[], (List.append_nil _).symm⟩, fun s n hn => ?_, fun _ _ h => h⟩
        rw [List.lookup_cons]
        split
        · next hsame =>
          rw [eq_of_beq hsame, hnone] at hn
          cases hn
        · exact hn
      refine ⟨⟨h.wf, h.length, h.marksLength, h.zero, h.kinds, h.inputs, h.initMarks, h.marks,
        h.initialized, h.transitioned, h.constants, fun s n hn => ?_, fun e n hn => ?_⟩, hgrow⟩
      · rcases hlookup s n hn with ⟨-, rfl⟩ | hold
        · exact h.requireValue hnode
        · exact h.bindings s n hold
      · refine h.denotes_grow ?_ hgrow (h.expressions e n hn)
        exact h.wf
    · split at hok
      · rw [← Except.ok.inj hok]
        exact ⟨h, .refl w⟩
      · cases hok

theorem wellFormed_comment {doc : List DocLine} (h : WellFormed doc) (text : Bytes) :
    WellFormed (doc ++ [.comment text]) := by
  have hlines := @nodeLines_comment doc text
  refine ⟨?_, ?_, ?_, ?_, ?_, ?_, ?_, fun line _ => newline_line line⟩
  all_goals simp only [IsValue, IsState, ReadsInput, hlines]
  · exact h.sort
  · exact h.ids
  · exact h.valueRefs
  · exact h.stateRefs
  · exact h.inits
  · exact h.nexts
  · exact h.initValues

theorem inv_comment {w : Writer} (h : w.Inv) (text : Bytes) :
    (w.comment text).Inv ∧ Grows w (w.comment text) := by
  have hlines : nodeLines (w.comment text).doc = nodeLines w.doc := nodeLines_comment text
  have hwf : WellFormed (w.comment text).doc := wellFormed_comment h.wf text
  have hgrow : Grows w (w.comment text) := ⟨⟨_, rfl⟩, fun _ _ h => h, fun _ _ h => h⟩
  refine ⟨⟨hwf, ?_, h.marksLength, h.zero, ?_, ?_, ?_, ?_, ?_, ?_, ?_,
    fun s n hn => (h.bindings s n hn).append,
    fun e n hn => h.denotes_grow hwf hgrow (h.expressions e n hn)⟩, hgrow⟩
  all_goals rw [hlines]
  · exact h.length
  · exact h.kinds
  · exact h.inputs
  · exact h.initMarks
  · exact h.marks
  · exact h.initialized
  · exact h.transitioned
  · exact h.constants

/-- A call that writes one line or is rejected. -/
theorem spec_of_writes {w w' : Writer} (h : w.Inv) {x : Except String (Nat × Writer)}
    (hx : ∀ run, x = .ok run → ∃ body, Writes w body run) (hok : orKeep w x = .ok w') :
    w'.Inv ∧ Grows w w' := by
  cases hrun : x with
  | error e =>
    rw [hrun] at hok
    cases hok
  | ok run =>
    rw [hrun] at hok
    rw [← Except.ok.inj hok]
    obtain ⟨body, hwrites⟩ := hx run hrun
    exact hwrites.spec h

theorem call_ok {w w' : Writer} (h : w.Inv) {c : Call} (hok : w.call c = .ok w') :
    w'.Inv ∧ Grows w w' := by
  cases c with
  | input symbol => exact spec_of_writes h (fun _ hrun => ⟨_, input_writes hrun⟩) hok
  | state symbol => exact spec_of_writes h (fun _ hrun => ⟨_, state_writes hrun⟩) hok
  | logicalNot value => exact spec_of_writes h (fun _ hrun => ⟨_, logicalNot_writes h hrun⟩) hok
  | binary op left right => exact spec_of_writes h (fun _ hrun => ⟨_, binary_writes h hrun⟩) hok
  | init target value => exact spec_of_writes h (fun _ hrun => ⟨_, init_writes h hrun⟩) hok
  | next target value => exact spec_of_writes h (fun _ hrun => ⟨_, next_writes h hrun⟩) hok
  | property op value symbol =>
    exact spec_of_writes h (fun _ hrun => ⟨_, property_writes h hrun⟩) hok
  | comment text =>
    rw [← Except.ok.inj hok]
    exact inv_comment h text
  | constant value =>
    simp only [Writer.call] at hok
    cases hrun : w.constant value with
    | error e =>
      rw [hrun] at hok
      cases hok
    | ok run =>
      rw [hrun] at hok
      rw [← Except.ok.inj hok]
      rcases constant_writes hrun with ⟨rfl, -⟩ | hwrites
      · exact ⟨h, .refl w⟩
      · exact hwrites.spec h
  | bindVariable symbol node =>
    simp only [Writer.call] at hok
    cases hrun : w.bindVariable symbol node with
    | error e =>
      rw [hrun] at hok
      cases hok
    | ok bound =>
      rw [hrun] at hok
      rw [← Except.ok.inj hok]
      exact inv_bindVariable h hrun
  | expression expr =>
    simp only [Writer.call] at hok
    rcases expression_spec h expr with ⟨n, w₁, hrun, -, hexporting⟩ | ⟨e, w₁, hrun, -⟩
    · rw [hrun] at hok
      rw [← Except.ok.inj hok]
      exact ⟨hexporting.1, hexporting.2.1⟩
    · rw [hrun] at hok
      cases hok

/-- Only `expression` can have written something when it is rejected. -/
theorem call_error {w w' : Writer} {c : Call} {e : String} (herror : w.call c = .error (e, w'))
    (hexpression : ∀ expr, c ≠ .expression expr) : w' = w := by
  have hkeep : ∀ x : Except String (Nat × Writer), orKeep w x = .error (e, w') → w' = w := by
    intro x hx
    cases x with
    | error e' => exact (Prod.mk.inj (Except.error.inj hx)).2.symm
    | ok run => cases hx
  cases c with
  | expression expr => exact absurd rfl (hexpression expr)
  | comment text => cases herror
  | _ => exact hkeep _ herror

/-- The step lemma. -/
theorem after_spec {w : Writer} (h : w.Inv) (c : Call) : (w.after c).Inv ∧ Grows w (w.after c) := by
  unfold Writer.after
  split
  · next w' hok => exact call_ok h hok
  · next e w' herror =>
    by_cases hexpression : ∃ expr, c = .expression expr
    · obtain ⟨expr, rfl⟩ := hexpression
      simp only [Writer.call] at herror
      rcases expression_spec h expr with ⟨n, w₁, hrun, -, -⟩ | ⟨e₁, w₁, hrun, hexporting⟩
      · rw [hrun] at herror
        cases herror
      · rw [hrun] at herror
        obtain ⟨-, rfl⟩ := Prod.mk.inj (Except.error.inj herror)
        exact ⟨hexporting.1, hexporting.2.1⟩
    · rw [call_error herror fun expr heq => hexpression ⟨expr, heq⟩]
      exact ⟨h, .refl w⟩

/-- The run lemma. -/
theorem foldl_after_spec {w : Writer} (h : w.Inv) (calls : List Call) :
    (calls.foldl Writer.after w).Inv ∧ Grows w (calls.foldl Writer.after w) := by
  induction calls generalizing w with
  | nil => exact ⟨h, .refl w⟩
  | cons c calls ih =>
    obtain ⟨hinv, hgrow⟩ := after_spec h c
    obtain ⟨hinv', hgrow'⟩ := ih hinv
    exact ⟨hinv', hgrow.trans hgrow'⟩

theorem runCalls_inv (calls : List Call) : (runCalls calls).Inv :=
  (foldl_after_spec inv_start calls).1

end Writer

/-! ## Every sequence of calls -/

/-- After any calls the document is well formed, with one line for each constant. An accepted
expression has a node with its value, now and after any further calls, and the call has added
one line for each operator that had none. A call that is rejected leaves the writer as it was,
except that `expression` leaves the lines of the nodes below the one it failed at. Names can be
told apart by their suffixes, which have visible bytes only after the blank in front. -/
theorem btor2Writer_exact (calls : List Call) :
    (WellFormed (runCalls calls).doc ∧
      ∀ b n m, (n, .const b) ∈ nodeLines (runCalls calls).doc →
        (m, .const b) ∈ nodeLines (runCalls calls).doc → n = m) ∧
    (∀ e n w, (runCalls calls).expression e = .ok (n, w) →
      (∀ later : List Call, (later.foldl Writer.after w).Denotes e n) ∧
      ∃ written fresh, (runCalls calls).Extends e w written fresh) ∧
    (∀ c error w, (runCalls calls).call c = .error (error, w) →
      (∀ e, c = .expression e →
        ∃ written fresh, (runCalls calls).Extends e w written fresh) ∧
      ((∀ e, c ≠ .expression e) → w = runCalls calls)) ∧
    (∀ a b, symbolSuffix a = symbolSuffix b → a = b) ∧
    ∀ a, a ≠ [] → ∃ rest, symbolSuffix a = 32 :: rest ∧ ∀ c ∈ rest, 32 < c ∧ c < 127 ∧ c ≠ 59 := by
  have hinv := Writer.runCalls_inv calls
  refine ⟨⟨hinv.wf, fun b n m hn hm => ?_⟩, fun e n w hok => ?_, fun c error w herror => ?_,
    fun _ _ => symbolSuffix_inj, fun _ => symbolSuffix_plain⟩
  · rw [((hinv.constants b n).mp hn).1, ((hinv.constants b m).mp hm).1]
  · rcases Writer.expression_spec hinv e with ⟨n', w', hrun, hd, hinv', -, hextends⟩ | ⟨_, _, hrun, -⟩
    · rw [hrun] at hok
      obtain ⟨rfl, rfl⟩ := Prod.mk.inj (Except.ok.inj hok)
      refine ⟨fun later => ?_, hextends⟩
      obtain ⟨hlater, hgrow⟩ := Writer.foldl_after_spec hinv' later
      exact hinv'.denotes_grow hlater.wf hgrow hd
    · rw [hrun] at hok
      cases hok
  · refine ⟨fun e he => ?_, Writer.call_error herror⟩
    rw [he, Writer.call] at herror
    rcases Writer.expression_spec hinv e with ⟨_, _, hrun, -⟩ | ⟨_, w', hrun, -, -, hextends⟩
    · rw [hrun] at herror
      cases herror
    · rw [hrun] at herror
      obtain ⟨-, rfl⟩ := Prod.mk.inj (Except.error.inj herror)
      exact hextends

/-- A rejected expression may leave a line; a name's suffix begins with a blank; a state may be
used before the line of its `init`. -/
theorem btor2Writer_leaves_lines :
    (¬ ∀ calls c error w, (runCalls calls).call c = .error (error, w) →
      w.doc = (runCalls calls).doc) ∧
    (¬ ∀ a, ∀ c ∈ symbolSuffix a, c ≠ 32) ∧
    ¬ ∀ (calls : List Call) (w : Writer), calls.foldlM Writer.call ({} : Writer) = .ok w →
      ∀ id target value user body, (id, .init target value) ∈ nodeLines w.doc →
        (user, body) ∈ nodeLines w.doc → target ∈ body.valueRefs → id < user := by
  refine ⟨fun h => ?_, fun h => h (ascii "a") 32 (by decide) rfl, fun h => ?_⟩
  · have herror : ∃ error w, (runCalls [.input [], .bindVariable 2 2]).call
        (.expression (.and (.not (.var 2)) (.var 9))) = .error (error, w) ∧
        w.doc = [.node 1 .sort, .node 2 (.input []), .node 3 (.not 2)] := by
      have hvisit : Writer.expressionTraversal.visit (.and (.not (.var 2)) (.var 9))
          (runCalls [.input [], .bindVariable 2 2]) = .error
            ("Unbound BoolExpr variable in BTOR2 export: 9",
              { doc := [.node 1 .sort, .node 2 (.input []), .node 3 (.not 2)]
                nodes := [.other, .other, .input, .value]
                dependsOnInput := [false, false, true, true]
                variableNodes := [(2, 2)]
                expressions := [(.not (.var 2), 3), (.var 2, 2)] }) := by
        unfold Traversal.visit
        rw [Traversal.run, if_neg (by decide), if_neg (by decide)]
        change Writer.expressionTraversal.run [(.not (.var 2), false), (.var 9, false), _] _ = _
        rw [Traversal.run, if_neg (by decide), if_neg (by decide)]
        change Writer.expressionTraversal.run [(.var 2, false), (.not (.var 2), true), (.var 9, false), _] _ = _
        rw [Traversal.run, if_neg (by decide), if_pos (by decide)]
        change Writer.expressionTraversal.run [(.not (.var 2), true), (.var 9, false), _] _ = _
        rw [Traversal.run, if_neg (by decide), if_pos (by decide)]
        change Writer.expressionTraversal.run [(.var 9, false), _] _ = _
        rw [Traversal.run, if_neg (by decide), if_pos (by decide)]
        rfl
      exact ⟨_, _, by rw [Writer.call, Writer.expression, hvisit]; rfl, rfl⟩
    obtain ⟨error, w, hcall, hdoc⟩ := herror
    have hsame := h _ _ error w hcall
    rw [hdoc] at hsame
    exact absurd hsame (by decide)
  · have hrun : ∃ w, [Call.constant false, .state [], .next 3 3, .init 3 2].foldlM Writer.call
        ({} : Writer) = .ok w ∧ w.doc = [.node 1 .sort, .node 2 (.const false),
          .node 3 (.state []), .node 4 (.next 3 3), .node 5 (.init 3 2)] := ⟨_, rfl, rfl⟩
    obtain ⟨w, hok, hdoc⟩ := hrun
    have hlt := h _ w hok 5 3 2 4 (.next 3 3) (by rw [hdoc]; decide) (by rw [hdoc]; decide)
      (by decide)
    exact absurd hlt (by decide)

end KeplerFormal.Btor2Writer
