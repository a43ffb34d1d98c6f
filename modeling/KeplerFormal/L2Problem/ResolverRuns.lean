import KeplerFormal.L2Problem.ResolverSound

/-!
# The resolver over sequences of queries (`src/sec/proof/TransitionExprResolver.cpp`)

* `sourceExpr`, `plainAt`: the transition of a symbol, without caches;
  `sourceExpr_eagerlyBuilt`: it agrees with what the builders of a problem make of it.
* `sourceExpr_covered`: it reads only symbols that its support reports.
* `buildEncodingPostorder_spec`: every node once, operands first, the root last.
* `Inv`: what the caches hold; `after_inv` is the step lemma, `runQueries_inv` the run lemma.
* `transitionResolver_exact`: the answers after any queries.
-/
namespace KeplerFormal.TransitionResolver

open Core Remapping

/-! ## One source -/

/-- The transition of a source, without memos. -/
def sourceExpr (source : LazyTransitionSource) (tables : DesignTables) : Except String BoolExpr :=
  if source.rail ≠ .binary then
    (plainly (liftNode (lazyDualRailVariableMapper source.designIndex tables))
      source.localExpr).bind source.rail.of
  else plainly (remapNode tables.localToCombined) source.localExpr

theorem plainly_nil {R : Type} {build : Memo BoolExpr R → BoolExpr → Except String R} :
    ExprMemo.All (fun e r => plainly build e = .ok r) ([] : Memo BoolExpr R) :=
  fun _ _ h => (nomatch h)

/-- A renaming without a memo fails at a missing name, and keeps the value. -/
theorem plainly_outcome {varMap : VarMap} {build : ExprMemo → BoolExpr → Except String BoolExpr}
    (hbuild : NodeRenames varMap build) (hreads : ReadsOperands build) (e : BoolExpr) :
    RenameOutcome varMap e (plainly build e) := by
  have hnil : ExprMemo.All (Renames varMap) [] := fun _ _ h => (nomatch h)
  obtain ⟨hrename, -⟩ := @renames_call _ true _ hbuild e [] hnil
  obtain ⟨hplain, -⟩ := @memoCall_plainly _ true _ hreads e _ plainly_nil
  rcases hplain with ⟨r, r', hr, hr', rfl⟩ | ⟨e₁, e₂, h₁, h₂⟩
  · rw [hr'] at *
    rw [hr] at hrename
    exact hrename
  · rw [h₂]
    rw [h₁] at hrename
    refine ⟨?_, fun r h => (nomatch h)⟩
    rw [← hrename.fails]
    exact ⟨fun _ => ⟨e₁, rfl⟩, fun _ => ⟨e₂, rfl⟩⟩

section Mapper
variable {unpublished : Nat → String} {tables : DesignTables}

/-- A variable has a meaning where its leaf stands for something, and the meaning reads that. -/
theorem tablesMapper_leaf (d : Nat) {id : Nat} (h2 : 2 ≤ id) :
    SameOutcome (fun v xs => ∀ x ∈ v.supportVars, 2 ≤ x → x ∈ xs)
      (tablesMapper unpublished tables id) (sourceLeaf tables d true id) := by
  have hlow : ¬ id < 2 := by omega
  unfold tablesMapper sourceLeaf mapLazyTransitionSymbol
  have hrails : 2 ≤ id ∧ true = true := ⟨h2, rfl⟩
  rw [if_pos hrails]
  cases tables.dualRailStateByLocalSymbol.lookup id with
  | some rails =>
    refine .inl ⟨_, _, rfl, rfl, fun x hx _ => ?_⟩
    simpa [DualRailBoolExpr.supportVars, BoolExpr.getSupportVars] using hx
  | none =>
    simp only [if_neg hlow]
    cases tables.localToCombined.lookup id with
    | none => exact .inr ⟨_, _, rfl, rfl⟩
    | some mapped =>
      refine .inl ⟨_, _, rfl, rfl, fun x hx hx2 => ?_⟩
      rcases Finset.mem_union.mp hx with hx | hx
      · exact List.mem_singleton.mpr (Finset.mem_singleton.mp hx)
      · exact List.mem_singleton.mpr (Finset.mem_singleton.mp (BoolExpr.mem_support_Not hx hx2))

/-- The messages of a mapper do not matter. -/
theorem tablesMapper_congr {unpublished' : Nat → String} {id : Nat} {v : DualRailBoolExpr}
    (h : tablesMapper unpublished tables id = .ok v) :
    tablesMapper unpublished' tables id = .ok v := by
  unfold tablesMapper at h ⊢
  cases hrails : tables.dualRailStateByLocalSymbol.lookup id with
  | some rails =>
    rw [hrails] at h
    exact h
  | none =>
    simp only [hrails] at h ⊢
    split at h
    · next hlow =>
      rw [if_pos hlow]
      exact h
    · next hlow =>
      rw [if_neg hlow]
      cases hmap : tables.localToCombined.lookup id with
      | some mapped =>
        rw [hmap] at h
        exact h
      | none =>
        rw [hmap] at h
        cases h

end Mapper

/-- The rail of a dual-rail source is always there. -/
theorem rail_of_ok {rail : LazyTransitionRail} (h : rail ≠ .binary) (v : DualRailBoolExpr) :
    ∃ e, rail.of v = .ok e ∧ e.getSupportVars ⊆ v.supportVars := by
  cases rail with
  | binary => exact absurd rfl h
  | dualRailOne => exact ⟨v.mayBeOne, rfl, Finset.subset_union_left⟩
  | dualRailZero => exact ⟨v.mayBeZero, rfl, Finset.subset_union_right⟩

section Source
variable {p : TransitionProblem} {s : Nat} {source : LazyTransitionSource} {tables : DesignTables}

/-- A source has a transition exactly where it has a support, and the transition reads only
what the support reports. -/
theorem sourceExpr_covered (h : sourceAt p s = .ok (source, tables)) :
    SameOutcome (fun e symbols => ∀ x ∈ e.getSupportVars, 2 ≤ x → x ∈ symbols)
      (sourceExpr source tables) (sourceSupport source tables) := by
  have hsymbols := leafSymbols_source (tablesOf_some h) source.localExpr
    (decide (source.rail ≠ .binary))
  simp only [decide_eq_true_eq] at hsymbols
  have hspec := sourceSupport_spec h rfl
  simp only [hsymbols] at hspec
  unfold sourceExpr
  by_cases hrail : source.rail ≠ .binary
  · rw [if_pos hrail]
    rw [decide_eq_true hrail] at hspec
    have hmapper : ∀ {id}, 2 ≤ id → SameOutcome (fun v xs => ∀ x ∈ v.supportVars, 2 ≤ x → x ∈ xs)
        (lazyDualRailVariableMapper source.designIndex tables id)
        (sourceLeaf tables source.designIndex true id) := fun h2 => tablesMapper_leaf _ h2
    rcases hspec with ⟨symbols, hsupport, hall, hmem⟩ | ⟨e, hsupport, id, hid, e', he'⟩
    · obtain ⟨v, hv⟩ := @plainly_of_mapped (lazyDualRailVariableMapper source.designIndex tables)
        source.localExpr fun id hid h2 => by
        obtain ⟨xs, hxs⟩ := hall id hid
        rcases hmapper h2 with ⟨v, _, hv, -, -⟩ | ⟨_, e', -, herror⟩
        · exact ⟨v, hv⟩
        · rw [hxs] at herror
          cases herror
      obtain ⟨e, he, hsub⟩ := rail_of_ok hrail v
      refine .inl ⟨e, symbols, by rw [hv]; exact he, hsupport, fun x hx h2 => ?_⟩
      obtain ⟨id, hid, hid2, w, hw, hxw⟩ := (lifts_of_plainly hv).support x (hsub hx) h2
      rcases hmapper hid2 with ⟨w', xs, hw', hxs, hreads⟩ | ⟨_, _, herror, -⟩
      · rw [hw] at hw'
        rw [Except.ok.inj hw'] at hxw
        exact (hmem x h2).mpr ⟨id, hid, xs, hxs, hreads x hxw h2⟩
      · rw [hw] at herror
        cases herror
    · have h2 : 2 ≤ id := by
        by_contra hlow
        rw [sourceLeaf, if_neg fun hboth => hlow hboth.1, mapLazyTransitionSymbol,
          if_pos (Nat.lt_of_not_le hlow)] at he'
        cases he'
      cases hplain : plainly (liftNode (lazyDualRailVariableMapper source.designIndex tables))
          source.localExpr with
      | error e'' => exact .inr ⟨e'', e, rfl, hsupport⟩
      | ok v =>
        obtain ⟨w, hw⟩ := (lifts_of_plainly hplain).mapped id hid h2
        rcases hmapper h2 with ⟨_, xs, -, hxs, -⟩ | ⟨_, _, herror, -⟩
        · rw [he'] at hxs
          cases hxs
        · rw [hw] at herror
          cases herror
  · rw [if_neg hrail]
    rw [decide_eq_false hrail] at hspec
    have hleaf : ∀ id, sourceLeaf tables source.designIndex false id =
        (mapLazyTransitionSymbol source.designIndex id tables.localToCombined).map
          fun x => [x] := by
      intro id
      rw [sourceLeaf, if_neg fun hboth => Bool.false_ne_true hboth.2]
    simp only [hleaf] at hspec
    have houtcome := @plainly_outcome tables.localToCombined _ remapNode_renames
      remapNode_readsOperands source.localExpr
    rcases hspec with ⟨symbols, hsupport, hall, hmem⟩ | ⟨e, hsupport, id, hid, e', he'⟩
    · cases hplain : plainly (remapNode tables.localToCombined) source.localExpr with
      | error e =>
        obtain ⟨id, hid, h2, hnone⟩ := houtcome.fails.mp ⟨e, hplain⟩
        obtain ⟨xs, hxs⟩ := hall id hid
        have hlow : ¬ id < 2 := by omega
        simp only [mapLazyTransitionSymbol, if_neg hlow, hnone] at hxs
        cases hxs
      | ok e =>
        refine .inl ⟨e, symbols, rfl, hsupport, fun x hx h2 => ?_⟩
        obtain ⟨id, hid, hid2, hlookup⟩ := mem_support_remap hplain hx h2
        have hlow : ¬ id < 2 := by omega
        refine (hmem x h2).mpr ⟨id, hid, [x], ?_, List.mem_singleton_self x⟩
        simp only [mapLazyTransitionSymbol, if_neg hlow, hlookup]
        rfl
    · have hmiss : MissesName tables.localToCombined source.localExpr := by
        by_cases hlow : id < 2
        · simp only [mapLazyTransitionSymbol, if_pos hlow] at he'
          cases he'
        · refine ⟨id, hid, by omega, ?_⟩
          cases hlookup : tables.localToCombined.lookup id with
          | none => rfl
          | some mapped =>
            simp only [mapLazyTransitionSymbol, if_neg hlow, hlookup] at he'
            cases he'
      obtain ⟨e'', he''⟩ := houtcome.fails.mpr hmiss
      exact .inr ⟨e'', e, he'', hsupport⟩

end Source

/-! ## The eager builders -/

/-- The transition of a symbol, without caches. -/
def plainAt (p : TransitionProblem) (stateSymbol : Nat) : Except String BoolExpr :=
  match p.eagerByStateSymbol.lookup stateSymbol with
  | some e => .ok e
  | none => do
    let (source, tables) ← sourceAt p stateSymbol
    sourceExpr source tables

/-- The same value everywhere, and the same expression where it was made by the factories. -/
def Agrees (p : TransitionProblem) (s : Nat) (e e' : BoolExpr) : Prop :=
  (∀ σ, e.eval σ = e'.eval σ) ∧
    ((∀ source tables, sourceAt p s = .ok (source, tables) → source.localExpr.Built) → e = e')

theorem plainly_strict {varMap : VarMap} (e : BoolExpr) :
    SameOutcome (fun r r' => (∀ σ, r.eval σ = r'.eval σ) ∧ (e.Built → r = r'))
      (plainly (remapNode varMap) e) (plainly (strictNode varMap) e) := by
  have hremap := @plainly_outcome varMap _ remapNode_renames remapNode_readsOperands e
  have hstrict := @plainly_outcome varMap _ strictNode_renames strictNode_readsOperands e
  cases hr : plainly (remapNode varMap) e with
  | error e₁ =>
    obtain ⟨e₂, h₂⟩ := hstrict.fails.mpr (hremap.fails.mp ⟨e₁, hr⟩)
    exact .inr ⟨e₁, e₂, rfl, h₂⟩
  | ok r =>
    cases hs : plainly (strictNode varMap) e with
    | error e₂ =>
      obtain ⟨e₁, h₁⟩ := hremap.fails.mpr (hstrict.fails.mp ⟨e₂, hs⟩)
      rw [hr] at h₁
      cases h₁
    | ok r' =>
      refine .inl ⟨r, r', rfl, rfl, fun σ => ?_, fun hbuilt => ?_⟩
      · rw [hremap.eval r hr, hstrict.eval r' hs]
      · have hsame := strict_of_remap hbuilt.rebuilds hr
        rw [hs] at hsame
        exact (Except.ok.inj hsame).symm

theorem plainly_secMapper {tables : DesignTables} (d : Nat) (e : BoolExpr) :
    SameOutcome (· = ·) (plainly (liftNode (lazyDualRailVariableMapper d tables)) e)
      (plainly (liftNode (secDualRailVariableMapper tables)) e) := by
  cases hlazy : plainly (liftNode (lazyDualRailVariableMapper d tables)) e with
  | ok v => exact .inl ⟨v, v, rfl, plainly_lift_congr (fun _ _ h => tablesMapper_congr h) hlazy, rfl⟩
  | error e₁ =>
    cases hsec : plainly (liftNode (secDualRailVariableMapper tables)) e with
    | error e₂ => exact .inr ⟨e₁, e₂, rfl, rfl⟩
    | ok v =>
      have hv := @plainly_lift_congr _ (lazyDualRailVariableMapper d tables) e v
        (fun _ _ h => tablesMapper_congr h) hsec
      rw [hlazy] at hv
      cases hv

/-- What is made on demand agrees with what the builders make after other expressions. -/
theorem plainAt_eagerlyBuilt (p : TransitionProblem) (built : List BoolExpr) (s : Nat) :
    SameOutcome (Agrees p s) (plainAt p s) (eagerlyBuilt p built s) := by
  unfold plainAt eagerlyBuilt
  cases heager : p.eagerByStateSymbol.lookup s with
  | some e => exact .inl ⟨e, e, rfl, rfl, fun _ => rfl, fun _ => rfl⟩
  | none =>
    cases hsource : sourceAt p s with
    | error e => exact .inr ⟨e, e, rfl, rfl⟩
    | ok found =>
      obtain ⟨source, tables⟩ := found
      simp only [ok_bind]
      unfold sourceExpr
      by_cases hrail : source.rail ≠ .binary
      · rw [if_pos hrail, if_pos hrail]
        have hmemo := memoCalls_memo
          (fun root memo h => (@memoCall_plainly _ true _
            (liftNode_readsOperands (secDualRailVariableMapper tables)) root _ h).2)
          built plainly_nil
        have hcall := (@memoCall_plainly _ true _
          (liftNode_readsOperands (secDualRailVariableMapper tables)) source.localExpr _ hmemo).1
        have hsame := SameOutcome.trans (plainly_secMapper source.designIndex source.localExpr)
          (SameOutcome.symm hcall)
        refine SameOutcome.mono (SameOutcome.bind (SameOutcome.mono hsame fun a b => ?_)
          source.rail.of) fun a b hab => ?_
        · rintro ⟨_, rfl, rfl⟩
          rfl
        · rw [hab]
          exact ⟨fun _ => rfl, fun _ => rfl⟩
      · rw [if_neg hrail, if_neg hrail]
        have hmemo := memoCalls_memo
          (fun root memo h => (@memoCall_plainly _ false _
            (@strictNode_readsOperands tables.localToCombined) root _ h).2)
          built plainly_nil
        have hcall := (@memoCall_plainly _ false _
          (@strictNode_readsOperands tables.localToCombined) source.localExpr _ hmemo).1
        refine SameOutcome.mono (SameOutcome.trans (plainly_strict source.localExpr)
          (SameOutcome.symm hcall)) fun a b => ?_
        rintro ⟨_, ⟨heval, hbuilt⟩, rfl⟩
        exact ⟨heval, fun h => hbuilt (h source tables hsource)⟩

/-! ## The cached postorder -/

/-- Every node of the root once, after its operands, and the root last. -/
structure IsPostorder (root : BoolExpr) (nodes : List BoolExpr) : Prop where
  nodup : nodes.Nodup
  mem : ∀ n, n ∈ nodes ↔ root.HasNode n
  operands : ∀ n ∈ nodes, ∀ c ∈ n.operands, c ∈ nodes ∧ nodes.idxOf c < nodes.idxOf n
  last : nodes.getLast? = some root

/-- The part of a postorder that is written. -/
structure PostorderPrefix (root : BoolExpr) (nodes : List BoolExpr) : Prop where
  nodup : nodes.Nodup
  mem : ∀ n ∈ nodes, root.HasNode n
  operands : ∀ n ∈ nodes, ∀ c ∈ n.operands, c ∈ nodes ∧ nodes.idxOf c < nodes.idxOf n
  last : root ∈ nodes → nodes.getLast? = some root

theorem PostorderPrefix.closed {root : BoolExpr} {nodes : List BoolExpr}
    (h : PostorderPrefix root nodes) (hroot : root ∈ nodes) {n : BoolExpr}
    (hn : root.HasNode n) : n ∈ nodes := by
  induction hn with
  | refl => exact hroot
  | tail _ hc ih => exact (h.operands _ ih _ hc).1

theorem PostorderPrefix.append {root n : BoolExpr} {nodes : List BoolExpr}
    (h : PostorderPrefix root nodes) (hn : root.HasNode n) (hnew : n ∉ nodes)
    (hoperands : ∀ c ∈ n.operands, c ∈ nodes) : PostorderPrefix root (nodes ++ [n]) := by
  refine ⟨?_, fun m hm => ?_, fun m hm c hc => ?_, fun hroot => ?_⟩
  · exact h.nodup.append (List.nodup_singleton n) (List.disjoint_singleton.mpr hnew)
  · rcases List.mem_append.mp hm with hold | hsame
    · exact h.mem m hold
    · rwa [List.mem_singleton.mp hsame]
  · rcases List.mem_append.mp hm with hold | hsame
    · obtain ⟨hcmem, hlt⟩ := h.operands m hold c hc
      refine ⟨List.mem_append_left _ hcmem, ?_⟩
      rwa [List.idxOf_append_of_mem hcmem, List.idxOf_append_of_mem hold]
    · obtain rfl := List.mem_singleton.mp hsame
      have hcmem := hoperands c hc
      refine ⟨List.mem_append_left _ hcmem, ?_⟩
      rw [List.idxOf_append_of_mem hcmem, List.idxOf_append_of_notMem hnew]
      exact Nat.lt_of_lt_of_le (List.idxOf_lt_length_of_mem hcmem) (Nat.le_add_right _ _)
  · -- a root that was written would have every node before it
    have hfresh : root ∉ nodes := fun hmem => hnew (h.closed hmem hn)
    rcases List.mem_append.mp hroot with hold | hsame
    · exact absurd hold hfresh
    · rw [List.mem_singleton.mp hsame]
      exact List.getLast?_concat

theorem buildEncodingPostorder_spec (root : BoolExpr) :
    ∃ nodes, buildEncodingPostorder root = .ok nodes ∧ IsPostorder root nodes := by
  have hvisit := @Traversal.visit_spec _ _ _ postorderTraversal (PostorderPrefix root)
      (fun _ _ => False) root (fun n nodes hn h hdone hchildren => by
      refine .inl ⟨nodes ++ [n], rfl, ?_, ?_, fun m hm => ?_⟩
      · exact h.append hn (of_decide_eq_false hdone) fun c hc => of_decide_eq_true (hchildren c hc)
      · exact decide_eq_true (List.mem_append_right _ (List.mem_singleton_self n))
      · exact decide_eq_true (List.mem_append_left _ (of_decide_eq_true hm))) []
    ⟨List.nodup_nil, fun _ h => absurd h List.not_mem_nil, fun _ h => absurd h List.not_mem_nil,
      fun h => absurd h List.not_mem_nil⟩
  rcases hvisit with ⟨nodes, hok, h, hroot, -⟩ | ⟨_, _, _, -, -, hbad, -⟩
  · refine ⟨nodes, by rw [buildEncodingPostorder, hok]; rfl, h.nodup, fun n => ⟨h.mem n, ?_⟩,
      h.operands, h.last (of_decide_eq_true hroot)⟩
    exact h.closed (of_decide_eq_true hroot)
  · exact absurd hbad id

/-! ## The invariant of the caches -/

/-- The expression that is encoded for a symbol, without caches. -/
def plainView (p : TransitionProblem) (stateSymbol : Nat) : Except String BoolExpr :=
  match p.eagerByStateSymbol.lookup stateSymbol with
  | some e => .ok e
  | none =>
    match sourceAt p stateSymbol with
    | .error e => .error e
    | .ok (source, tables) => if source.rail ≠ .binary then sourceExpr source tables
      else .ok source.localExpr

/-- Every entry is what is computed without caches. -/
structure Inv (p : TransitionProblem) (q : Caches) : Prop where
  remap : ∀ d tables, tablesOf p (some d) = some tables →
    ExprMemo.All (fun e r => plainly (remapNode tables.localToCombined) e = .ok r)
      (q.remapMemoByDesign d)
  lift : ∀ d tables, tablesOf p (some d) = some tables →
    ExprMemo.All (fun e v => plainly (liftNode (lazyDualRailVariableMapper d tables)) e = .ok v)
      (q.dualRailRemapMemoByDesign d)
  remapped : ∀ s e, q.remappedByStateSymbol.lookup s = some e → plainAt p s = .ok e
  storeSupport : ∀ s symbols, q.storeSupportByStateSymbol.lookup s = some symbols →
    plainSupport p s = .ok symbols
  support : ∀ s symbols, q.supportByStateSymbol.lookup s = some symbols →
    plainSupport p s = .ok symbols
  postorder : ∀ e nodes, q.encodingPostorderByExpr.lookup e = some nodes → IsPostorder e nodes

theorem lookup_cons_eq {α β : Type} [BEq α] [LawfulBEq α] {P : α → β → Prop}
    {entries : List (α × β)} (h : ∀ a b, entries.lookup a = some b → P a b) {a : α} {b : β}
    (hnew : P a b) : ∀ a' b', ((a, b) :: entries).lookup a' = some b' → P a' b' := by
  intro a' b' hlookup
  rw [List.lookup_cons] at hlookup
  split at hlookup
  · next hsame =>
    obtain rfl : a' = a := eq_of_beq hsame
    obtain rfl := Option.some.inj hlookup
    exact hnew
  · exact h a' b' hlookup

theorem inv_empty (p : TransitionProblem) : Inv p {} where
  remap _ _ _ := plainly_nil
  lift _ _ _ := plainly_nil
  remapped _ _ h := nomatch h
  storeSupport _ _ h := nomatch h
  support _ _ h := nomatch h
  postorder _ _ h := nomatch h

section Step
variable {p : TransitionProblem} {s : Nat} {q : Caches}

theorem Inv.update_remap (h : Inv p q) {d : Nat} {memo : ExprMemo}
    (hmemo : ∀ tables, tablesOf p (some d) = some tables →
      ExprMemo.All (fun e r => plainly (remapNode tables.localToCombined) e = .ok r) memo) :
    Inv p { q with remapMemoByDesign := Function.update q.remapMemoByDesign d memo } := by
  refine { h with remap := fun d' tables htables => ?_ }
  by_cases hd : d' = d
  · subst hd
    simp only [Function.update_self]
    exact hmemo tables htables
  · simp only [Function.update_of_ne hd]
    exact h.remap d' tables htables

theorem Inv.update_lift (h : Inv p q) {d : Nat} {memo : Memo BoolExpr DualRailBoolExpr}
    (hmemo : ∀ tables, tablesOf p (some d) = some tables → ExprMemo.All
      (fun e v => plainly (liftNode (lazyDualRailVariableMapper d tables)) e = .ok v) memo) :
    Inv p { q with
      dualRailRemapMemoByDesign := Function.update q.dualRailRemapMemoByDesign d memo } := by
  refine { h with lift := fun d' tables htables => ?_ }
  by_cases hd : d' = d
  · subst hd
    simp only [Function.update_self]
    exact hmemo tables htables
  · simp only [Function.update_of_ne hd]
    exact h.lift d' tables htables

variable {source : LazyTransitionSource} {tables : DesignTables}

theorem materializeLazyDualRailTransition_spec (h : Inv p q)
    (htables : tablesOf p (some source.designIndex) = some tables) (hrail : source.rail ≠ .binary) :
    SameOutcome (· = ·) (materializeLazyDualRailTransition source tables q).1
        (sourceExpr source tables) ∧
      Inv p (materializeLazyDualRailTransition source tables q).2 := by
  obtain ⟨houtcome, hmemo⟩ := @memoCall_plainly _ true _
    (liftNode_readsOperands (lazyDualRailVariableMapper source.designIndex tables))
    source.localExpr _ (h.lift _ _ htables)
  refine ⟨?_, h.update_lift fun tables' htables' => ?_⟩
  · rw [sourceExpr, if_pos hrail]
    exact SameOutcome.bind houtcome source.rail.of
  · rw [htables] at htables'
    exact Option.some.inj htables' ▸ hmemo

theorem materializeBinaryTransition_spec (h : Inv p q) (hsource : sourceAt p s = .ok (source, tables))
    (hrail : ¬ source.rail ≠ .binary) :
    SameOutcome (· = ·) (materializeBinaryTransition source tables q).1
        (sourceExpr source tables) ∧
      Inv p (materializeBinaryTransition source tables q).2 := by
  have htables := tablesOf_some hsource
  have hcovered := sourceExpr_covered hsource
  unfold materializeBinaryTransition
  rw [sourceSupport, if_neg hrail] at hcovered
  cases hsupport : remappedSupport source.localExpr source.designIndex tables.localToCombined with
  | error e =>
    -- the support is collected first and fails where the renaming does
    rcases hcovered with ⟨_, _, -, hok, -⟩ | ⟨e', _, herror, -⟩
    · rw [hsupport] at hok
      cases hok
    · exact ⟨.inr ⟨e, e', rfl, herror⟩, h⟩
  | ok symbols =>
    obtain ⟨houtcome, hmemo⟩ := @memoCall_plainly _ true _
      (@remapNode_readsOperands tables.localToCombined) source.localExpr _
      (h.remap _ _ htables)
    refine ⟨?_, h.update_remap fun tables' htables' => ?_⟩
    · rw [sourceExpr, if_neg hrail]
      exact houtcome
    · rw [htables] at htables'
      exact Option.some.inj htables' ▸ hmemo

/-! ## The queries -/

theorem at_spec (h : Inv p q) (s : Nat) :
    SameOutcome (· = ·) («at» p s q).1 (plainAt p s) ∧ Inv p («at» p s q).2 := by
  unfold «at»
  cases heager : p.eagerByStateSymbol.lookup s with
  | some e => exact ⟨.inl ⟨e, e, rfl, by rw [plainAt, heager], rfl⟩, h⟩
  | none =>
    cases hremapped : q.remappedByStateSymbol.lookup s with
    | some e => exact ⟨.inl ⟨e, e, rfl, h.remapped s e hremapped, rfl⟩, h⟩
    | none =>
      cases hsource : sourceAt p s with
      | error e => exact ⟨.inr ⟨e, e, rfl, by rw [plainAt, heager, hsource]; rfl⟩, h⟩
      | ok found =>
        obtain ⟨source, tables⟩ := found
        have hplain : plainAt p s = sourceExpr source tables := by
          rw [plainAt, heager, hsource]
          rfl
        have hrun : SameOutcome (· = ·) (if source.rail ≠ .binary then
              materializeLazyDualRailTransition source tables q
              else materializeBinaryTransition source tables q).1 (sourceExpr source tables) ∧
            Inv p (if source.rail ≠ .binary then
              materializeLazyDualRailTransition source tables q
              else materializeBinaryTransition source tables q).2 := by
          by_cases hrail : source.rail ≠ .binary
          · rw [if_pos hrail]
            exact materializeLazyDualRailTransition_spec h (tablesOf_some hsource) hrail
          · rw [if_neg hrail]
            exact materializeBinaryTransition_spec h hsource hrail
        simp only
        generalize (if source.rail ≠ .binary then materializeLazyDualRailTransition source tables q
          else materializeBinaryTransition source tables q) = run at hrun ⊢
        obtain ⟨result, q'⟩ := run
        obtain ⟨houtcome, hinv⟩ := hrun
        rw [← hplain] at houtcome
        cases result with
        | error e => exact ⟨houtcome, hinv⟩
        | ok e =>
          refine ⟨houtcome, { hinv with remapped := lookup_cons_eq hinv.remapped ?_ }⟩
          rcases houtcome with ⟨a, b, ha, hb, rfl⟩ | ⟨_, _, herror, -⟩
          · rw [hb, ← Except.ok.inj ha]
          · cases herror

theorem support_spec (h : Inv p q) (s : Nat) :
    SameOutcome (· = ·) (support p s q).1 (plainSupport p s) ∧ Inv p (support p s q).2 := by
  unfold support
  cases hfound : q.supportByStateSymbol.lookup s with
  | some symbols => exact ⟨.inl ⟨_, _, rfl, h.support s symbols hfound, rfl⟩, h⟩
  | none =>
    cases heager : p.eagerByStateSymbol.lookup s with
    | some e =>
      have hplain : plainSupport p s = identitySupport e := by rw [plainSupport, heager]
      simp only
      cases hids : identitySupport e with
      | error message => exact ⟨.inr ⟨_, _, rfl, hplain.trans hids⟩, h⟩
      | ok symbols =>
        exact ⟨.inl ⟨_, _, rfl, hplain.trans hids, rfl⟩,
          { h with support := lookup_cons_eq h.support (hplain.trans hids) }⟩
    | none =>
      cases hstored : q.storeSupportByStateSymbol.lookup s with
      | some symbols => exact ⟨.inl ⟨_, _, rfl, h.storeSupport s symbols hstored, rfl⟩, h⟩
      | none =>
        cases hsource : sourceAt p s with
        | error message => exact ⟨.inr ⟨_, _, rfl, by rw [plainSupport, heager, hsource]; rfl⟩, h⟩
        | ok found =>
          have hplain : plainSupport p s = sourceSupport found.1 found.2 := by
            rw [plainSupport, heager, hsource]
            rfl
          simp only [ok_bind]
          cases hcomputed : sourceSupport found.1 found.2 with
          | error message => exact ⟨.inr ⟨_, _, rfl, hplain.trans hcomputed⟩, h⟩
          | ok symbols =>
            exact ⟨.inl ⟨_, _, rfl, hplain.trans hcomputed, rfl⟩,
              { h with storeSupport := lookup_cons_eq h.storeSupport (hplain.trans hcomputed) }⟩

theorem expressionView_spec (h : Inv p q) (s : Nat) :
    SameOutcome (· = ·) (expressionView p s q).1 (plainView p s) ∧
      Inv p (expressionView p s q).2 := by
  unfold expressionView
  cases heager : p.eagerByStateSymbol.lookup s with
  | some e => exact ⟨.inl ⟨e, e, rfl, by rw [plainView, heager], rfl⟩, h⟩
  | none =>
    cases hsource : sourceAt p s with
    | error e => exact ⟨.inr ⟨e, e, rfl, by rw [plainView, heager, hsource]⟩, h⟩
    | ok found =>
      obtain ⟨source, tables⟩ := found
      simp only
      by_cases hrail : source.rail ≠ .binary
      · have hplain : plainAt p s = plainView p s := by
          rw [plainAt, plainView, heager, hsource]
          exact (if_pos hrail).symm
        rw [if_pos hrail, ← hplain]
        exact at_spec h s
      · rw [if_neg hrail]
        refine ⟨.inl ⟨_, source.localExpr, rfl, ?_, rfl⟩, h⟩
        rw [plainView, heager, hsource]
        exact if_neg hrail

theorem encodingPostorder_spec (h : Inv p q) (s : Nat) :
    SameOutcome (fun nodes e => IsPostorder e nodes) (encodingPostorder p s q).1 (plainView p s) ∧
      Inv p (encodingPostorder p s q).2 := by
  obtain ⟨hview, hinv⟩ := expressionView_spec h s
  unfold encodingPostorder
  generalize expressionView p s q = run at hview hinv ⊢
  obtain ⟨view, q'⟩ := run
  cases view with
  | error e =>
    rcases hview with ⟨_, _, hok, -⟩ | ⟨_, e', -, hplain⟩
    · cases hok
    · exact ⟨.inr ⟨e, e', rfl, hplain⟩, hinv⟩
  | ok e =>
    have hplain : plainView p s = .ok e := by
      rcases hview with ⟨_, _, ha, hb, rfl⟩ | ⟨_, _, herror, -⟩
      · exact hb.trans ha.symm
      · cases herror
    simp only
    cases hfound : q'.encodingPostorderByExpr.lookup e with
    | some nodes => exact ⟨.inl ⟨nodes, e, rfl, hplain, hinv.postorder e nodes hfound⟩, hinv⟩
    | none =>
      obtain ⟨nodes, hnodes, hpostorder⟩ := buildEncodingPostorder_spec e
      simp only [hnodes]
      exact ⟨.inl ⟨nodes, e, rfl, hplain, hpostorder⟩,
        { hinv with postorder := lookup_cons_eq hinv.postorder hpostorder }⟩

end Step

/-! ### The supports of several targets -/

theorem collectBySymbol_spec {p : TransitionProblem} {known : Finset Nat} (targets : List Nat)
    {q : Caches} (h : Inv p q) (c : CollectedSupport) :
    CollectOutcome p targets known c (collectBySymbol p known targets c q).1 ∧
      Inv p (collectBySymbol p known targets c q).2 := by
  induction targets generalizing c q with
  | nil =>
    exact ⟨.inl ⟨c, rfl, fun _ hs => absurd hs List.not_mem_nil, fun x => by simp,
      fun x => by simp⟩, h⟩
  | cons s targets ih =>
    obtain ⟨hsupport, hinv⟩ := support_spec h s
    unfold collectBySymbol
    generalize support p s q = run at hsupport hinv ⊢
    obtain ⟨found, q'⟩ := run
    cases found with
    | error e =>
      rcases hsupport with ⟨_, _, hok, -⟩ | ⟨_, e', -, hplain⟩
      · cases hok
      · exact ⟨.inr ⟨e, c, rfl, s, List.mem_cons_self, e', hplain⟩, hinv⟩
    | ok symbols =>
      have hplain : plainSupport p s = .ok symbols := by
        rcases hsupport with ⟨_, _, ha, hb, rfl⟩ | ⟨_, _, herror, -⟩
        · exact hb.trans ha.symm
        · cases herror
      obtain ⟨hrest, hinv'⟩ :=
        ih hinv (symbols.sort.foldl (addCollectedSupportSymbol known) c)
      refine ⟨?_, hinv'⟩
      rcases hrest with ⟨c', hok, hall, hmem, hstate⟩ | ⟨e, c', herror, s', hs', e', he'⟩
      · refine .inl ⟨c', hok, List.forall_mem_cons.mpr ⟨⟨symbols, hplain⟩, hall⟩, fun x => ?_,
          fun x => ?_⟩
        · rw [hmem, mem_allSupport_foldl, Finset.mem_sort, List.exists_mem_cons_iff, hplain]
          simp only [Except.ok.injEq, exists_eq_left', and_or_left, or_assoc]
        · rw [hstate, mem_stateSupport_foldl, Finset.mem_sort, List.exists_mem_cons_iff, hplain]
          simp only [Except.ok.injEq, exists_eq_left', and_or_left, or_assoc]
      · exact .inr ⟨e, c', herror, s', List.mem_cons_of_mem _ hs', e', he'⟩

theorem collectSupportForTargets_spec {p : TransitionProblem} {q : Caches} (h : Inv p q)
    (targets : List Nat) (known : Finset Nat) (c : CollectedSupport) :
    CollectOutcome p targets known c (collectSupportForTargets p targets known c q).1 ∧
      Inv p (collectSupportForTargets p targets known c q).2 := by
  unfold collectSupportForTargets
  split
  · next hempty =>
    rw [List.isEmpty_iff.mp hempty]
    exact ⟨.inl ⟨c, rfl, fun _ hs => absurd hs List.not_mem_nil, fun x => by simp,
      fun x => by simp⟩, h⟩
  · split
    · exact collectBySymbol_spec targets h c
    · exact ⟨collectTogether_spec p known targets c, h⟩

/-! ## Runs -/

/-- A query keeps what the caches hold. -/
theorem after_inv {p : TransitionProblem} {q : Caches} (h : Inv p q) (query : Query) :
    Inv p (q.after p query) := by
  cases query with
  | newResolver =>
    exact { h with support := fun _ _ hfound => nomatch hfound
                   postorder := fun _ _ hfound => nomatch hfound }
  | «at» s => exact (at_spec h s).2
  | support s => exact (support_spec h s).2
  | encodingPostorder s => exact (encodingPostorder_spec h s).2
  | collect targets known c => exact (collectSupportForTargets_spec h targets known c).2

theorem runQueries_inv (p : TransitionProblem) (queries : List Query) :
    Inv p (runQueries p queries) := by
  have hfrom : ∀ q, Inv p q → Inv p (queries.foldl (Caches.after p) q) := by
    induction queries with
    | nil => exact fun _ h => h
    | cons query queries ih => exact fun q h => ih _ (after_inv h query)
  exact hfrom {} (inv_empty p)

/-- A transition and its support: both or neither, and what the transition reads is reported. -/
theorem plainAt_covered (p : TransitionProblem) (s : Nat) :
    SameOutcome (fun e symbols => ∀ x ∈ e.getSupportVars, 2 ≤ x → x ∈ symbols)
      (plainAt p s) (plainSupport p s) := by
  unfold plainAt plainSupport
  cases p.eagerByStateSymbol.lookup s with
  | some e => exact .inl ⟨e, _, rfl, identitySupport_eq e, fun x hx _ => hx⟩
  | none =>
    cases hsource : sourceAt p s with
    | error e => exact .inr ⟨e, e, rfl, rfl⟩
    | ok found => exact @sourceExpr_covered _ _ found.1 found.2 hsource

/-- After any queries of any resolvers of a problem: a transition on demand agrees with the
transition that the builders make; its support is there where it is and reports what it reads;
targets have the union of their supports, but for the constants; and the postorder of the
encoded expression has every node once, operands first and the root last. -/
theorem transitionResolver_exact (p : TransitionProblem) (queries : List Query) :
    (∀ s built, SameOutcome (Agrees p s) («at» p s (runQueries p queries)).1
      (eagerlyBuilt p built s)) ∧
    (∀ s, SameOutcome (fun e symbols => ∀ x ∈ e.getSupportVars, 2 ≤ x → x ∈ symbols)
      («at» p s (runQueries p queries)).1 (support p s (runQueries p queries)).1) ∧
    (∀ s, SameOutcome (· = ·) (support p s (runQueries p queries)).1 (plainSupport p s)) ∧
    (∀ targets known c, CollectOutcome p targets known c
      (collectSupportForTargets p targets known c (runQueries p queries)).1) ∧
    ∀ s, SameOutcome (fun nodes e => IsPostorder e nodes)
      (encodingPostorder p s (runQueries p queries)).1
      (expressionView p s (runQueries p queries)).1 := by
  have hinv := runQueries_inv p queries
  refine ⟨fun s built => ?_, fun s => ?_, fun s => (support_spec hinv s).1,
    fun targets known c => (collectSupportForTargets_spec hinv targets known c).1, fun s => ?_⟩
  · refine SameOutcome.mono (SameOutcome.trans (at_spec hinv s).1
      (plainAt_eagerlyBuilt p built s)) fun e e' => ?_
    rintro ⟨_, rfl, hagrees⟩
    exact hagrees
  · have hplain := SameOutcome.trans (at_spec hinv s).1 (plainAt_covered p s)
    refine SameOutcome.mono (SameOutcome.trans hplain (SameOutcome.symm (support_spec hinv s).1))
      fun e symbols => ?_
    rintro ⟨_, ⟨_, rfl, hreads⟩, rfl⟩
    exact hreads
  · refine SameOutcome.mono (SameOutcome.trans (encodingPostorder_spec hinv s).1
      (SameOutcome.symm (expressionView_spec hinv s).1)) fun nodes e => ?_
    rintro ⟨_, hpostorder, rfl⟩
    exact hpostorder

/-- One target with a constant transition. -/
def constantTransition : TransitionProblem := { transitions0 := [(2, .createTrue)] }

/-- Its support reports the number of the constant, the collected support of the target does
not. -/
theorem collect_drops_constants :
    (support constantTransition 2 {}).1 = .ok {1} ∧
      ∃ c, (collectSupportForTargets constantTransition [2] ∅ {} {}).1 = .ok c ∧
        c.allSupport ≠ {1} := by
  have hplain : plainSupport constantTransition 2 = .ok {1} := identitySupport_eq .createTrue
  constructor
  · rcases (support_spec (inv_empty constantTransition) 2).1 with ⟨_, _, ha, hb, rfl⟩ | ⟨_, e, -, herror⟩
    · rw [hplain] at hb
      rw [ha, hb]
    · rw [hplain] at herror
      cases herror
  · rcases collectTogether_spec constantTransition ∅ [2] {} with
      ⟨c, hok, -, hmem, -⟩ | ⟨_, _, -, s, hs, e, herror⟩
    · refine ⟨c, hok, fun heq => ?_⟩
      have h1 := (hmem 1).mp (heq ▸ Finset.mem_singleton_self 1)
      rcases h1 with h | ⟨h2, -⟩
      · exact absurd h (Finset.notMem_empty 1)
      · omega
    · rw [List.mem_singleton.mp hs, hplain] at herror
      cases herror

end KeplerFormal.TransitionResolver
