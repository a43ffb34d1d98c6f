import KeplerFormal.L1Formula.FactoryBuilt
import KeplerFormal.L2Problem.TransitionResolver

/-!
# The resolver answers from its sources (`src/sec/proof/TransitionExprResolver.cpp`)

* `buildDualRailBoolExpr_plainly`: a lift with a memo is the lift of each node from its
  operands, and fails where that fails.
* `collectBoolExprSupport_spec`: the walk over one expression finds its support.
* `plainSupport`, `supportOutcome`: the support of a symbol, without caches, covers what its
  source reads.
* `collectTogether_spec`: one walk over all targets finds what their supports hold.
-/
namespace KeplerFormal.TransitionResolver

open Core Remapping

/-! ## Lifts -/

theorem liftNode_readsOperands (mapVariable : DualRailVariableMapper) :
    ReadsOperands (liftNode mapVariable) := by
  intro node memo memo' h
  cases node with
  | var id => rfl
  | not a => simp only [liftNode, h a (List.mem_singleton_self a)]
  | and a b | or a b | xor a b =>
    simp only [liftNode, h a List.mem_cons_self,
      h b (List.mem_cons_of_mem _ (List.mem_singleton_self b))]

section Lift
variable {mapVariable : DualRailVariableMapper}

/-- The result of a recursion with a table, and its table. -/
def LiftOutcome (mapVariable : DualRailVariableMapper) (node : BoolExpr)
    (run : Except String (DualRailBoolExpr × DualRailMemo)) : Prop :=
  SameOutcome (fun result v => result.1 = v ∧
    ExprMemo.All (fun e v => plainly (liftNode mapVariable) e = .ok v) result.2) run
    (plainly (liftNode mapVariable) node)

theorem remember_plainly {memo : DualRailMemo} {node : BoolExpr}
    {lift : DualRailMemo → Except String (DualRailBoolExpr × DualRailMemo)}
    (hmemo : ExprMemo.All (fun e v => plainly (liftNode mapVariable) e = .ok v) memo)
    (hlift : LiftOutcome mapVariable node (lift memo)) :
    LiftOutcome mapVariable node (memo.remember node lift) := by
  unfold DualRailMemo.remember
  split
  · next v hfound => exact .inl ⟨(v, memo), v, rfl, hmemo node v hfound, rfl, hmemo⟩
  · rcases hlift with ⟨⟨v, memo'⟩, w, hrun, hplain, rfl, hmemo'⟩ | ⟨e, e', hrun, hplain⟩
    · rw [hrun]
      exact .inl ⟨_, v, rfl, hplain, rfl, hmemo'.cons hplain⟩
    · rw [hrun]
      exact .inr ⟨e, e', rfl, hplain⟩

/-- A node with two operands, in the recursion. -/
theorem liftOutcome_binary {node a b : BoolExpr}
    (combine : DualRailBoolExpr → DualRailBoolExpr → DualRailBoolExpr)
    (hnode : plainly (liftNode mapVariable) node = do
      let left ← plainly (liftNode mapVariable) a
      let right ← plainly (liftNode mapVariable) b
      liftNode mapVariable [(a, left), (b, right)] node)
    (hcombine : ∀ memo, liftNode mapVariable memo node = do
      let lhs ← ExprMemo.at memo a
      let rhs ← ExprMemo.at memo b
      .ok (combine lhs rhs))
    {runA : Except String (DualRailBoolExpr × DualRailMemo)}
    {runB : DualRailMemo → Except String (DualRailBoolExpr × DualRailMemo)}
    (ha : LiftOutcome mapVariable a runA)
    (hb : ∀ memo, ExprMemo.All (fun e v => plainly (liftNode mapVariable) e = .ok v) memo →
      LiftOutcome mapVariable b (runB memo)) :
    LiftOutcome mapVariable node (runA >>= fun left => runB left.2 >>= fun right =>
      .ok (combine left.1 right.1, right.2)) := by
  rcases ha with ⟨⟨left, memo⟩, v, hrunA, hleft, rfl, hmemo⟩ | ⟨e, e', hrunA, hleft⟩
  · rcases hb memo hmemo with ⟨⟨right, memo'⟩, w, hrunB, hright, rfl, hmemo'⟩ | ⟨e, e', hrunB, hright⟩
    · have hsame : a = b → left = right := fun hab => by
        rw [hab, hright] at hleft
        exact (Except.ok.inj hleft).symm
      obtain ⟨hata, hatb⟩ := at_pair hsame
      refine .inl ⟨(combine left right, memo'), combine left right, ?_, ?_, rfl, hmemo'⟩
      · rw [hrunA, ok_bind, hrunB, ok_bind]
      · rw [hnode, hleft, ok_bind, hright, ok_bind, hcombine, hata, ok_bind, hatb, ok_bind]
    · refine .inr ⟨e, e', ?_, ?_⟩
      · rw [hrunA, ok_bind, hrunB]
        rfl
      · rw [hnode, hleft, ok_bind, hright]
        rfl
  · refine .inr ⟨e, e', ?_, ?_⟩
    · rw [hrunA]
      rfl
    · rw [hnode, hleft]
      rfl

/-- The recursion with a table and the pass give the same lifts. -/
theorem buildDualRailBoolExpr_plainly (root : BoolExpr) {memo : DualRailMemo}
    (hmemo : ExprMemo.All (fun e v => plainly (liftNode mapVariable) e = .ok v) memo) :
    LiftOutcome mapVariable root (buildDualRailBoolExpr mapVariable root memo) := by
  induction root generalizing memo with
  | var id =>
    refine remember_plainly hmemo ?_
    match id with
    | 0 => exact .inl ⟨_, _, rfl, rfl, rfl, hmemo⟩
    | 1 => exact .inl ⟨_, _, rfl, rfl, rfl, hmemo⟩
    | n + 2 =>
      have hplain : plainly (liftNode mapVariable) (.var (n + 2)) = mapVariable (n + 2) := rfl
      change LiftOutcome mapVariable _ ((mapVariable (n + 2)).map fun v => (v, memo))
      cases hmap : mapVariable (n + 2) with
      | error e => exact .inr ⟨e, e, rfl, hplain.trans hmap⟩
      | ok v => exact .inl ⟨(v, memo), v, rfl, hplain.trans hmap, rfl, hmemo⟩
  | not a ih =>
    refine remember_plainly hmemo ?_
    rcases ih hmemo with ⟨⟨left, memo'⟩, v, hrun, hleft, rfl, hmemo'⟩ | ⟨e, e', hrun, hleft⟩
    · refine .inl ⟨(⟨left.mayBeZero, left.mayBeOne⟩, memo'), _, ?_, ?_, rfl, hmemo'⟩
      · rw [hrun]
        rfl
      · rw [plainly, hleft]
        simp [liftNode, ExprMemo.at, ok_bind]
    · refine .inr ⟨e, e', ?_, ?_⟩
      · rw [hrun]
        rfl
      · rw [plainly, hleft]
        rfl
  | and a b iha ihb =>
    exact remember_plainly hmemo (liftOutcome_binary (fun lhs rhs =>
      ⟨.And lhs.mayBeOne rhs.mayBeOne, .Or lhs.mayBeZero rhs.mayBeZero⟩) rfl (fun _ => rfl)
      (iha hmemo) fun _ h => ihb h)
  | or a b iha ihb =>
    exact remember_plainly hmemo (liftOutcome_binary (fun lhs rhs =>
      ⟨.Or lhs.mayBeOne rhs.mayBeOne, .And lhs.mayBeZero rhs.mayBeZero⟩) rfl (fun _ => rfl)
      (iha hmemo) fun _ h => ihb h)
  | xor a b iha ihb =>
    exact remember_plainly hmemo (liftOutcome_binary (fun lhs rhs =>
      ⟨.Or (.And lhs.mayBeOne rhs.mayBeZero) (.And lhs.mayBeZero rhs.mayBeOne),
        .Or (.And lhs.mayBeOne rhs.mayBeOne) (.And lhs.mayBeZero rhs.mayBeZero)⟩) rfl
      (fun _ => rfl) (iha hmemo) fun _ h => ihb h)

/-- What the lift of an expression computes and reads. -/
theorem lifts_of_plainly {root : BoolExpr} {v : DualRailBoolExpr}
    (h : plainly (liftNode mapVariable) root = .ok v) : Lifts mapVariable root v := by
  have hnil : ExprMemo.All (fun e v => plainly (liftNode mapVariable) e = .ok v) [] :=
    fun e v he => (nomatch he)
  rcases buildDualRailBoolExpr_plainly root hnil with
    ⟨⟨w, memo⟩, w', hrun, hplain, rfl, -⟩ | ⟨e, e', -, hplain⟩
  · rw [h] at hplain
    rw [Except.ok.inj hplain]
    exact (buildDualRailBoolExpr_lifts (DualRailMemo.valid_nil _) hrun).1
  · rw [h] at hplain
    cases hplain

/-- Where every variable has a meaning, the expression has a lift. -/
theorem plainly_of_mapped {root : BoolExpr}
    (h : ∀ s ∈ root.getSupportVars, 2 ≤ s → ∃ v, mapVariable s = .ok v) :
    ∃ v, plainly (liftNode mapVariable) root = .ok v := by
  have hbinary : ∀ {node a b : BoolExpr}
      {combine : DualRailBoolExpr → DualRailBoolExpr → DualRailBoolExpr},
      (plainly (liftNode mapVariable) node = do
        let left ← plainly (liftNode mapVariable) a
        let right ← plainly (liftNode mapVariable) b
        liftNode mapVariable [(a, left), (b, right)] node) →
      (∀ memo, liftNode mapVariable memo node = do
        let lhs ← ExprMemo.at memo a
        let rhs ← ExprMemo.at memo b
        .ok (combine lhs rhs)) →
      (∃ v, plainly (liftNode mapVariable) a = .ok v) →
      (∃ v, plainly (liftNode mapVariable) b = .ok v) →
      ∃ v, plainly (liftNode mapVariable) node = .ok v := by
    intro node a b combine hnode hcombine ⟨left, hleft⟩ ⟨right, hright⟩
    have hsame : a = b → left = right := fun hab => by
      rw [hab, hright] at hleft
      exact (Except.ok.inj hleft).symm
    obtain ⟨hata, hatb⟩ := at_pair hsame
    refine ⟨combine left right, ?_⟩
    rw [hnode, hleft, ok_bind, hright, ok_bind, hcombine, hata, ok_bind, hatb, ok_bind]
  induction root with
  | var id =>
    match id with
    | 0 => exact ⟨_, rfl⟩
    | 1 => exact ⟨_, rfl⟩
    | n + 2 => exact h (n + 2) (Finset.mem_singleton_self _) (by omega)
  | not a ih =>
    obtain ⟨v, hv⟩ := ih h
    refine ⟨⟨v.mayBeZero, v.mayBeOne⟩, ?_⟩
    rw [plainly, hv]
    simp [liftNode, ExprMemo.at, ok_bind]
  | and a b iha ihb | or a b iha ihb | xor a b iha ihb =>
    exact hbinary rfl (fun _ => rfl) (iha fun s hs => h s (Finset.mem_union_left _ hs))
      (ihb fun s hs => h s (Finset.mem_union_right _ hs))

/-- Mappers with the same meanings give the same lifts. -/
theorem plainly_lift_congr {mapVariable' : DualRailVariableMapper} {root : BoolExpr}
    {v : DualRailBoolExpr} (hsame : ∀ s w, mapVariable s = .ok w → mapVariable' s = .ok w)
    (h : plainly (liftNode mapVariable) root = .ok v) :
    plainly (liftNode mapVariable') root = .ok v := by
  induction root generalizing v with
  | var id =>
    match id with
    | 0 => exact h
    | 1 => exact h
    | n + 2 => exact hsame (n + 2) v h
  | not a ih =>
    obtain ⟨left, hleft, h⟩ := bind_ok.mp h
    rw [plainly, ih hleft, ok_bind]
    exact h
  | and a b iha ihb | or a b iha ihb | xor a b iha ihb =>
    obtain ⟨left, right, hleft, hright, -, -, h⟩ := plainly_binary rfl h
    rw [plainly, iha hleft, ok_bind, ihb hright, ok_bind]
    exact h

end Lift

/-! ## Walks over leaves -/

/-- What a node adds to a walk: a leaf what it stands for, another node nothing. -/
def leafGives {α β : Type} (node : α → BoolExpr) (leaf : α → Nat → Except String (List β))
    (n : α) : Option (List β) :=
  match node n with
  | .var id => (leaf n id).toOption
  | _ => some []

section
variable {α β : Type} {node : α → BoolExpr} {leaf : α → Nat → Except String (List β)} {n : α}

theorem leafGives_var {id : Nat} (h : node n = .var id) :
    leafGives node leaf n = (leaf n id).toOption := by
  simp only [leafGives, h]

theorem leafGives_inner (h : ∀ id, node n ≠ .var id) : leafGives node leaf n = some [] := by
  unfold leafGives
  split
  · next id hid => exact absurd hid (h id)
  · rfl

end

/-- A sweep whose visits add what the leaves give adds what the leaves of its roots give. -/
theorem leafSweep_collects {α S β : Type} [DecidableEq α] {t : Sweep α S String}
    {node : α → BoolExpr} {leaf : α → Nat → Except String (List β)} {Has : S → β → Prop}
    (hreach : ∀ r id, id ∈ (node r).getSupportVars ↔ ∃ n, t.Reaches r n ∧ node n = .var id)
    (hsame : ∀ r n, t.Reaches r n → leaf n = leaf r)
    (hleaf : ∀ n s s' id, t.visit n s = .ok s' → node n = .var id →
      ∃ xs, leaf n id = .ok xs ∧ ∀ x, Has s' x ↔ Has s x ∨ x ∈ xs)
    (hinner : ∀ n s s', t.visit n s = .ok s' → (∀ id, node n ≠ .var id) → s' = s)
    (herror : ∀ n s e, t.visit n s = .error e → ∃ id e', node n = .var id ∧ leaf n id = .error e')
    (roots : List α) (s : S) :
    (∃ s', t.run roots [] s = .ok s' ∧
      (∀ r ∈ roots, ∀ id ∈ (node r).getSupportVars, ∃ xs, leaf r id = .ok xs) ∧
      ∀ x, Has s' x ↔ Has s x ∨
        ∃ r ∈ roots, ∃ id ∈ (node r).getSupportVars, ∃ xs, leaf r id = .ok xs ∧ x ∈ xs) ∨
    ∃ e s', t.run roots [] s = .error (e, s') ∧
      ∃ r ∈ roots, ∃ id ∈ (node r).getSupportVars, ∃ e', leaf r id = .error e' := by
  have hgives : ∀ n id, node n = .var id → leafGives node leaf n = (leaf n id).toOption :=
    fun n id h => leafGives_var h
  have hother : ∀ n, (∀ id, node n ≠ .var id) → leafGives node leaf n = some [] :=
    fun n h => leafGives_inner h
  have hrun := @Sweep.run_collects _ _ _ t _ _ Has (leafGives node leaf)
    (fun n s s' hvisit => by
      by_cases hvar : ∃ id, node n = .var id
      · obtain ⟨id, hid⟩ := hvar
        obtain ⟨xs, hxs, hhas⟩ := hleaf n s s' id hvisit hid
        exact ⟨xs, by rw [hgives n id hid, hxs]; rfl, hhas⟩
      · have hne : ∀ id, node n ≠ .var id := fun id hid => hvar ⟨id, hid⟩
        rw [hinner n s s' hvisit hne]
        exact ⟨[], hother n hne, fun x => by simp⟩)
    (fun n s e hvisit => by
      obtain ⟨id, e', hid, he'⟩ := herror n s e hvisit
      rw [hgives n id hid, he']
      rfl)
    roots s
  rcases hrun with ⟨s', hrun, hall, hhas⟩ | ⟨e, s', hrun, r, hr, n, hpath, hnone⟩
  · refine .inl ⟨s', hrun, fun r hr id hid => ?_, fun x => (hhas x).trans (or_congr_right ?_)⟩
    · obtain ⟨n, hpath, hn⟩ := (hreach r id).mp hid
      have hsome := hall r hr n hpath
      rw [hgives n id hn, hsame r n hpath] at hsome
      cases hresult : leaf r id with
      | ok xs => exact ⟨xs, rfl⟩
      | error e =>
        rw [hresult] at hsome
        cases hsome
    · constructor
      · rintro ⟨r, hr, n, hpath, xs, hxs, hx⟩
        by_cases hvar : ∃ id, node n = .var id
        · obtain ⟨id, hid⟩ := hvar
          rw [hgives n id hid, hsame r n hpath] at hxs
          refine ⟨r, hr, id, (hreach r id).mpr ⟨n, hpath, hid⟩, xs, ?_, hx⟩
          cases hresult : leaf r id with
          | ok ys =>
            rw [hresult] at hxs
            rw [Option.some.inj hxs]
          | error e =>
            rw [hresult] at hxs
            cases hxs
        · rw [hother n fun id hid => hvar ⟨id, hid⟩] at hxs
          rw [← Option.some.inj hxs] at hx
          exact absurd hx List.not_mem_nil
      · rintro ⟨r, hr, id, hid, xs, hxs, hx⟩
        obtain ⟨n, hpath, hn⟩ := (hreach r id).mp hid
        refine ⟨r, hr, n, hpath, xs, ?_, hx⟩
        rw [hgives n id hn, hsame r n hpath, hxs]
        rfl
  · refine .inr ⟨e, s', hrun, r, hr, ?_⟩
    by_cases hvar : ∃ id, node n = .var id
    · obtain ⟨id, hid⟩ := hvar
      refine ⟨id, (hreach r id).mpr ⟨n, hpath, hid⟩, ?_⟩
      rw [hgives n id hid, hsame r n hpath] at hnone
      cases hresult : leaf r id with
      | ok xs =>
        rw [hresult] at hnone
        cases hnone
      | error e' => exact ⟨e', rfl⟩
    · rw [hother n fun id hid => hvar ⟨id, hid⟩] at hnone
      cases hnone

/-! ## The support of one expression -/

/-- What the walk over the leaves of an expression adds, in any respect: `view` reads it off
what a leaf stands for. -/
theorem supportSweep_collects (formula : BoolExpr)
    (mapSymbol : Nat → Except String (Nat × List DualRailSymbolPair)) {β : Type}
    (Has : SupportWalk → β → Prop) (view : Nat × List DualRailSymbolPair → List β)
    (hview : ∀ walk r x, Has (insert r.1 walk.1, walk.2 ++ r.2) x ↔ Has walk x ∨ x ∈ view r) :
    (∃ walk, (supportSweep mapSymbol).run [formula] [] (∅, []) = .ok walk ∧
      (∀ id ∈ formula.getSupportVars, ∃ r, mapSymbol id = .ok r) ∧
      ∀ x, Has walk x ↔ Has (∅, []) x ∨
        ∃ id ∈ formula.getSupportVars, ∃ r, mapSymbol id = .ok r ∧ x ∈ view r) ∨
    ∃ e walk, (supportSweep mapSymbol).run [formula] [] (∅, []) = .error (e, walk) ∧
      ∃ id ∈ formula.getSupportVars, ∃ e', mapSymbol id = .error e' := by
  have hmap : ∀ {id xs}, (mapSymbol id).map view = .ok xs →
      ∃ r, mapSymbol id = .ok r ∧ view r = xs := by
    intro id xs h
    cases hid : mapSymbol id with
    | ok r =>
      rw [hid] at h
      exact ⟨r, rfl, Except.ok.inj h⟩
    | error e =>
      rw [hid] at h
      cases h
  have hrun := @leafSweep_collects _ _ _ _ (supportSweep mapSymbol) (fun e => e)
      (fun _ id => (mapSymbol id).map view) Has
    (fun r id => by
      rw [BoolExpr.mem_support_iff_hasNode]
      exact ⟨fun h => ⟨_, h, rfl⟩, fun ⟨n, hpath, hn⟩ => hn ▸ hpath⟩)
    (fun _ _ _ => rfl)
    (fun n walk walk' id hvisit hid => by
      subst hid
      simp only [supportSweep] at hvisit
      split at hvisit
      · next symbol touched hsymbol =>
        rw [← Except.ok.inj hvisit]
        exact ⟨_, by rw [hsymbol]; rfl, hview walk (symbol, touched)⟩
      · cases hvisit)
    (fun n walk walk' hvisit hne => by
      cases n with
      | var id => exact absurd rfl (hne id)
      | _ => exact (Except.ok.inj hvisit).symm)
    (fun n walk e hvisit => by
      cases n with
      | var id =>
        simp only [supportSweep] at hvisit
        split at hvisit
        · cases hvisit
        · next e' hsymbol => exact ⟨id, e', rfl, by rw [hsymbol]; rfl⟩
      | _ => cases hvisit)
    [formula] (∅, [])
  rcases hrun with ⟨walk, hrun, hall, hhas⟩ | ⟨e, walk, hrun, r, hr, id, hid, e', he'⟩
  · refine .inl ⟨walk, hrun, fun id hid => ?_, fun x => (hhas x).trans (or_congr_right ?_)⟩
    · obtain ⟨xs, hxs⟩ := hall formula (List.mem_singleton_self _) id hid
      obtain ⟨r, hr, -⟩ := hmap hxs
      exact ⟨r, hr⟩
    · refine ⟨fun ⟨r, hr, id, hid, xs, hxs, hx⟩ => ?_, fun ⟨id, hid, r, hr, hx⟩ => ?_⟩
      · obtain ⟨r', hr', rfl⟩ := hmap hxs
        rw [List.mem_singleton.mp hr] at hid
        exact ⟨id, hid, r', hr', hx⟩
      · exact ⟨formula, List.mem_singleton_self _, id, hid, view r, by rw [hr]; rfl, hx⟩
  · rw [List.mem_singleton.mp hr] at hid
    refine .inr ⟨e, walk, hrun, id, hid, ?_⟩
    cases hsymbol : mapSymbol id with
    | ok r =>
      rw [hsymbol] at he'
      cases he'
    | error e'' => exact ⟨e'', rfl⟩

/-- What a walk over the leaves finds, or the leaf that it fails at. -/
theorem collectBoolExprSupport_spec (formula : BoolExpr)
    (mapSymbol : Nat → Except String (Nat × List DualRailSymbolPair)) :
    (∃ walk, collectBoolExprSupport formula mapSymbol = .ok walk ∧
      (∀ id ∈ formula.getSupportVars, ∃ r, mapSymbol id = .ok r) ∧
      (∀ x, x ∈ walk.1 ↔ ∃ id ∈ formula.getSupportVars, ∃ r, mapSymbol id = .ok r ∧ x = r.1) ∧
      ∀ rails, rails ∈ walk.2 ↔
        ∃ id ∈ formula.getSupportVars, ∃ r, mapSymbol id = .ok r ∧ rails ∈ r.2) ∨
    ∃ e, collectBoolExprSupport formula mapSymbol = .error e ∧
      ∃ id ∈ formula.getSupportVars, ∃ e', mapSymbol id = .error e' := by
  have hsymbols := supportSweep_collects formula mapSymbol (fun walk x => x ∈ walk.1)
    (fun r => [r.1]) fun walk r x => by simp [or_comm]
  have hrails := supportSweep_collects formula mapSymbol (fun walk rails => rails ∈ walk.2)
    (fun r => r.2) fun walk r x => by simp
  unfold collectBoolExprSupport
  rcases hsymbols with ⟨walk, hrun, hall, hmem⟩ | ⟨e, walk, hrun, hfail⟩
  · rcases hrails with ⟨walk', hrun', -, hmem'⟩ | ⟨e, walk', hrun', -⟩
    · rw [hrun] at hrun'
      obtain rfl := Except.ok.inj hrun'
      refine .inl ⟨walk, by rw [hrun]; rfl, hall, fun x => ?_, fun x => ?_⟩
      · rw [hmem]
        simp
      · rw [hmem']
        simp
    · rw [hrun] at hrun'
      cases hrun'
  · exact .inr ⟨e, by rw [hrun]; rfl, hfail⟩

/-- The support that is reported for a symbol, without caches. -/
def plainSupport (p : TransitionProblem) (stateSymbol : Nat) : Except String (Finset Nat) :=
  match p.eagerByStateSymbol.lookup stateSymbol with
  | some e => identitySupport e
  | none => do
    let (source, tables) ← sourceAt p stateSymbol
    sourceSupport source tables

/-- The support of a symbol against the leaves below its root. -/
inductive SupportOutcome (p : TransitionProblem) (s : Nat) : Prop
  | found (key : SupportVisitKey) (symbols : Finset Nat) (hroot : supportRoot p s = .ok key)
    (hsupport : plainSupport p s = .ok symbols)
    (hleaves : ∀ id ∈ key.node.getSupportVars, ∃ xs, leafSymbols p key id = .ok xs)
    (hmem : ∀ x, 2 ≤ x → (x ∈ symbols ↔
      ∃ id ∈ key.node.getSupportVars, ∃ xs, leafSymbols p key id = .ok xs ∧ x ∈ xs))
  | unpublished (key : SupportVisitKey) (e : String) (hroot : supportRoot p s = .ok key)
    (hsupport : plainSupport p s = .error e)
    (hleaf : ∃ id ∈ key.node.getSupportVars, ∃ e', leafSymbols p key id = .error e')
  | missing (e e' : String) (hroot : supportRoot p s = .error e)
    (hsupport : plainSupport p s = .error e')

theorem sourceAt_tables {p : TransitionProblem} {s : Nat} {source : LazyTransitionSource}
    {tables : DesignTables} (h : sourceAt p s = .ok (source, tables)) :
    ∃ store, p.lazyTransitions = some store ∧ store.designs[source.designIndex]? = some tables := by
  unfold sourceAt at h
  split at h
  · cases h
  · next store hstore =>
    split at h
    · cases h
    · split at h
      · cases h
      · next found _ tables' htables =>
        obtain ⟨rfl, rfl⟩ := Prod.mk.inj (Except.ok.inj h)
        exact ⟨store, hstore, htables⟩

theorem tablesOf_some {p : TransitionProblem} {s : Nat} {source : LazyTransitionSource}
    {tables : DesignTables} (h : sourceAt p s = .ok (source, tables)) :
    tablesOf p (some source.designIndex) = some tables := by
  obtain ⟨store, hstore, htables⟩ := sourceAt_tables h
  simp [tablesOf, hstore, htables]

/-- The leaves of an eager transition stand for themselves. -/
theorem leafSymbols_eager (p : TransitionProblem) (e : BoolExpr) (id : Nat) :
    leafSymbols p { node := e } id = .ok [id] := by
  have hnone : tablesOf p none = none := by
    unfold tablesOf
    cases p.lazyTransitions <;> rfl
  simp [leafSymbols, hnone]

/-- What a leaf of a source stands for. -/
def sourceLeaf (tables : DesignTables) (d : Nat) (rails : Bool) (id : Nat) :
    Except String (List Nat) :=
  match (if 2 ≤ id ∧ rails then tables.dualRailStateByLocalSymbol.lookup id else none) with
  | some pair => .ok [pair.mayBeOne, pair.mayBeZero]
  | none => (mapLazyTransitionSymbol d id tables.localToCombined).map fun x => [x]

/-- The leaves of a source are read through its tables. -/
theorem leafSymbols_source {p : TransitionProblem} {tables : DesignTables} {d : Nat}
    (htables : tablesOf p (some d) = some tables) (e : BoolExpr) (rails : Bool) (id : Nat) :
    leafSymbols p ⟨e, some d, if rails then some d else none, d⟩ id =
      sourceLeaf tables d rails id := by
  have hnone : tablesOf p none = none := by
    unfold tablesOf
    cases p.lazyTransitions <;> rfl
  unfold leafSymbols sourceLeaf
  by_cases hid : 2 ≤ id
  · cases rails with
    | true =>
      simp only [hid, if_true, htables, Option.bind_some, and_self]
      cases tables.dualRailStateByLocalSymbol.lookup id with
      | some pair => rfl
      | none => cases mapLazyTransitionSymbol d id tables.localToCombined <;> rfl
    | false =>
      simp only [hid, if_true, htables, hnone, Bool.false_eq_true, if_false, Option.bind_none,
        and_false]
      cases mapLazyTransitionSymbol d id tables.localToCombined <;> rfl
  · have hlow : id < 2 := Nat.lt_of_not_le hid
    simp only [hid, if_false, Option.bind_none, false_and, mapLazyTransitionSymbol, hlow, if_true]
    rfl

theorem identitySupport_eq (e : BoolExpr) : identitySupport e = .ok e.getSupportVars := by
  unfold identitySupport
  rcases collectBoolExprSupport_spec e (fun symbol => .ok (symbol, [])) with
    ⟨walk, hwalk, -, hmem, -⟩ | ⟨_, _, id, _, e', he'⟩
  · rw [hwalk, ok_bind]
    refine congrArg _ (Finset.ext fun x => ?_)
    rw [hmem]
    simp
  · cases he'

/-- The two rails of every state that is met, and the names of the other symbols. -/
theorem mem_remappedDualRail {touched : List DualRailSymbolPair} {support : Finset Nat} {x : Nat}
    (h2 : 2 ≤ x) :
    x ∈ ((touched.foldl (fun s rails => insert rails.mayBeZero s) support).erase 0).erase 1 ↔
      x ∈ support ∨ ∃ rails ∈ touched, x = rails.mayBeZero := by
  have hfold : ∀ (touched : List DualRailSymbolPair) (support : Finset Nat),
      x ∈ touched.foldl (fun s rails => insert rails.mayBeZero s) support ↔
        x ∈ support ∨ ∃ rails ∈ touched, x = rails.mayBeZero := by
    intro touched
    induction touched with
    | nil => simp
    | cons rails touched ih =>
      intro support
      rw [List.foldl_cons, ih, Finset.mem_insert]
      simp only [List.mem_cons, exists_eq_or_imp]
      tauto
  rw [Finset.mem_erase, Finset.mem_erase, hfold]
  refine ⟨fun h => h.2.2, fun h => ⟨by omega, by omega, h⟩⟩

/-- What a symbol of a walk stands for, against the symbols of a leaf. -/
def StandsFor (r : Nat × List DualRailSymbolPair) (xs : List Nat) : Prop :=
  ∀ x, 2 ≤ x → (x ∈ xs ↔ x = r.1 ∨ ∃ rails ∈ r.2, x = rails.mayBeZero)

/-- A walk whose symbols stand for the leaves finds what the leaves stand for. -/
theorem collectBoolExprSupport_leaves {formula : BoolExpr}
    {mapSymbol : Nat → Except String (Nat × List DualRailSymbolPair)}
    {leaf : Nat → Except String (List Nat)}
    (hleaf : ∀ id, SameOutcome StandsFor (mapSymbol id) (leaf id)) :
    (∃ walk, collectBoolExprSupport formula mapSymbol = .ok walk ∧
      (∀ id ∈ formula.getSupportVars, ∃ xs, leaf id = .ok xs) ∧
      (∀ rails ∈ walk.2, ∃ id r, mapSymbol id = .ok r ∧ rails ∈ r.2) ∧
      ∀ x, 2 ≤ x → ((x ∈ walk.1 ∨ ∃ rails ∈ walk.2, x = rails.mayBeZero) ↔
        ∃ id ∈ formula.getSupportVars, ∃ xs, leaf id = .ok xs ∧ x ∈ xs)) ∨
    ∃ e, collectBoolExprSupport formula mapSymbol = .error e ∧
      ∃ id ∈ formula.getSupportVars, ∃ e', leaf id = .error e' := by
  rcases collectBoolExprSupport_spec formula mapSymbol with
    ⟨walk, hwalk, hall, hmem, hrails⟩ | ⟨e, hwalk, id, hid, e', he'⟩
  · refine .inl ⟨walk, hwalk, fun id hid => ?_, fun rails hin => ?_,
      fun x h2 => ⟨fun hx => ?_, fun hx => ?_⟩⟩
    · obtain ⟨r, hr⟩ := hall id hid
      rcases hleaf id with ⟨_, xs, -, hxs, -⟩ | ⟨_, _, herror, -⟩
      · exact ⟨xs, hxs⟩
      · rw [hr] at herror
        cases herror
    · obtain ⟨id, -, r, hr, hrail⟩ := (hrails rails).mp hin
      exact ⟨id, r, hr, hrail⟩
    · obtain ⟨id, hid, r, hr, hx⟩ : ∃ id ∈ formula.getSupportVars, ∃ r, mapSymbol id = .ok r ∧
          (x = r.1 ∨ ∃ rails ∈ r.2, x = rails.mayBeZero) := by
        rcases hx with hx | ⟨rails, hrailsMem, hx⟩
        · obtain ⟨id, hid, r, hr, hx⟩ := (hmem x).mp hx
          exact ⟨id, hid, r, hr, .inl hx⟩
        · obtain ⟨id, hid, r, hr, hin⟩ := (hrails rails).mp hrailsMem
          exact ⟨id, hid, r, hr, .inr ⟨rails, hin, hx⟩⟩
      rcases hleaf id with ⟨r', xs, hr', hxs, hstands⟩ | ⟨_, _, herror, -⟩
      · rw [hr] at hr'
        rw [Except.ok.inj hr'] at hx
        exact ⟨id, hid, xs, hxs, (hstands x h2).mpr hx⟩
      · rw [hr] at herror
        cases herror
    · obtain ⟨id, hid, xs, hxs, hx⟩ := hx
      rcases hleaf id with ⟨r, xs', hr, hxs', hstands⟩ | ⟨_, _, -, herror⟩
      · rw [hxs] at hxs'
        rw [Except.ok.inj hxs'] at hx
        rcases (hstands x h2).mp hx with rfl | ⟨rails, hin, hx⟩
        · exact .inl ((hmem _).mpr ⟨id, hid, r, hr, rfl⟩)
        · exact .inr ⟨rails, (hrails rails).mpr ⟨id, hid, r, hr, hin⟩, hx⟩
      · rw [hxs] at herror
        cases herror
  · rcases hleaf id with ⟨_, _, hr, -, -⟩ | ⟨_, e'', -, herror⟩
    · rw [he'] at hr
      cases hr
    · exact .inr ⟨e, hwalk, id, hid, e'', herror⟩

theorem binarySymbol_stands (designIndex : Nat) (symbolMap : VarMap) (id : Nat) :
    SameOutcome StandsFor (binarySymbol designIndex symbolMap id)
      ((mapLazyTransitionSymbol designIndex id symbolMap).map fun x => [x]) := by
  unfold binarySymbol
  cases mapLazyTransitionSymbol designIndex id symbolMap with
  | ok mapped => exact .inl ⟨(mapped, []), [mapped], rfl, rfl, fun x _ => by simp⟩
  | error e => exact .inr ⟨e, e, rfl, rfl⟩

/-- The support of a source is what its leaves stand for. -/
theorem sourceSupport_spec {p : TransitionProblem} {s : Nat} {source : LazyTransitionSource}
    {tables : DesignTables} (h : sourceAt p s = .ok (source, tables)) {key : SupportVisitKey}
    (hkey : key = ⟨source.localExpr, some source.designIndex,
      if source.rail ≠ .binary then some source.designIndex else none, source.designIndex⟩) :
    (∃ symbols, sourceSupport source tables = .ok symbols ∧
      (∀ id ∈ key.node.getSupportVars, ∃ xs, leafSymbols p key id = .ok xs) ∧
      ∀ x, 2 ≤ x → (x ∈ symbols ↔
        ∃ id ∈ key.node.getSupportVars, ∃ xs, leafSymbols p key id = .ok xs ∧ x ∈ xs)) ∨
    ∃ e, sourceSupport source tables = .error e ∧
      ∃ id ∈ key.node.getSupportVars, ∃ e', leafSymbols p key id = .error e' := by
  have hsymbols := leafSymbols_source (tablesOf_some h) source.localExpr
    (decide (source.rail ≠ .binary))
  simp only [decide_eq_true_eq] at hsymbols
  rw [← hkey] at hsymbols
  have hnode : key.node = source.localExpr := by rw [hkey]
  rw [hnode]
  unfold sourceSupport
  by_cases hrail : source.rail ≠ .binary
  · have hleaf : ∀ id, SameOutcome StandsFor (dualRailSymbol source.designIndex tables id)
        (leafSymbols p key id) := by
      intro id
      rw [hsymbols, dualRailSymbol, sourceLeaf]
      by_cases hid : id < 2
      · rw [if_pos hid, if_neg (by omega)]
        refine .inl ⟨(id, []), [id], rfl, ?_, fun x _ => by simp⟩
        simp only [mapLazyTransitionSymbol, if_pos hid]
        rfl
      · rw [if_neg hid, if_pos ⟨by omega, decide_eq_true hrail⟩]
        cases tables.dualRailStateByLocalSymbol.lookup id with
        | some rails =>
          exact .inl ⟨(rails.mayBeOne, [rails]), _, rfl, rfl, fun x _ => by simp⟩
        | none => exact binarySymbol_stands _ _ id
    rw [if_pos hrail, remappedDualRailSupport]
    rcases @collectBoolExprSupport_leaves source.localExpr _ _ hleaf with
      ⟨walk, hwalk, hall, -, hmem⟩ | ⟨e, hwalk, hfail⟩
    · refine .inl ⟨_, by rw [hwalk]; rfl, hall, fun x h2 => ?_⟩
      rw [mem_remappedDualRail h2, hmem x h2]
    · exact .inr ⟨e, by rw [hwalk]; rfl, hfail⟩
  · have hleaf : ∀ id, SameOutcome StandsFor
        (binarySymbol source.designIndex tables.localToCombined id) (leafSymbols p key id) := by
      intro id
      rw [hsymbols, sourceLeaf, if_neg fun hboth => hrail (of_decide_eq_true hboth.2)]
      exact binarySymbol_stands _ _ id
    rw [if_neg hrail, remappedSupport]
    rcases @collectBoolExprSupport_leaves source.localExpr _ _ hleaf with
      ⟨walk, hwalk, hall, hrails, hmem⟩ | ⟨e, hwalk, hfail⟩
    · refine .inl ⟨_, by rw [hwalk]; rfl, hall, fun x h2 => ?_⟩
      rw [← hmem x h2, iff_comm, or_iff_left_iff_imp]
      intro ⟨rails, hin, _⟩
      obtain ⟨id, r, hr, hin⟩ := hrails rails hin
      obtain ⟨mapped, -, hr⟩ := bind_ok.mp hr
      rw [← Except.ok.inj hr] at hin
      exact absurd hin List.not_mem_nil
    · exact .inr ⟨e, by rw [hwalk]; rfl, hfail⟩

theorem supportOutcome (p : TransitionProblem) (s : Nat) : SupportOutcome p s := by
  cases heager : p.eagerByStateSymbol.lookup s with
  | some e =>
    refine .found { node := e } e.getSupportVars (by rw [supportRoot, heager])
      (by rw [plainSupport, heager]; exact identitySupport_eq e)
      (fun id _ => ⟨[id], leafSymbols_eager p e id⟩) fun x _ => ?_
    refine ⟨fun hx => ⟨x, hx, [x], leafSymbols_eager p e x, List.mem_singleton_self x⟩,
      fun ⟨id, hid, xs, hxs, hx⟩ => ?_⟩
    rw [leafSymbols_eager] at hxs
    rw [← Except.ok.inj hxs] at hx
    rw [List.mem_singleton.mp hx]
    exact hid
  | none =>
    cases hsource : sourceAt p s with
    | error e =>
      refine .missing e e ?_ ?_
      · rw [supportRoot, heager, hsource]
        rfl
      · rw [plainSupport, heager, hsource]
        rfl
    | ok found =>
      obtain ⟨source, tables⟩ := found
      have hroot : supportRoot p s = .ok ⟨source.localExpr, some source.designIndex,
          if source.rail ≠ .binary then some source.designIndex else none,
          source.designIndex⟩ := by
        rw [supportRoot, heager, hsource]
        rfl
      have hplain : plainSupport p s = sourceSupport source tables := by
        rw [plainSupport, heager, hsource]
        rfl
      rcases sourceSupport_spec hsource rfl with ⟨symbols, hsymbols, hall, hmem⟩ | ⟨e, he, hfail⟩
      · exact .found _ symbols hroot (hplain.trans hsymbols) hall hmem
      · exact .unpublished _ e hroot (hplain.trans he) hfail

/-! ## All targets together -/

theorem collect_reaches {p : TransitionProblem} {known : Finset Nat} {key key' : SupportVisitKey}
    (h : (collectSweep p known).Reaches key key') :
    key' = { key with node := key'.node } ∧ key.node.HasNode key'.node := by
  induction h with
  | refl => exact ⟨rfl, .refl⟩
  | tail _ hc ih =>
    obtain ⟨node, hnode, rfl⟩ := List.mem_map.mp hc
    obtain ⟨hkey, hpath⟩ := ih
    refine ⟨?_, hpath.tail hnode⟩
    rw [hkey]

theorem reaches_of_hasNode {p : TransitionProblem} {known : Finset Nat} {key : SupportVisitKey}
    {node : BoolExpr} (h : key.node.HasNode node) :
    (collectSweep p known).Reaches key { key with node := node } := by
  induction h with
  | refl => exact .refl
  | tail _ hc ih => exact ih.tail (List.mem_map_of_mem hc)

theorem mem_allSupport_foldl {known : Finset Nat} {c : CollectedSupport} {xs : List Nat} {x : Nat} :
    x ∈ (xs.foldl (addCollectedSupportSymbol known) c).allSupport ↔
      x ∈ c.allSupport ∨ (2 ≤ x ∧ x ∈ xs) := by
  induction xs generalizing c with
  | nil => simp
  | cons y xs ih =>
    rw [List.foldl_cons, ih, addCollectedSupportSymbol]
    split
    · next hy =>
      simp only [List.mem_cons]
      refine or_congr_right (and_congr_right fun h2 => ?_)
      exact ⟨.inr, fun h => h.resolve_left (by omega)⟩
    · next hy =>
      rw [Finset.mem_insert, List.mem_cons]
      refine ⟨fun h => ?_, fun h => ?_⟩
      · rcases h with (rfl | h) | ⟨h2, h⟩
        · exact .inr ⟨by omega, .inl rfl⟩
        · exact .inl h
        · exact .inr ⟨h2, .inr h⟩
      · rcases h with h | ⟨h2, rfl | h⟩
        · exact .inl (.inr h)
        · exact .inl (.inl rfl)
        · exact .inr ⟨h2, h⟩

theorem mem_stateSupport_foldl {known : Finset Nat} {c : CollectedSupport} {xs : List Nat}
    {x : Nat} : x ∈ (xs.foldl (addCollectedSupportSymbol known) c).stateSupport ↔
      x ∈ c.stateSupport ∨ (x ∈ known ∧ 2 ≤ x ∧ x ∈ xs) := by
  induction xs generalizing c with
  | nil => simp
  | cons y xs ih =>
    rw [List.foldl_cons, ih, addCollectedSupportSymbol]
    split
    · next hy =>
      simp only [List.mem_cons]
      refine or_congr_right (and_congr_right fun _ => and_congr_right fun h2 => ?_)
      exact ⟨.inr, fun h => h.resolve_left (by omega)⟩
    · next hy =>
      rw [List.mem_cons]
      split
      · next hknown =>
        rw [Finset.mem_insert]
        refine ⟨fun h => ?_, fun h => ?_⟩
        · rcases h with (rfl | h) | ⟨hk, h2, h⟩
          · exact .inr ⟨hknown, by omega, .inl rfl⟩
          · exact .inl h
          · exact .inr ⟨hk, h2, .inr h⟩
        · rcases h with h | ⟨hk, h2, rfl | h⟩
          · exact .inl (.inr h)
          · exact .inl (.inl rfl)
          · exact .inr ⟨hk, h2, h⟩
      · next hknown =>
        refine or_congr_right (and_congr_right fun hk => and_congr_right fun _ => ?_)
        refine ⟨.inr, fun h => h.resolve_left ?_⟩
        rintro rfl
        exact hknown hk

/-- What collecting supports owes: the reported symbols of all targets but the constants. -/
def CollectOutcome (p : TransitionProblem) (targets : List Nat) (known : Finset Nat)
    (c : CollectedSupport) (result : Except (String × CollectedSupport) CollectedSupport) :
    Prop :=
  (∃ c', result = .ok c' ∧ (∀ s ∈ targets, ∃ symbols, plainSupport p s = .ok symbols) ∧
    (∀ x, x ∈ c'.allSupport ↔ x ∈ c.allSupport ∨
      (2 ≤ x ∧ ∃ s ∈ targets, ∃ symbols, plainSupport p s = .ok symbols ∧ x ∈ symbols)) ∧
    ∀ x, x ∈ c'.stateSupport ↔ x ∈ c.stateSupport ∨
      (x ∈ known ∧ 2 ≤ x ∧ ∃ s ∈ targets, ∃ symbols, plainSupport p s = .ok symbols ∧
        x ∈ symbols)) ∨
  ∃ e c', result = .error (e, c') ∧ ∃ s ∈ targets, ∃ e', plainSupport p s = .error e'

/-- The walk from the roots, in either of the two sets. -/
theorem collectSweep_collects {p : TransitionProblem} {known : Finset Nat}
    (Has : CollectedSupport → Nat → Prop) (keep : Nat → Bool)
    (hadd : ∀ (xs : List Nat) c x, Has (xs.foldl (addCollectedSupportSymbol known) c) x ↔
      Has c x ∨ (keep x = true ∧ x ∈ xs)) (roots : List SupportVisitKey) (c : CollectedSupport) :
    (∃ c', (collectSweep p known).run roots [] c = .ok c' ∧
      (∀ key ∈ roots, ∀ id ∈ key.node.getSupportVars, ∃ xs, leafSymbols p key id = .ok xs) ∧
      ∀ x, Has c' x ↔ Has c x ∨ (keep x = true ∧ ∃ key ∈ roots,
        ∃ id ∈ key.node.getSupportVars, ∃ xs, leafSymbols p key id = .ok xs ∧ x ∈ xs)) ∨
    ∃ e c', (collectSweep p known).run roots [] c = .error (e, c') ∧
      ∃ key ∈ roots, ∃ id ∈ key.node.getSupportVars, ∃ e', leafSymbols p key id = .error e' := by
  have hmap : ∀ {key id xs}, (leafSymbols p key id).map (List.filter keep) = .ok xs →
      ∃ ys, leafSymbols p key id = .ok ys ∧ ys.filter keep = xs := by
    intro key id xs h
    cases hid : leafSymbols p key id with
    | ok ys =>
      rw [hid] at h
      exact ⟨ys, rfl, Except.ok.inj h⟩
    | error e =>
      rw [hid] at h
      cases h
  have hrun := @leafSweep_collects _ _ _ _ (collectSweep p known) SupportVisitKey.node
      (fun key id => (leafSymbols p key id).map (List.filter keep)) Has
    (fun key id => by
      refine ⟨fun h => ⟨_, reaches_of_hasNode (BoolExpr.mem_support_iff_hasNode.mp h), rfl⟩,
        fun ⟨key', hpath, hkey'⟩ => ?_⟩
      exact BoolExpr.mem_support_iff_hasNode.mpr (hkey' ▸ (collect_reaches hpath).2))
    (fun key key' hpath => by
      rw [(collect_reaches hpath).1]
      rfl)
    (fun key c c' id hvisit hid => by
      simp only [collectSweep, hid] at hvisit
      split at hvisit
      · next symbols hsymbols =>
        rw [← Except.ok.inj hvisit]
        refine ⟨_, by rw [hsymbols]; rfl, fun x => ?_⟩
        rw [hadd, List.mem_filter, and_comm]
      · cases hvisit)
    (fun key c c' hvisit hne => by
      simp only [collectSweep] at hvisit
      exact (Except.ok.inj hvisit).symm)
    (fun key c e hvisit => by
      simp only [collectSweep] at hvisit
      split at hvisit
      · next id hid =>
        split at hvisit
        · cases hvisit
        · next e' hsymbols => exact ⟨id, e', hid, by rw [hsymbols]; rfl⟩
      · cases hvisit)
    roots c
  rcases hrun with ⟨c', hrun, hall, hhas⟩ | ⟨e, c', hrun, key, hkey, id, hid, e', he'⟩
  · refine .inl ⟨c', hrun, fun key hkey id hid => ?_, fun x => (hhas x).trans (or_congr_right ?_)⟩
    · obtain ⟨xs, hxs⟩ := hall key hkey id hid
      obtain ⟨ys, hys, -⟩ := hmap hxs
      exact ⟨ys, hys⟩
    · refine ⟨fun ⟨key, hkey, id, hid, xs, hxs, hx⟩ => ?_,
        fun ⟨hkeep, key, hkey, id, hid, ys, hys, hx⟩ => ?_⟩
      · obtain ⟨ys, hys, rfl⟩ := hmap hxs
        obtain ⟨hx, hkeep⟩ := List.mem_filter.mp hx
        exact ⟨hkeep, key, hkey, id, hid, ys, hys, hx⟩
      · exact ⟨key, hkey, id, hid, ys.filter keep, by rw [hys]; rfl,
          List.mem_filter.mpr ⟨hx, hkeep⟩⟩
  · refine .inr ⟨e, c', hrun, key, hkey, id, hid, ?_⟩
    cases hsymbols : leafSymbols p key id with
    | ok ys =>
      rw [hsymbols] at he'
      cases he'
    | error e'' => exact ⟨e'', rfl⟩

/-- One walk over all targets finds what their supports hold. -/
theorem collectTogether_spec (p : TransitionProblem) (known : Finset Nat) (targets : List Nat)
    (c : CollectedSupport) : CollectOutcome p targets known c (collectTogether p known targets c) := by
  unfold collectTogether
  cases hroots : targets.mapM (supportRoot p) with
  | error e =>
    obtain ⟨s, hs, e', he'⟩ := mapM_error hroots
    refine .inr ⟨e, c, rfl, s, hs, ?_⟩
    cases supportOutcome p s with
    | found key symbols hroot hsupport hleaves hmem =>
      rw [hroot] at he'
      cases he'
    | unpublished key message hroot hsupport hleaf => exact ⟨message, hsupport⟩
    | missing message message' hroot hsupport => exact ⟨message', hsupport⟩
  | ok roots =>
    have hroot : ∀ key, key ∈ roots.reverse ↔ ∃ s ∈ targets, supportRoot p s = .ok key := by
      intro key
      rw [List.mem_reverse, mem_mapM hroots]
    have hall := @collectSweep_collects p known (fun c x => x ∈ c.allSupport)
      (fun x => decide (2 ≤ x)) (fun xs c x => by
        rw [mem_allSupport_foldl, decide_eq_true_eq]) roots.reverse c
    have hstate := @collectSweep_collects p known
      (fun c x => x ∈ c.stateSupport) (fun x => decide (x ∈ known ∧ 2 ≤ x)) (fun xs c x => by
        rw [mem_stateSupport_foldl, decide_eq_true_eq, and_assoc]) roots.reverse c
    rcases hall with ⟨c', hrun, hleaves, hallMem⟩ | ⟨e, c', hrun, key, hkey, id, hid, e', he'⟩
    · rcases hstate with ⟨c₂, hrun₂, -, hstateMem⟩ | ⟨e, c₂, hrun₂, -⟩
      · rw [hrun] at hrun₂
        obtain rfl := Except.ok.inj hrun₂
        have hsupports : ∀ s ∈ targets, ∃ symbols, plainSupport p s = .ok symbols := by
          intro s hs
          cases supportOutcome p s with
          | found key symbols hkey hsupport hids hmem => exact ⟨symbols, hsupport⟩
          | unpublished key e hkey hsupport hleaf =>
            obtain ⟨id, hid, e', he'⟩ := hleaf
            obtain ⟨xs, hxs⟩ := hleaves key ((hroot key).mpr ⟨s, hs, hkey⟩) id hid
            rw [he'] at hxs
            cases hxs
          | missing e e' hkey hsupport =>
            obtain ⟨key, hok⟩ := ok_of_mapM hroots hs
            rw [hkey] at hok
            cases hok
        -- the leaves below the roots are what the targets report
        have hreported : ∀ x, 2 ≤ x → ((∃ key ∈ roots.reverse, ∃ id ∈ key.node.getSupportVars,
            ∃ xs, leafSymbols p key id = .ok xs ∧ x ∈ xs) ↔
            ∃ s ∈ targets, ∃ symbols, plainSupport p s = .ok symbols ∧ x ∈ symbols) := by
          intro x h2
          refine ⟨fun ⟨key, hkey, hleaf⟩ => ?_, fun ⟨s, hs, symbols, hsymbols, hx⟩ => ?_⟩
          · obtain ⟨s, hs, hkey⟩ := (hroot key).mp hkey
            cases supportOutcome p s with
            | found key' symbols hkey' hsupport hids hmem =>
              rw [hkey] at hkey'
              rw [Except.ok.inj hkey'] at hleaf
              exact ⟨s, hs, symbols, hsupport, (hmem x h2).mpr hleaf⟩
            | unpublished key' e hkey' hsupport hleaf' =>
              obtain ⟨symbols, hok⟩ := hsupports s hs
              rw [hsupport] at hok
              cases hok
            | missing e e' hkey' hsupport =>
              rw [hkey] at hkey'
              cases hkey'
          · cases supportOutcome p s with
            | found key symbols' hkey hsupport hids hmem =>
              rw [hsymbols] at hsupport
              rw [Except.ok.inj hsupport] at hx
              exact ⟨key, (hroot key).mpr ⟨s, hs, hkey⟩, (hmem x h2).mp hx⟩
            | unpublished key e hkey hsupport hleaf =>
              rw [hsymbols] at hsupport
              cases hsupport
            | missing e e' hkey hsupport =>
              rw [hsymbols] at hsupport
              cases hsupport
        refine .inl ⟨c', hrun, hsupports, fun x => (hallMem x).trans (or_congr_right ?_),
          fun x => (hstateMem x).trans (or_congr_right ?_)⟩
        · rw [decide_eq_true_eq]
          exact and_congr_right (hreported x)
        · rw [decide_eq_true_eq, and_assoc]
          exact and_congr_right fun _ => and_congr_right (hreported x)
      · rw [hrun] at hrun₂
        cases hrun₂
    · obtain ⟨s, hs, hkey⟩ := (hroot key).mp hkey
      refine .inr ⟨e, c', hrun, s, hs, ?_⟩
      cases supportOutcome p s with
      | found key' symbols hkey' hsupport hids hmem =>
        rw [hkey] at hkey'
        rw [Except.ok.inj hkey'] at he' hid
        obtain ⟨xs, hxs⟩ := hids id hid
        rw [he'] at hxs
        cases hxs
      | unpublished key' message hkey' hsupport hleaf => exact ⟨message, hsupport⟩
      | missing message message' hkey' hsupport => exact ⟨message', hsupport⟩

end KeplerFormal.TransitionResolver
