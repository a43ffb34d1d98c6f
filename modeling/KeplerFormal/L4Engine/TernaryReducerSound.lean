import KeplerFormal.L4Engine.TernaryMemo

/-!
# The reduced cube is a lifting

* `TrialInMemos`: the condition on the reducer before a trial, that no step of the
  propagation which the trial starts leaves a memo.
* `Reducing`: the invariant of the reducer between its operations. Every memo is exact for
  some set X of unknown symbols, and the symbols where it differs from the current set
  are noted as changed; `Synced` is the invariant after the propagation.
* `tryUnknown_spec`, `reduceLiterals_spec`: a trial and the loop over the cube; they end
  exactly under that condition.
* `reduceSolvedCubeByTernarySimulation_lifts_iff`: the reducer as a whole.
-/
namespace KeplerFormal

open Core BoolExpr

/-- What the reducers leave for later ones. -/
structure PdrFormulaSupportCache.Ok (cache : PdrFormulaSupportCache) : Prop where
  wellFormed : cache.nodes.WellFormed
  bounded : ∀ symbolMap, (cache.memos symbolMap).Bounded cache.ternaryEvaluationGeneration

instance (σ : Valuation) (cube : StateCube) : Decidable (cube.Holds σ) :=
  inferInstanceAs (Decidable (∀ literal ∈ cube, lit σ literal.symbol = literal.value))

def StateCube.symbols (cube : StateCube) : Finset Nat := (cube.map (·.symbol)).toFinset

namespace PdrTernaryModelReducer

variable {maps : Nat → List (Nat × Nat)}

/-- The leaves when exactly the symbols of `X` are unknown. -/
def leafUnder (maps : Nat → List (Nat × Nat)) (r : PdrTernaryModelReducer) (X : Finset Nat)
    (symbolMap : Option Nat) (s : Nat) : Option Bool :=
  (mappedSymbol maps symbolMap s).bind fun t =>
    if t < 2 then some (t == 1)
    else if t ∈ X then none
    else (r.assignments t).map (·.value)

/-- The variables whose symbol has changed, with the values that they take. -/
def changedVariables (maps : Nat → List (Nat × Nat)) (r : PdrTernaryModelReducer)
    (symbolMap : Option Nat) : List (Nat × Option Bool) :=
  r.changedAssignmentSymbols.flatMap fun changed =>
    (r.localSymbolsByMappedSymbol maps symbolMap changed).map fun s =>
      (s, r.assignmentValue changed)

/-- No step of the propagation leaves the memo of its symbol map. -/
def PropagationInMemos (maps : Nat → List (Nat × Nat)) (r : PdrTernaryModelReducer) : Prop :=
  ∀ symbolMap ∈ r.symbolMaps, StepsInMemo r.cache.nodes r.memoGeneration
    (r.changedVariables maps symbolMap, r.cache.memos symbolMap, [])

/-- So it is for the propagation that the trial of a symbol starts. -/
def TrialInMemos (maps : Nat → List (Nat × Nat)) (r : PdrTernaryModelReducer) (s : Nat) : Prop :=
  ∀ r', r.setAssignmentUnknown s true = .ok r' → r'.PropagationInMemos maps

/-- The loop tries the literal in the state `r'`. -/
def Tried (maps : Nat → List (Nat × Nat)) (fuel : Nat) (r : PdrTernaryModelReducer)
    (literals : StateCube) (literal : CubeLiteral) (r' : PdrTernaryModelReducer) : Prop :=
  ∃ done rest reduced, literals = done ++ literal :: rest ∧
    reduceLiterals maps fuel r done = .ok (reduced, r') ∧ r'.rootsUsing maps literal.symbol ≠ []

/-- The nodes of the roots of one symbol map. -/
def Region (r : PdrTernaryModelReducer) (symbolMap : Option Nat) (e : BoolExpr) : Prop :=
  ∃ root ∈ r.roots, root.symbolMap = symbolMap ∧ e ∈ root.formula.subterms

/-! ## Construction -/

/-- What entering the roots leaves: a root is inside the memo of its symbol map. -/
structure RootsEntered (start : PdrFormulaSupportCache) (roots : List PdrTernarySimulationRoot)
    (cache : PdrFormulaSupportCache) : Prop where
  wellFormed : cache.nodes.WellFormed
  generation : cache.ternaryEvaluationGeneration = start.ternaryEvaluationGeneration
  entry : ∀ symbolMap, (cache.memos symbolMap).entry = (start.memos symbolMap).entry
  inMemo : ∀ root ∈ roots, ∀ e ∈ root.formula.subterms,
    e ∈ cache.nodes.exprs ∧ cache.nodes.slot e < (cache.memos root.symbolMap).size

theorem le_resize (memo : TernaryEvaluationMemo) (n : Nat) :
    memo.size ≤ (memo.resize n).size ∧ n ≤ (memo.resize n).size := by
  unfold TernaryEvaluationMemo.resize
  split
  · exact ⟨Nat.le_of_lt ‹_›, Nat.le_refl n⟩
  · exact ⟨Nat.le_refl _, Nat.le_of_not_lt ‹_›⟩

theorem resize_entry (memo : TernaryEvaluationMemo) (n : Nat) :
    (memo.resize n).entry = memo.entry := by
  unfold TernaryEvaluationMemo.resize
  split <;> rfl

theorem RootsEntered.enterRoot {start cache : PdrFormulaSupportCache}
    {roots : List PdrTernarySimulationRoot} (h : RootsEntered start roots cache)
    (root : PdrTernarySimulationRoot) :
    RootsEntered start (roots ++ [root]) (enterRoot cache root) := by
  have hentered := TernaryNodes.ternaryNodeIndex_entered root.formula h.wellFormed
  have hsize : ∀ symbolMap,
      (cache.memos symbolMap).size ≤
        ((PdrTernaryModelReducer.enterRoot cache root).memos symbolMap).size := by
    intro symbolMap
    by_cases hm : symbolMap = root.symbolMap
    · subst hm
      simp only [PdrTernaryModelReducer.enterRoot, Function.update_self]
      exact (le_resize _ _).1
    · simp only [PdrTernaryModelReducer.enterRoot, Function.update_of_ne hm]
      exact Nat.le_refl _
  refine ⟨hentered.wellFormed, h.generation, fun symbolMap => ?_, fun root' hroot' e he => ?_⟩
  · by_cases hm : symbolMap = root.symbolMap
    · subst hm
      simp only [PdrTernaryModelReducer.enterRoot, Function.update_self, resize_entry, h.entry]
    · simp only [PdrTernaryModelReducer.enterRoot, Function.update_of_ne hm, h.entry]
  · rcases List.mem_append.mp hroot' with hroot' | hroot'
    · obtain ⟨hmem, hslot⟩ := h.inMemo root' hroot' e he
      refine ⟨hentered.extended.subset hmem, ?_⟩
      calc (PdrTernaryModelReducer.enterRoot cache root).nodes.slot e
          = cache.nodes.slot e := TernaryNodes.slot_of_prefix hentered.extended hmem
        _ < (cache.memos root'.symbolMap).size := hslot
        _ ≤ _ := hsize _
    · obtain rfl := List.mem_singleton.mp hroot'
      have hmem : e ∈ (PdrTernaryModelReducer.enterRoot cache root').nodes.exprs := by
        apply subterms_closed (P := (· ∈ (cache.nodes.ternaryNodeIndex root'.formula).exprs)) _
          hentered.mem e he
        exact fun a ha c hc => (hentered.wellFormed.children a ha List.not_mem_nil c hc).1
      refine ⟨hmem, ?_⟩
      calc (PdrTernaryModelReducer.enterRoot cache root').nodes.slot e
          < (PdrTernaryModelReducer.enterRoot cache root').nodes.exprs.length :=
            List.idxOf_lt_length_of_mem hmem
        _ ≤ _ := by
          simp only [PdrTernaryModelReducer.enterRoot, Function.update_self]
          exact (le_resize _ _).2

theorem rootsEntered (roots : List PdrTernarySimulationRoot) {start : PdrFormulaSupportCache}
    (h : start.nodes.WellFormed) : RootsEntered start roots (roots.foldl enterRoot start) := by
  induction roots using List.reverseRecOn with
  | nil => exact ⟨h, rfl, fun _ => rfl, fun root hroot => absurd hroot List.not_mem_nil⟩
  | append_singleton roots root ih =>
    rw [List.foldl_append]
    exact ih.enterRoot root

/-! ## The invariant -/

/-- What the operations need to know of the constructed reducer. -/
structure Ready (r₀ : PdrTernaryModelReducer) (modelCube : StateCube) : Prop where
  domain : ∀ symbolMap, MemoDomain r₀.cache.nodes (r₀.cache.memos symbolMap).size
    (r₀.Region symbolMap)
  positive : 0 < r₀.memoGeneration
  assigned : ∀ t ∈ modelCube.symbols, ∃ a, r₀.assignments t = some a

/-- The reducer with the symbols of `X` unknown. -/
structure Reducing (maps : Nat → List (Nat × Nat)) (r₀ : PdrTernaryModelReducer)
    (modelCube : StateCube) (X : Finset Nat) (r : PdrTernaryModelReducer) : Prop where
  roots : r.roots = r₀.roots
  nodes : r.cache.nodes = r₀.cache.nodes
  memoGeneration : r.memoGeneration = r₀.memoGeneration
  counter : r.cache.ternaryEvaluationGeneration = r₀.cache.ternaryEvaluationGeneration
  size : ∀ symbolMap, (r.cache.memos symbolMap).size = (r₀.cache.memos symbolMap).size
  assignments : ∀ t,
    r.assignments t = (r₀.assignments t).map fun a => { a with unknown := decide (t ∈ X) }
  subset : X ⊆ modelCube.symbols
  changed : ∀ symbolMap, ∃ Z ⊆ modelCube.symbols,
    MemoExact r₀.memoGeneration (r₀.Region symbolMap) (r₀.leafUnder maps Z symbolMap)
      (r.cache.memos symbolMap) ∧
    ∀ t, (t ∈ X ↔ t ∈ Z) ∨ t ∈ r.changedAssignmentSymbols

/-- All memos are those of `X`. -/
structure Synced (maps : Nat → List (Nat × Nat)) (r₀ : PdrTernaryModelReducer)
    (modelCube : StateCube) (X : Finset Nat) (r : PdrTernaryModelReducer) : Prop
    extends Reducing maps r₀ modelCube X r where
  exact : ∀ symbolMap, MemoExact r₀.memoGeneration (r₀.Region symbolMap)
    (r₀.leafUnder maps X symbolMap) (r.cache.memos symbolMap)

section Operations
variable {r₀ r : PdrTernaryModelReducer} {modelCube : StateCube} {X : Finset Nat}

/-- More unknown symbols, fewer known leaves. -/
theorem leafUnder_mono {X Y : Finset Nat} (h : X ⊆ Y) (symbolMap : Option Nat) (s : Nat) :
    Below (r₀.leafUnder maps Y symbolMap s) (r₀.leafUnder maps X symbolMap s) := by
  intro b hb
  unfold leafUnder at hb ⊢
  cases hmapped : mappedSymbol maps symbolMap s with
  | none => simp [hmapped] at hb
  | some t =>
    simp only [hmapped, Option.bind_some] at hb ⊢
    by_cases h2 : t < 2
    · rwa [if_pos h2] at hb ⊢
    · rw [if_neg h2] at hb ⊢
      by_cases hY : t ∈ Y
      · rw [if_pos hY] at hb
        cases hb
      · rw [if_neg hY] at hb
        rwa [if_neg fun hX => hY (h hX)]

/-- A leaf that differs reads a symbol that is unknown on one side only. -/
theorem exists_of_leafUnder_ne {Z : Finset Nat} {symbolMap : Option Nat} {s : Nat}
    (h : r₀.leafUnder maps Z symbolMap s ≠ r₀.leafUnder maps X symbolMap s) :
    ∃ t, mappedSymbol maps symbolMap s = some t ∧ 2 ≤ t ∧ ¬ (t ∈ X ↔ t ∈ Z) := by
  unfold leafUnder at h
  cases hmapped : mappedSymbol maps symbolMap s with
  | none => simp [hmapped] at h
  | some t =>
    simp only [hmapped, Option.bind_some] at h
    by_cases h2 : t < 2
    · simp [h2] at h
    · refine ⟨t, rfl, Nat.le_of_not_lt h2, fun hiff => ?_⟩
      simp [h2, hiff] at h

theorem Reducing.assignmentValue (h : Reducing maps r₀ modelCube X r) (t : Nat) :
    r.assignmentValue t = if t < 2 then some (t == 1)
      else if t ∈ X then none else (r₀.assignments t).map (·.value) := by
  unfold PdrTernaryModelReducer.assignmentValue
  rw [h.assignments t]
  cases r₀.assignments t with
  | none => simp
  | some a => by_cases hX : t ∈ X <;> simp [hX]

theorem Reducing.leafValue (h : Reducing maps r₀ modelCube X r) (symbolMap : Option Nat) :
    r.leafValue maps symbolMap = r₀.leafUnder maps X symbolMap := by
  funext s
  unfold PdrTernaryModelReducer.leafValue leafUnder
  exact congrArg _ (funext h.assignmentValue)

/-- The local symbols of a changed symbol are the variables of the roots that read it. -/
theorem Reducing.mem_localSymbols (h : Reducing maps r₀ modelCube X r) {symbolMap : Option Nat}
    {t s : Nat} : s ∈ r.localSymbolsByMappedSymbol maps symbolMap t ↔
      2 ≤ t ∧ mappedSymbol maps symbolMap s = some t ∧ r₀.Region symbolMap (.var s) := by
  have hsupport : s ∈ (r.roots.filter (·.symbolMap = symbolMap)).foldr
      (fun root X => root.formula.getSupportVars ∪ X) ∅ ↔ r₀.Region symbolMap (.var s) := by
    have hfold : ∀ roots : List PdrTernarySimulationRoot,
        s ∈ roots.foldr (fun root X => root.formula.getSupportVars ∪ X) ∅ ↔
          ∃ root ∈ roots, s ∈ root.formula.getSupportVars := by
      intro roots
      induction roots with
      | nil => simp
      | cons root roots ih => simp [ih]
    rw [hfold, h.roots]
    simp only [List.mem_filter, decide_eq_true_eq, and_assoc, Region, ← mem_leaves]
    refine exists_congr fun root => and_congr_right fun _ => and_congr_right fun _ => ?_
    exact ⟨var_mem_subterms_of_mem_leaves, mem_leaves_of_var_mem_subterms⟩
  unfold localSymbolsByMappedSymbol
  simp only [List.mem_filter, mem_sortedSymbols, hsupport, Bool.and_eq_true, decide_eq_true_eq]
  tauto

/-! ## Propagation -/

theorem propagateMemo_eq (symbolMap : Option Nat) (fuel : Nat) :
    r.propagateMemo maps fuel symbolMap = propagateWork r.cache.nodes r.memoGeneration fuel
      (r.changedVariables maps symbolMap, r.cache.memos symbolMap, []) := by
  unfold propagateMemo propagateWork changedVariables
  rw [foldlM_flatMap]
  simp only [List.foldlM_map]
  rfl

/-- The memo of one symbol map: the propagation ends exactly when it stays inside the memo. -/
theorem propagateMemo_spec (hready : Ready r₀ modelCube) (h : Reducing maps r₀ modelCube X r)
    (symbolMap : Option Nat) {fuel : Nat} (hfuel : drainFuel r₀.cache.nodes ≤ fuel) :
    ((∃ memo, r.propagateMemo maps fuel symbolMap = .ok memo) ↔
      StepsInMemo r.cache.nodes r.memoGeneration
        (r.changedVariables maps symbolMap, r.cache.memos symbolMap, [])) ∧
    ∀ memo, r.propagateMemo maps fuel symbolMap = .ok memo →
      MemoExact r₀.memoGeneration (r₀.Region symbolMap) (r₀.leafUnder maps X symbolMap) memo ∧
      memo.size = (r₀.cache.memos symbolMap).size := by
  obtain ⟨Z, -, hexact, hagree⟩ := h.changed symbolMap
  have hvalues : ∀ v ∈ r.changedVariables maps symbolMap,
      r₀.Region symbolMap (.var v.1) ∧ v.2 = r₀.leafUnder maps X symbolMap v.1 := by
    intro v hv
    obtain ⟨t, -, hv⟩ := List.mem_flatMap.mp hv
    obtain ⟨s, hs, rfl⟩ := List.mem_map.mp hv
    obtain ⟨-, hmapped, hregion⟩ := h.mem_localSymbols.mp hs
    refine ⟨hregion, ?_⟩
    rw [← h.leafValue, PdrTernaryModelReducer.leafValue, hmapped]
    rfl
  have hstart : Propagating r₀.memoGeneration (r₀.Region symbolMap)
      (r₀.leafUnder maps X symbolMap)
      (fun e => ∃ v ∈ r.changedVariables maps symbolMap, e = .var v.1)
      (r.cache.memos symbolMap, []) := by
    apply hexact.propagating
    intro s hregion hne
    obtain ⟨t, hmapped, h2, hdiffer⟩ := exists_of_leafUnder_ne hne
    refine ⟨(s, r.assignmentValue t), List.mem_flatMap.mpr
      ⟨t, (hagree t).resolve_left hdiffer, List.mem_map.mpr ⟨s, ?_, rfl⟩⟩, rfl⟩
    exact h.mem_localSymbols.mpr ⟨h2, hmapped, hregion⟩
  obtain ⟨hiff, hends⟩ := propagateWork_ok_iff (hready.domain symbolMap) hready.positive hfuel
    hvalues (h.size symbolMap) hstart
  rw [← h.nodes, ← h.memoGeneration] at hiff hends
  simp only [propagateMemo_eq]
  refine ⟨hiff, fun memo hmemo => ?_⟩
  obtain ⟨hprop, hsize⟩ := hends memo hmemo
  rw [h.memoGeneration] at hprop
  exact ⟨hprop.exact, hsize⟩

theorem Reducing.setMemo (h : Reducing maps r₀ modelCube X r) {symbolMap : Option Nat}
    {memo : TernaryEvaluationMemo}
    (hsize : memo.size = (r₀.cache.memos symbolMap).size)
    (hexact : MemoExact r₀.memoGeneration (r₀.Region symbolMap)
      (r₀.leafUnder maps X symbolMap) memo) :
    Reducing maps r₀ modelCube X (r.setMemo symbolMap memo) := by
  refine { h with size := fun m => ?_, changed := fun m => ?_ } <;> by_cases hm : m = symbolMap
  · subst hm
    simpa [PdrTernaryModelReducer.setMemo] using hsize
  · simpa [PdrTernaryModelReducer.setMemo, Function.update_of_ne hm] using h.size m
  · subst hm
    refine ⟨X, h.subset, ?_, fun t => .inl Iff.rfl⟩
    simpa [PdrTernaryModelReducer.setMemo] using hexact
  · simpa [PdrTernaryModelReducer.setMemo, Function.update_of_ne hm] using h.changed m

theorem Synced.setMemo (h : Synced maps r₀ modelCube X r) {symbolMap : Option Nat}
    {memo : TernaryEvaluationMemo}
    (hsize : memo.size = (r₀.cache.memos symbolMap).size)
    (hexact : MemoExact r₀.memoGeneration (r₀.Region symbolMap)
      (r₀.leafUnder maps X symbolMap) memo) :
    Synced maps r₀ modelCube X (r.setMemo symbolMap memo) := by
  refine { h.toReducing.setMemo hsize hexact with exact := fun m => ?_ }
  by_cases hm : m = symbolMap
  · subst hm
    simpa [PdrTernaryModelReducer.setMemo] using hexact
  · simpa [PdrTernaryModelReducer.setMemo, Function.update_of_ne hm] using h.exact m

/-- The memos of the symbol maps do not meet. -/
theorem propagateMemo_setMemo {symbolMap other : Option Nat} (h : symbolMap ≠ other)
    (memo : TernaryEvaluationMemo) (fuel : Nat) :
    (r.setMemo other memo).propagateMemo maps fuel symbolMap = r.propagateMemo maps fuel symbolMap
    := by
  unfold propagateMemo
  have hmemo : (r.setMemo other memo).cache.memos symbolMap = r.cache.memos symbolMap :=
    Function.update_of_ne h _ _
  rw [hmemo]
  rfl

/-- By induction on the symbol maps, each of which has its own memo. -/
theorem propagateMaps_spec (hready : Ready r₀ modelCube) {fuel : Nat}
    (hfuel : drainFuel r₀.cache.nodes ≤ fuel) {symbolMaps : List (Option Nat)}
    (hnodup : symbolMaps.Nodup) (h : Reducing maps r₀ modelCube X r) :
    let run := symbolMaps.foldlM (fun (r : PdrTernaryModelReducer) symbolMap => do
      let memo ← r.propagateMemo maps fuel symbolMap
      pure (r.setMemo symbolMap memo)) r
    ((∃ r', run = .ok r') ↔
      ∀ symbolMap ∈ symbolMaps, ∃ memo, r.propagateMemo maps fuel symbolMap = .ok memo) ∧
    ∀ r', run = .ok r' → Reducing maps r₀ modelCube X r' ∧ ∀ symbolMap,
      symbolMap ∈ symbolMaps ∨ MemoExact r₀.memoGeneration (r₀.Region symbolMap)
        (r₀.leafUnder maps X symbolMap) (r.cache.memos symbolMap) →
      MemoExact r₀.memoGeneration (r₀.Region symbolMap) (r₀.leafUnder maps X symbolMap)
        (r'.cache.memos symbolMap) := by
  induction symbolMaps generalizing r with
  | nil =>
    refine ⟨⟨fun _ m hm => absurd hm List.not_mem_nil, fun _ => ⟨r, rfl⟩⟩, fun r' hrun => ?_⟩
    obtain rfl := Except.ok.inj hrun
    exact ⟨h, fun m hm => hm.resolve_left List.not_mem_nil⟩
  | cons first rest ih =>
    obtain ⟨hfirst, hrest⟩ := List.nodup_cons.mp hnodup
    obtain ⟨-, hends⟩ := propagateMemo_spec hready h first hfuel
    rw [List.forall_mem_cons]
    simp only [List.foldlM_cons]
    cases hrun : r.propagateMemo maps fuel first with
    | error fault =>
      refine ⟨⟨?_, ?_⟩, ?_⟩
      · rintro ⟨r', hr'⟩
        cases hr'
      · rintro ⟨⟨memo, hmemo⟩, -⟩
        cases hmemo
      · intro r' hr'
        cases hr'
    | ok memo =>
      obtain ⟨hexact, hsize⟩ := hends memo hrun
      obtain ⟨hiff, hkeeps⟩ := ih hrest (h.setMemo hsize hexact)
      have hsame : ∀ m ∈ rest, (r.setMemo first memo).propagateMemo maps fuel m =
          r.propagateMemo maps fuel m := fun m hm =>
        propagateMemo_setMemo (fun hm' : m = first => hfirst (hm' ▸ hm)) memo fuel
      refine ⟨hiff.trans ⟨fun hall => ⟨⟨memo, rfl⟩, fun m hm => hsame m hm ▸ hall m hm⟩,
        fun hall m hm => (hsame m hm).symm ▸ hall.2 m hm⟩, fun r' hr' => ?_⟩
      obtain ⟨hinv, hall⟩ := hkeeps r' hr'
      refine ⟨hinv, fun m hm => hall m ?_⟩
      by_cases hm' : m = first
      · subst hm'
        exact .inr (by simpa [PdrTernaryModelReducer.setMemo] using hexact)
      · refine hm.imp (fun hm => (List.mem_cons.mp hm).resolve_left hm') fun hm => ?_
        simpa [PdrTernaryModelReducer.setMemo, Function.update_of_ne hm'] using hm

theorem propagateChangedAssignments_spec (hready : Ready r₀ modelCube)
    (h : Reducing maps r₀ modelCube X r) {fuel : Nat}
    (hfuel : drainFuel r₀.cache.nodes ≤ fuel) :
    ((∃ r', r.propagateChangedAssignments maps fuel = .ok r') ↔ r.PropagationInMemos maps) ∧
    ∀ r', r.propagateChangedAssignments maps fuel = .ok r' → Synced maps r₀ modelCube X r' := by
  unfold propagateChangedAssignments
  split
  · rename_i hnone
    refine ⟨⟨fun _ symbolMap _ => ?_, fun _ => ⟨r, rfl⟩⟩, fun r' hr' => ?_⟩
    · have hempty : r.changedVariables maps symbolMap = [] := by
        unfold changedVariables
        rw [hnone, List.flatMap_nil]
      rw [hempty]
      exact stepsInMemo_of_ok (fun v hv => absurd hv List.not_mem_nil) (propagateWork_empty 0 _)
    · obtain rfl := Except.ok.inj hr'
      refine { h with exact := fun symbolMap => ?_ }
      obtain ⟨Z, hZ, hexact, hagree⟩ := h.changed symbolMap
      have hsame : X = Z := by
        ext t
        have hchanged := hagree t
        rw [hnone] at hchanged
        exact hchanged.resolve_right List.not_mem_nil
      rwa [hsame]
  · obtain ⟨hiff, hkeeps⟩ := propagateMaps_spec hready hfuel
      (List.nodup_dedup (r.roots.map (·.symbolMap))) h
    refine ⟨?_, fun r' hr' => ?_⟩
    · have hmaps : (∀ symbolMap ∈ r.symbolMaps,
          ∃ memo, r.propagateMemo maps fuel symbolMap = .ok memo) ↔ r.PropagationInMemos maps :=
        forall₂_congr fun symbolMap _ => (propagateMemo_spec hready h symbolMap hfuel).1
      rw [← hmaps, ← symbolMaps.eq_1 r] at *
      rw [← hiff]
      constructor
      · rintro ⟨r', hr'⟩
        obtain ⟨r₁, hrun, -⟩ := bind_ok.mp hr'
        exact ⟨r₁, hrun⟩
      · rintro ⟨r₁, hrun⟩
        exact ⟨_, bind_ok.mpr ⟨r₁, hrun, rfl⟩⟩
    · obtain ⟨r₁, hrun, hlast⟩ := bind_ok.mp hr'
      obtain rfl := Except.ok.inj hlast
      obtain ⟨hinv, hexact⟩ := hkeeps r₁ hrun
      have hall : ∀ symbolMap, MemoExact r₀.memoGeneration (r₀.Region symbolMap)
          (r₀.leafUnder maps X symbolMap) (r₁.cache.memos symbolMap) := by
        intro symbolMap
        by_cases hmem : symbolMap ∈ r.symbolMaps
        · exact hexact symbolMap (.inl hmem)
        · obtain ⟨Z, -, hZ, -⟩ := hinv.changed symbolMap
          apply hZ.of_no_region
          rintro e ⟨root, hroot, rfl, -⟩
          apply hmem
          rw [symbolMaps, List.mem_dedup, h.roots]
          exact List.mem_map.mpr ⟨root, hroot, rfl⟩
      exact { hinv with
        changed := fun symbolMap => ⟨X, hinv.subset, hall symbolMap, fun t => .inl Iff.rfl⟩
        exact := hall }

/-! ## The roots -/

/-- A root has its expected value with the symbols of `X` unknown. -/
def Expects (maps : Nat → List (Nat × Nat)) (r₀ : PdrTernaryModelReducer) (X : Finset Nat)
    (root : PdrTernarySimulationRoot) : Prop :=
  root.formula.ternaryEval (r₀.leafUnder maps X root.symbolMap) = some root.expectedValue

theorem checkRoots_spec (hready : Ready r₀ modelCube) (roots : List PdrTernarySimulationRoot)
    (hroots : roots ⊆ r₀.roots) (h : Synced maps r₀ modelCube X r) :
    ∃ expected r', checkRoots maps r roots = .ok (expected, r') ∧
      Synced maps r₀ modelCube X r' ∧
      (expected = true ↔ ∀ root ∈ roots, Expects maps r₀ X root) := by
  induction roots generalizing r with
  | nil => exact ⟨true, r, rfl, h, by simp⟩
  | cons root rest ih =>
    have hroot : root ∈ r₀.roots := hroots List.mem_cons_self
    have hregion : r₀.Region root.symbolMap root.formula :=
      ⟨root, hroot, rfl, self_mem_subterms _⟩
    obtain ⟨memo, hrun, heval, -⟩ := evaluate_spec (hready.domain root.symbolMap) root.formula
      hregion (h.size root.symbolMap) (h.exact root.symbolMap)
    have hsynced : Synced maps r₀ modelCube X (r.setMemo root.symbolMap memo) :=
      h.setMemo (heval.size.trans (h.size _)) heval.exact
    have hcheck : r.rootHasExpectedValue maps root = .ok
        (root.formula.ternaryEval (r₀.leafUnder maps X root.symbolMap) == some root.expectedValue,
          r.setMemo root.symbolMap memo) := by
      unfold rootHasExpectedValue
      rw [h.nodes, h.memoGeneration, h.leafValue, hrun]
      rfl
    unfold checkRoots
    rw [hcheck]
    simp only [bind, Except.bind, beq_iff_eq, List.mem_cons, forall_eq_or_imp]
    split
    · rename_i hexpects
      obtain ⟨expected, r', hrest, hfinal, hiff⟩ :=
        ih (fun x hx => hroots (List.mem_cons_of_mem _ hx)) hsynced
      exact ⟨expected, r', hrest, hfinal, hiff.trans ⟨fun hall => ⟨hexpects, hall⟩, And.right⟩⟩
    · rename_i hexpects
      exact ⟨false, _, rfl, hsynced, by simp [Expects, hexpects]⟩

/-- The roots that the check evaluates. -/
def checked (maps : Nat → List (Nat × Nat)) (r : PdrTernaryModelReducer) :
    Option Nat → List PdrTernarySimulationRoot
  | none => r.roots
  | some s => r.rootsUsing maps s

theorem rootsHaveExpectedValues_spec (hready : Ready r₀ modelCube)
    (h : Reducing maps r₀ modelCube X r) {fuel : Nat}
    (hfuel : drainFuel r₀.cache.nodes ≤ fuel) (changedSymbol : Option Nat) :
    ((∃ out, r.rootsHaveExpectedValues maps fuel changedSymbol = .ok out) ↔
      r.PropagationInMemos maps) ∧
    ∀ expected r', r.rootsHaveExpectedValues maps fuel changedSymbol = .ok (expected, r') →
      Synced maps r₀ modelCube X r' ∧
      (expected = true ↔ ∀ root ∈ r₀.checked maps changedSymbol, Expects maps r₀ X root) := by
  obtain ⟨hiff, hends⟩ := propagateChangedAssignments_spec hready h hfuel
  rw [← hiff]
  unfold rootsHaveExpectedValues
  cases hrun : r.propagateChangedAssignments maps fuel with
  | error fault =>
    refine ⟨⟨?_, ?_⟩, ?_⟩
    · rintro ⟨out, hout⟩
      cases hout
    · rintro ⟨r', hr'⟩
      cases hr'
    · intro expected r' hr'
      cases hr'
  | ok r₁ =>
    have hsynced := hends r₁ hrun
    have hchecked : r₁.checked maps changedSymbol = r₀.checked maps changedSymbol := by
      cases changedSymbol <;> simp only [checked, rootsUsing, hsynced.roots]
    have hsub : r₀.checked maps changedSymbol ⊆ r₀.roots := by
      cases changedSymbol with
      | none => exact List.Subset.refl _
      | some s => exact List.filter_subset_self _
    obtain ⟨expected, r', hcheck, hfinal, hvalue⟩ := checkRoots_spec hready _ hsub hsynced
    have hall : (match changedSymbol with
        | none => checkRoots maps r₁ r₁.roots
        | some s => checkRoots maps r₁ (r₁.rootsUsing maps s)) = .ok (expected, r') := by
      rw [← hcheck, ← hchecked]
      cases changedSymbol <;> rfl
    refine ⟨⟨fun _ => ⟨r₁, rfl⟩, fun _ => ⟨(expected, r'), hall⟩⟩, fun expected' r'' hr'' => ?_⟩
    obtain ⟨rfl, rfl⟩ := Prod.mk.inj (Except.ok.inj (hall.symm.trans hr''))
    exact ⟨hfinal, hvalue⟩

theorem setAssignmentUnknown_spec (hready : Ready r₀ modelCube)
    (h : Reducing maps r₀ modelCube X r) {s : Nat} (hs : s ∈ modelCube.symbols) (unknown : Bool) :
    ∃ r', r.setAssignmentUnknown s unknown = .ok r' ∧
      Reducing maps r₀ modelCube (if unknown then insert s X else X.erase s) r' := by
  obtain ⟨a, ha⟩ := hready.assigned s hs
  have hcurrent : r.assignments s = some { a with unknown := decide (s ∈ X) } := by
    rw [h.assignments, ha]
    rfl
  unfold setAssignmentUnknown
  rw [hcurrent]
  simp only
  split
  · rename_i hsame
    have hX : (if unknown then insert s X else X.erase s) = X := by
      rw [← hsame]
      by_cases hmem : s ∈ X <;> simp [hmem]
    rw [hX]
    exact ⟨r, rfl, h⟩
  · refine ⟨_, rfl, { h with assignments := fun t => ?_, subset := ?_, changed := fun m => ?_ }⟩
    · by_cases ht : t = s
      · subst ht
        simp only [Function.update_self, ha]
        cases unknown <;> simp
      · simp only [Function.update_of_ne ht, h.assignments]
        cases unknown <;> simp [ht]
    · cases unknown with
      | true => exact Finset.insert_subset hs h.subset
      | false => exact (Finset.erase_subset s X).trans h.subset
    · obtain ⟨Z, hZ, hexact, hagree⟩ := h.changed m
      refine ⟨Z, hZ, hexact, fun t => ?_⟩
      by_cases ht : t = s
      · subst ht
        right
        split <;> simp_all
      · rcases hagree t with hagree | hchanged
        · left
          cases unknown <;> simpa [ht] using hagree
        · right
          split
          · exact hchanged
          · exact List.mem_append_left _ hchanged

/-! ## The loop over the cube -/

theorem mem_mappedTernarySupport {root : PdrTernarySimulationRoot} {t : Nat} :
    t ∈ mappedTernarySupport maps root ↔
      2 ≤ t ∧ ∃ s ∈ root.formula.leaves, mappedSymbol maps root.symbolMap s = some t := by
  simp only [mappedTernarySupport, List.mem_filter, List.mem_filterMap, mem_sortedSymbols,
    decide_eq_true_eq, mem_leaves]
  exact and_comm

theorem mem_rootsUsing {root : PdrTernarySimulationRoot} {t : Nat} :
    root ∈ r.rootsUsing maps t ↔ root ∈ r.roots ∧ t ∈ mappedTernarySupport maps root := by
  simp [rootsUsing]

theorem Expects.mono {Y : Finset Nat} {root : PdrTernarySimulationRoot}
    (h : Expects maps r₀ X root) (hsub : Y ⊆ X) : Expects maps r₀ Y root :=
  ternaryEval_mono (leafUnder_mono hsub root.symbolMap) root.formula _ h

/-- A root that does not read the symbol keeps its value. -/
theorem Expects.insert_unused {root : PdrTernarySimulationRoot} {t : Nat}
    (h : Expects maps r₀ X root) (hunused : t ∉ mappedTernarySupport maps root) :
    Expects maps r₀ (insert t X) root := by
  unfold Expects at h ⊢
  rw [← h]
  apply ternaryEval_congr
  intro s hs
  by_contra hne
  obtain ⟨t', hmapped, h2, hdiffer⟩ := exists_of_leafUnder_ne hne
  by_cases ht : t' = t
  · subst ht
    exact hunused (mem_mappedTernarySupport.mpr ⟨h2, s, hs, hmapped⟩)
  · simp [ht] at hdiffer

/-- One trial ends exactly when it stays inside the memos; they are then those of the larger set
of unknown symbols. -/
theorem tryUnknown_spec (hready : Ready r₀ modelCube) (h : Reducing maps r₀ modelCube X r)
    {fuel : Nat} (hfuel : drainFuel r₀.cache.nodes ≤ fuel) {s : Nat}
    (hs : s ∈ modelCube.symbols) :
    ((∃ out, r.tryUnknown maps fuel s = .ok out) ↔ r.TrialInMemos maps s) ∧
    ∀ expected r', r.tryUnknown maps fuel s = .ok (expected, r') →
      Synced maps r₀ modelCube (insert s X) r' ∧
      (expected = true ↔ ∀ root ∈ r₀.rootsUsing maps s, Expects maps r₀ (insert s X) root) := by
  obtain ⟨r₁, hset, h₁⟩ := setAssignmentUnknown_spec hready h hs true
  obtain ⟨hiff, hends⟩ := rootsHaveExpectedValues_spec hready h₁ hfuel (some s)
  have htrial : r.tryUnknown maps fuel s = r₁.rootsHaveExpectedValues maps fuel (some s) := by
    unfold tryUnknown
    rw [hset]
    rfl
  rw [htrial]
  refine ⟨hiff.trans ⟨fun hin r' hr' => ?_, fun hin => hin r₁ hset⟩, hends⟩
  rw [hset] at hr'
  exact Except.ok.inj hr' ▸ hin

/-- What the loop over the literals leaves. -/
structure Reduced (maps : Nat → List (Nat × Nat)) (r₀ : PdrTernaryModelReducer)
    (literals : StateCube) (X : Finset Nat) (reduced : StateCube) (X' : Finset Nat) : Prop where
  sub : reduced ⊆ literals
  expects : (∀ root ∈ r₀.roots, Expects maps r₀ X root) → ∀ root ∈ r₀.roots, Expects maps r₀ X' root
  kept : ∀ t ∈ X, t ∈ X' ∨ ∃ literal ∈ reduced, literal.symbol = t
  decided : ∀ literal ∈ literals, literal.symbol ∈ X' ∨
    (∃ literal' ∈ reduced, literal'.symbol = literal.symbol) ∨
    r₀.rootsUsing maps literal.symbol = []

namespace Reduced
variable {literal : CubeLiteral} {rest reduced : StateCube} {X' : Finset Nat}

/-- No root reads the first literal. -/
theorem unused (h : Reduced maps r₀ rest X reduced X')
    (hunused : r₀.rootsUsing maps literal.symbol = []) :
    Reduced maps r₀ (literal :: rest) X reduced X' := by
  refine ⟨List.subset_cons_of_subset _ h.sub, h.expects, h.kept, fun l hl => ?_⟩
  rcases List.mem_cons.mp hl with rfl | hl
  · exact .inr (.inr hunused)
  · exact h.decided l hl

/-- The first literal stays unknown. -/
theorem accept (h : Reduced maps r₀ rest (insert literal.symbol X) reduced X')
    (hvalue : ∀ root ∈ r₀.rootsUsing maps literal.symbol,
      Expects maps r₀ (insert literal.symbol X) root) :
    Reduced maps r₀ (literal :: rest) X reduced X' := by
  refine ⟨List.subset_cons_of_subset _ h.sub, fun hall => h.expects fun root hroot => ?_,
    fun t ht => h.kept t (Finset.mem_insert_of_mem ht), fun l hl => ?_⟩
  · by_cases hreads : literal.symbol ∈ mappedTernarySupport maps root
    · exact hvalue root (mem_rootsUsing.mpr ⟨hroot, hreads⟩)
    · exact (hall root hroot).insert_unused hreads
  · rcases List.mem_cons.mp hl with rfl | hl
    · exact (h.kept _ (Finset.mem_insert_self _ _)).imp_right .inl
    · exact h.decided l hl

/-- The first literal is kept. -/
theorem reject
    (h : Reduced maps r₀ rest ((insert literal.symbol X).erase literal.symbol) reduced X') :
    Reduced maps r₀ (literal :: rest) X (literal :: reduced) X' := by
  have hundone : (insert literal.symbol X).erase literal.symbol ⊆ X := by
    intro t ht
    obtain ⟨hne, ht⟩ := Finset.mem_erase.mp ht
    exact (Finset.mem_insert.mp ht).resolve_left hne
  refine ⟨List.cons_subset_cons _ h.sub,
    fun hall => h.expects fun root hroot => (hall root hroot).mono hundone,
    fun t ht => ?_, fun l hl => ?_⟩
  · by_cases hts : t = literal.symbol
    · exact .inr ⟨literal, List.mem_cons_self, hts.symm⟩
    · have ht' : t ∈ (insert literal.symbol X).erase literal.symbol :=
        Finset.mem_erase.mpr ⟨hts, Finset.mem_insert_of_mem ht⟩
      rcases h.kept t ht' with hX | ⟨l, hl, hlt⟩
      · exact .inl hX
      · exact .inr ⟨l, List.mem_cons_of_mem _ hl, hlt⟩
  · rcases List.mem_cons.mp hl with rfl | hl
    · exact .inr (.inl ⟨l, List.mem_cons_self, rfl⟩)
    · rcases h.decided l hl with hX | ⟨l', hl', hlt⟩ | hunused
      · exact .inl hX
      · exact .inr (.inl ⟨l', List.mem_cons_of_mem _ hl', hlt⟩)
      · exact .inr (.inr hunused)

end Reduced

theorem reduceLiterals_unused {fuel : Nat} {literal : CubeLiteral}
    (h : r.rootsUsing maps literal.symbol = []) (rest : StateCube) :
    reduceLiterals maps fuel r (literal :: rest) = reduceLiterals maps fuel r rest := by
  rw [reduceLiterals, h]
  rfl

section Used
variable {fuel : Nat} {literal : CubeLiteral} {r₁ r₂ : PdrTernaryModelReducer}
  (hused : r.rootsUsing maps literal.symbol ≠ [])
include hused

theorem reduceLiterals_error {fault : ReducerFault}
    (htrial : r.tryUnknown maps fuel literal.symbol = .error fault) (rest : StateCube) :
    reduceLiterals maps fuel r (literal :: rest) = .error fault := by
  rw [reduceLiterals, if_neg fun hempty => hused (List.isEmpty_iff.mp hempty), htrial]
  rfl

theorem reduceLiterals_accepted
    (htrial : r.tryUnknown maps fuel literal.symbol = .ok (true, r₁)) (rest : StateCube) :
    reduceLiterals maps fuel r (literal :: rest) = reduceLiterals maps fuel r₁ rest := by
  rw [reduceLiterals, if_neg fun hempty => hused (List.isEmpty_iff.mp hempty), htrial]
  rfl

theorem reduceLiterals_rejected
    (htrial : r.tryUnknown maps fuel literal.symbol = .ok (false, r₁))
    (hset : r₁.setAssignmentUnknown literal.symbol false = .ok r₂) (rest : StateCube) :
    reduceLiterals maps fuel r (literal :: rest) =
      (reduceLiterals maps fuel r₂ rest).map fun out => (literal :: out.1, out.2) := by
  rw [reduceLiterals, if_neg fun hempty => hused (List.isEmpty_iff.mp hempty), htrial, ok_bind]
  dsimp only
  rw [if_neg Bool.false_ne_true, hset, ok_bind]
  cases reduceLiterals maps fuel r₂ rest <;> rfl

theorem reduceLiterals_rejected_iff
    (htrial : r.tryUnknown maps fuel literal.symbol = .ok (false, r₁))
    (hset : r₁.setAssignmentUnknown literal.symbol false = .ok r₂) (rest : StateCube)
    (r' : PdrTernaryModelReducer) :
    (∃ reduced, reduceLiterals maps fuel r (literal :: rest) = .ok (reduced, r')) ↔
      ∃ reduced, reduceLiterals maps fuel r₂ rest = .ok (reduced, r') := by
  simp only [reduceLiterals_rejected hused htrial hset, map_ok]
  constructor
  · rintro ⟨_, ⟨reduced, _⟩, hrun, hpair⟩
    obtain ⟨-, rfl⟩ := Prod.mk.inj hpair
    exact ⟨reduced, hrun⟩
  · rintro ⟨reduced, hrun⟩
    exact ⟨_, (reduced, r'), hrun, rfl⟩

end Used

/-- The literals that are tried: the first one, if a root reads it, and those that the state
after it goes on with. -/
theorem tried_cons {fuel : Nat} {literal : CubeLiteral} {rest : StateCube}
    {r₁ : PdrTernaryModelReducer} {P : CubeLiteral → PdrTernaryModelReducer → Prop}
    (hnext : ∀ literals r', (∃ reduced, reduceLiterals maps fuel r (literal :: literals) =
      .ok (reduced, r')) ↔ ∃ reduced, reduceLiterals maps fuel r₁ literals = .ok (reduced, r')) :
    (∀ l r', r.Tried maps fuel (literal :: rest) l r' → P l r') ↔
      (r.rootsUsing maps literal.symbol ≠ [] → P literal r) ∧
        ∀ l r', r₁.Tried maps fuel rest l r' → P l r' := by
  constructor
  · refine fun h => ⟨fun hused => h literal r ⟨[], rest, [], rfl, rfl, hused⟩, ?_⟩
    rintro l r' ⟨done, rest', reduced, rfl, hrun, hused⟩
    obtain ⟨reduced', hrun'⟩ := (hnext done r').mpr ⟨reduced, hrun⟩
    exact h l r' ⟨literal :: done, rest', reduced', rfl, hrun', hused⟩
  · rintro ⟨hfirst, hrest⟩ l r' ⟨done, rest', reduced, hsplit, hrun, hused⟩
    cases done with
    | nil =>
      obtain ⟨rfl, -⟩ := List.cons.inj hsplit
      obtain ⟨-, rfl⟩ := Prod.mk.inj (Except.ok.inj hrun)
      exact hfirst hused
    | cons first done =>
      obtain ⟨rfl, rfl⟩ := List.cons.inj hsplit
      obtain ⟨reduced', hrun'⟩ := (hnext done r').mp ⟨reduced, hrun⟩
      exact hrest l r' ⟨done, rest', reduced', rfl, hrun', hused⟩

/-- By induction on the literals, with the accepted ones unknown: the loop ends exactly when
every trial stays inside the memos. -/
theorem reduceLiterals_spec (hready : Ready r₀ modelCube) {fuel : Nat}
    (hfuel : drainFuel r₀.cache.nodes ≤ fuel) (literals : StateCube)
    (hsub : ∀ literal ∈ literals, literal.symbol ∈ modelCube.symbols)
    (h : Reducing maps r₀ modelCube X r) :
    ((∃ out, reduceLiterals maps fuel r literals = .ok out) ↔ ∀ literal r',
      r.Tried maps fuel literals literal r' → r'.TrialInMemos maps literal.symbol) ∧
    ∀ reduced r', reduceLiterals maps fuel r literals = .ok (reduced, r') →
      ∃ X', Reducing maps r₀ modelCube X' r' ∧ Reduced maps r₀ literals X reduced X' := by
  induction literals generalizing r X with
  | nil =>
    refine ⟨⟨?_, fun _ => ⟨([], r), rfl⟩⟩, fun reduced r' hrun => ?_⟩
    · rintro - literal r' ⟨done, rest, -, hsplit, -, -⟩
      exact absurd hsplit.symm (List.append_ne_nil_of_right_ne_nil _ (List.cons_ne_nil _ _))
    · obtain ⟨rfl, rfl⟩ := Prod.mk.inj (Except.ok.inj hrun)
      exact ⟨X, h, List.Subset.refl _, id, fun t ht => .inl ht,
        fun literal hmem => absurd hmem List.not_mem_nil⟩
  | cons literal rest ih =>
    have hrest : ∀ l ∈ rest, l.symbol ∈ modelCube.symbols :=
      fun l hl => hsub l (List.mem_cons_of_mem _ hl)
    have hs : literal.symbol ∈ modelCube.symbols := hsub literal List.mem_cons_self
    have husing : r.rootsUsing maps literal.symbol = r₀.rootsUsing maps literal.symbol := by
      unfold rootsUsing
      rw [h.roots]
    by_cases hused : r.rootsUsing maps literal.symbol = []
    · obtain ⟨hiff, hends⟩ := ih hrest h
      have hsame : ∀ literals,
          reduceLiterals maps fuel r (literal :: literals) = reduceLiterals maps fuel r literals :=
        reduceLiterals_unused hused
      rw [tried_cons fun literals r' => by rw [hsame], hsame, hiff]
      refine ⟨⟨fun hall => ⟨fun hne => absurd hused hne, hall⟩, And.right⟩,
        fun reduced r' hrun => ?_⟩
      obtain ⟨X', hinv, hred⟩ := hends reduced r' hrun
      exact ⟨X', hinv, hred.unused (husing ▸ hused)⟩
    · obtain ⟨htrial, hafter⟩ := tryUnknown_spec hready h hfuel hs
      cases hcase : r.tryUnknown maps fuel literal.symbol with
      | error fault =>
        rw [reduceLiterals_error hused hcase]
        refine ⟨⟨?_, fun hall => ?_⟩, fun reduced r' hr' => ?_⟩
        · rintro ⟨out, hout⟩
          cases hout
        · have hin := hall literal r ⟨[], rest, [], rfl, rfl, hused⟩
          obtain ⟨out, hout⟩ := htrial.mpr hin
          rw [hcase] at hout
          cases hout
        · cases hr'
      | ok out =>
        obtain ⟨expected, r₁⟩ := out
        obtain ⟨hsynced, hvalue⟩ := hafter expected r₁ hcase
        have hin : r.TrialInMemos maps literal.symbol := htrial.mp ⟨_, hcase⟩
        cases expected with
        | true =>
          -- accepted: the symbol stays unknown
          have hsame := reduceLiterals_accepted hused hcase
          obtain ⟨hiff, hends⟩ := ih hrest hsynced.toReducing
          rw [tried_cons fun literals r' => by rw [hsame], hsame, hiff]
          refine ⟨⟨fun hall => ⟨fun _ => hin, hall⟩, And.right⟩, fun reduced r' hr' => ?_⟩
          obtain ⟨X', hinv, hred⟩ := hends reduced r' hr'
          exact ⟨X', hinv, hred.accept (hvalue.mp rfl)⟩
        | false =>
          -- rejected: the trial is undone
          obtain ⟨r₂, hset, h₂⟩ := setAssignmentUnknown_spec hready hsynced.toReducing hs false
          have hsame := reduceLiterals_rejected hused hcase hset
          obtain ⟨hiff, hends⟩ := ih hrest h₂
          rw [tried_cons (reduceLiterals_rejected_iff hused hcase hset), ← hiff, hsame]
          refine ⟨⟨?_, ?_⟩, fun reduced' r' hr' => ?_⟩
          · rintro ⟨out', hout'⟩
            obtain ⟨out, hout, -⟩ := map_ok.mp hout'
            exact ⟨fun _ => hin, out, hout⟩
          · rintro ⟨-, out, hout⟩
            exact ⟨_, map_ok.mpr ⟨out, hout, rfl⟩⟩
          · obtain ⟨⟨reduced, _⟩, hrest', hpair⟩ := map_ok.mp hr'
            obtain ⟨rfl, rfl⟩ := Prod.mk.inj hpair
            obtain ⟨X', hinv, hred⟩ := hends reduced _ hrest'
            exact ⟨X', hinv, hred.reject⟩

end Operations

/-! ## The constructed reducer -/

theorem MemoExact.of_bounded {g n : Nat} (hn : n < g) {region : BoolExpr → Prop}
    {leaf : Nat → Option Bool} {memo : TernaryEvaluationMemo} (h : memo.Bounded n) :
    MemoExact g region leaf memo := by
  have hgeneration : ∀ e, ¬ memo.Computed g e := by
    intro e he
    have hbound := (h e).1
    have he : (memo.entry e).generation = g := he
    omega
  refine ⟨fun e he => absurd he (hgeneration e), fun e he => absurd he (hgeneration e),
    fun e he => absurd he (hgeneration e), fun e he => ?_, fun e => ?_⟩
  · have hbound := (h e).2
    omega
  · have hbound := h e
    omega

section Construct
variable {hasSymbol : Nat → Bool} {model : Valuation} {roots : List PdrTernarySimulationRoot}
  {modelCube : StateCube} {cache : PdrFormulaSupportCache}

theorem construct_entered (hcache : cache.Ok) :
    RootsEntered
      { cache with ternaryEvaluationGeneration := cache.ternaryEvaluationGeneration + 1 } roots
      (construct maps hasSymbol model roots modelCube cache).cache :=
  rootsEntered roots hcache.wellFormed

theorem mem_symbols {t : Nat} : t ∈ modelCube.symbols ↔ ∃ l ∈ modelCube, l.symbol = t := by
  simp [StateCube.symbols]

theorem construct_ready (hcache : cache.Ok) :
    Ready (construct maps hasSymbol model roots modelCube cache) modelCube := by
  have hentered : RootsEntered _ roots
      (construct maps hasSymbol model roots modelCube cache).cache := construct_entered hcache
  refine ⟨fun symbolMap => ⟨hentered.wellFormed, ?_, ?_, ?_⟩, Nat.succ_pos _, fun t ht => ?_⟩
  · rintro e ⟨root, hroot, rfl, he⟩
    exact (hentered.inMemo root hroot e he).1
  · rintro e ⟨root, hroot, rfl, he⟩
    exact (hentered.inMemo root hroot e he).2
  · rintro e ⟨root, hroot, hmap, he⟩ c hc
    exact ⟨root, hroot, hmap, children_mem_subterms he hc⟩
  · obtain ⟨l, hl, hlt⟩ := mem_symbols.mp ht
    have hfound : (modelCube.find? (·.symbol = t)).isSome := by
      rw [List.find?_isSome]
      exact ⟨l, hl, by simpa using hlt⟩
    obtain ⟨found, hfound⟩ := Option.isSome_iff_exists.mp hfound
    refine ⟨⟨found.value, false⟩, ?_⟩
    simp only [construct, initialAssignments, hfound]

/-- Nothing is unknown at first. -/
theorem construct_reducing (hcache : cache.Ok) :
    Reducing maps (construct maps hasSymbol model roots modelCube cache) modelCube ∅
      (construct maps hasSymbol model roots modelCube cache) := by
  refine ⟨rfl, rfl, rfl, rfl, fun _ => rfl, fun t => ?_, Finset.empty_subset _, fun symbolMap => ?_⟩
  · simp only [construct, initialAssignments]
    split
    · simp
    · split <;> simp
  · refine ⟨∅, Finset.empty_subset _, ?_, fun t => .inl Iff.rfl⟩
    apply MemoExact.of_bounded (Nat.lt_succ_self cache.ternaryEvaluationGeneration)
    intro e
    rw [(construct_entered hcache).entry symbolMap]
    exact hcache.bounded symbolMap e

/-- With one symbol map for all roots its memo has a slot for every node. -/
theorem length_le_of_common_map {symbolMap : Option Nat}
    (hcommon : ∀ root ∈ roots, root.symbolMap = symbolMap) (hroots : roots ≠ []) :
    let r := construct maps hasSymbol model roots modelCube cache
    r.cache.nodes.exprs.length ≤ (r.cache.memos symbolMap).size := by
  change (roots.foldl enterRoot _).nodes.exprs.length ≤
    ((roots.foldl enterRoot _).memos symbolMap).size
  induction roots using List.reverseRecOn with
  | nil => exact absurd rfl hroots
  | append_singleton init last ih =>
    simp only [List.foldl_append, List.foldl_cons, List.foldl_nil, enterRoot]
    rw [← hcommon last (List.mem_append_right _ (List.mem_singleton.mpr rfl)),
      Function.update_self]
    exact (le_resize _ _).2

end Construct

/-- The memos when nothing is left to propagate: what was evaluated has the value that an
evaluation from scratch gives under the current assignment. -/
def MemosExact (maps : Nat → List (Nat × Nat)) (r : PdrTernaryModelReducer) : Prop :=
  ∀ symbolMap e, (r.cache.memos symbolMap).Computed r.memoGeneration e →
    (r.cache.memos symbolMap).value e = e.ternaryEval (r.leafValue maps symbolMap)

/-- `reduce` tries the literal in the state `r'`: the roots had their values at first. -/
def BeforeTrial (maps : Nat → List (Nat × Nat)) (fuel : Nat) (r : PdrTernaryModelReducer)
    (modelCube : StateCube) (literal : CubeLiteral) (r' : PdrTernaryModelReducer) : Prop :=
  ∃ r₁, r.rootsHaveExpectedValues maps fuel none = .ok (true, r₁) ∧
    r₁.Tried maps fuel modelCube literal r'

section Trials
variable {r₀ r : PdrTernaryModelReducer} {modelCube : StateCube} {X : Finset Nat}

theorem Synced.memosExact (h : Synced maps r₀ modelCube X r) : r.MemosExact maps := by
  intro symbolMap e he
  rw [h.leafValue]
  rw [h.memoGeneration] at he
  exact (h.exact symbolMap).value e he

/-- The invariant holds before every trial. -/
theorem BeforeTrial.reducing (hready : Ready r₀ modelCube)
    (hstart : Reducing maps r₀ modelCube ∅ r₀)
    {fuel : Nat} (hfuel : drainFuel r₀.cache.nodes ≤ fuel) {literal : CubeLiteral}
    (h : r₀.BeforeTrial maps fuel modelCube literal r) :
    ∃ X, Reducing maps r₀ modelCube X r ∧ literal.symbol ∈ modelCube.symbols := by
  obtain ⟨r₁, hfirst, done, rest, reduced, hsplit, hrun, -⟩ := h
  have hsymbols : ∀ l ∈ modelCube, l.symbol ∈ modelCube.symbols :=
    fun l hl => mem_symbols.mpr ⟨l, hl, rfl⟩
  obtain ⟨h₁, -⟩ := (rootsHaveExpectedValues_spec hready hstart hfuel none).2 true r₁ hfirst
  obtain ⟨X, hinv, -⟩ := (reduceLiterals_spec hready hfuel done
    (fun l hl => hsymbols l (by simp [hsplit, hl])) h₁.toReducing).2 reduced r hrun
  exact ⟨X, hinv, hsymbols literal (by simp [hsplit])⟩

/-- A trial that ends leaves exact memos. -/
theorem Reducing.tryUnknown_memosExact (hready : Ready r₀ modelCube)
    (h : Reducing maps r₀ modelCube X r) {fuel : Nat} (hfuel : drainFuel r₀.cache.nodes ≤ fuel)
    {s : Nat} (hs : s ∈ modelCube.symbols) :
    (∃ expected r', r.tryUnknown maps fuel s = .ok (expected, r') ∧ r'.MemosExact maps) ↔
      r.TrialInMemos maps s := by
  obtain ⟨hiff, hends⟩ := tryUnknown_spec hready h hfuel hs
  rw [← hiff]
  constructor
  · rintro ⟨expected, r', hrun, -⟩
    exact ⟨(expected, r'), hrun⟩
  · rintro ⟨⟨expected, r'⟩, hrun⟩
    exact ⟨expected, r', hrun, (hends expected r' hrun).1.memosExact⟩

theorem Reducing.cacheOk (hready : Ready r₀ modelCube) (h : Reducing maps r₀ modelCube X r)
    (hcounter : r₀.cache.ternaryEvaluationGeneration = r₀.memoGeneration) : r.cache.Ok where
  wellFormed := h.nodes ▸ (hready.domain none).wellFormed
  bounded symbolMap := by
    obtain ⟨Z, -, hexact, -⟩ := h.changed symbolMap
    rw [h.counter, hcounter]
    exact hexact.bounded

end Trials
end PdrTernaryModelReducer

/-! ## The reducer as a whole -/

/-- The leaves of a formula: mapped symbols are global, the others local to the map. -/
def localValuation (maps : Nat → List (Nat × Nat)) (σ : Valuation)
    (others : Option Nat → Valuation) (symbolMap : Option Nat) : Valuation := fun s =>
  (PdrTernaryModelReducer.mappedSymbol maps symbolMap s).elim (others symbolMap s) (lit σ)

def PdrTernarySimulationRoot.Holds (maps : Nat → List (Nat × Nat)) (σ : Valuation)
    (others : Option Nat → Valuation) (root : PdrTernarySimulationRoot) : Prop :=
  root.formula.eval (localValuation maps σ others root.symbolMap) = root.expectedValue

instance (maps : Nat → List (Nat × Nat)) (σ : Valuation) (others : Option Nat → Valuation)
    (root : PdrTernarySimulationRoot) : Decidable (root.Holds maps σ others) :=
  inferInstanceAs (Decidable (_ = _))

namespace PdrTernaryModelReducer

section Lifting
variable {maps : Nat → List (Nat × Nat)} {hasSymbol : Nat → Bool} {model : Valuation}
  {roots : List PdrTernarySimulationRoot} {modelCube : StateCube} {cache : PdrFormulaSupportCache}

theorem lit_constant {t : Nat} (σ : Valuation) (h : t < 2) : lit σ t = (t == 1) := by
  obtain rfl | rfl : t = 0 ∨ t = 1 := by omega
  · rfl
  · rfl

theorem lit_localValuation {symbolMap : Option Nat} {s t : Nat}
    (h : mappedSymbol maps symbolMap s = some t) {σ : Valuation}
    {others : Option Nat → Valuation} :
    lit (localValuation maps σ others symbolMap) s = lit σ t := by
  by_cases h2 : s < 2
  · have hst : s = t := by simpa [mappedSymbol, h2] using h
    rw [← hst]
    exact lit_of_lt_two _ _ h2
  · rw [lit_of_two_le _ (Nat.le_of_not_lt h2), localValuation, h]
    rfl

/-- The assigned values are those of the model. -/
theorem construct_value {t : Nat} (h2 : ¬ t < 2) (hcube : modelCube.Holds model)
    {a : TernaryAssignment}
    (ha : (construct maps hasSymbol model roots modelCube cache).assignments t = some a) :
    a.value = lit model t := by
  simp only [construct, initialAssignments] at ha
  split at ha
  · rename_i literal hfound
    obtain rfl : literal.symbol = t := by simpa using List.find?_some hfound
    rw [← Option.some.inj ha, hcube literal (List.mem_of_find?_eq_some hfound)]
  · split at ha
    · rw [← Option.some.inj ha, lit_of_two_le _ (Nat.le_of_not_lt h2)]
    · cases ha

/-- The symbols that are still known keep their value in every state of the reduced cube. -/
theorem Reduced.lifts {reduced : StateCube} {X : Finset Nat}
    (h : Reduced maps (construct maps hasSymbol model roots modelCube cache) modelCube ∅ reduced X)
    (hcube : modelCube.Holds model) {σ : Valuation} (hσ : reduced.Holds σ)
    (hothers : ∀ t, t ∉ modelCube.symbols → lit σ t = lit model t)
    (others : Option Nat → Valuation) {root : PdrTernarySimulationRoot} (hroot : root ∈ roots)
    (hexpects : Expects maps (construct maps hasSymbol model roots modelCube cache) X root) :
    root.Holds maps σ others := by
  apply ternaryEval_sound _ hexpects
  intro s hs v hv
  unfold leafUnder at hv
  cases hmapped : mappedSymbol maps root.symbolMap s with
  | none => simp [hmapped] at hv
  | some t =>
    rw [eval_var_eq_lit, lit_localValuation hmapped]
    simp only [hmapped, Option.bind_some] at hv
    by_cases h2 : t < 2
    · rw [if_pos h2] at hv
      rw [lit_constant σ h2]
      exact Option.some.inj hv
    · rw [if_neg h2] at hv
      by_cases hX : t ∈ X
      · rw [if_pos hX] at hv
        cases hv
      · rw [if_neg hX] at hv
        obtain ⟨a, ha, rfl⟩ := Option.map_eq_some_iff.mp hv
        rw [construct_value h2 hcube ha]
        by_cases ht : t ∈ modelCube.symbols
        · -- a known cube symbol that a root reads was kept
          obtain ⟨literal, hmem, rfl⟩ := mem_symbols.mp ht
          have hreads : root ∈ (construct maps hasSymbol model roots modelCube cache).rootsUsing
              maps literal.symbol :=
            mem_rootsUsing.mpr ⟨hroot, mem_mappedTernarySupport.mpr
              ⟨Nat.le_of_not_lt h2, s, hs, hmapped⟩⟩
          rcases h.decided literal hmem with hunknown | ⟨kept, hkept, hsame⟩ | hunused
          · exact absurd hunknown hX
          · rw [← hsame, hσ kept hkept, hcube kept (h.sub hkept)]
          · rw [hunused] at hreads
            cases hreads
        · exact hothers t ht

/-- A cube state that agrees with the model elsewhere is the model. -/
theorem holds_of_modelCube (hcube : modelCube.Holds model) {σ : Valuation}
    (hσ : modelCube.Holds σ) (hothers : ∀ t, t ∉ modelCube.symbols → lit σ t = lit model t)
    {others : Option Nat → Valuation} {root : PdrTernarySimulationRoot}
    (h : root.Holds maps model others) : root.Holds maps σ others := by
  have hsame : lit σ = lit model := by
    funext t
    by_cases ht : t ∈ modelCube.symbols
    · obtain ⟨literal, hmem, rfl⟩ := mem_symbols.mp ht
      rw [hσ literal hmem, hcube literal hmem]
    · exact hothers t ht
  unfold PdrTernarySimulationRoot.Holds localValuation at h ⊢
  rwa [hsame]

/-- The answer of a whole run: a part of the cube, in whose states the roots have their values
while the other symbols are those of the model, and a cache that is fit for the next reducer. -/
def ReducedCubeLifts (maps : Nat → List (Nat × Nat)) (fuel : Nat) (hasSymbol : Nat → Bool)
    (model : Valuation) (roots : List PdrTernarySimulationRoot) (modelCube : StateCube)
    (cache : PdrFormulaSupportCache) (others : Option Nat → Valuation) : Prop :=
  ∃ reduced cache', reduceSolvedCubeByTernarySimulation maps fuel hasSymbol model roots
      modelCube cache = .ok (reduced, cache') ∧ cache'.Ok ∧ reduced ⊆ modelCube ∧
    ∀ σ : Valuation, reduced.Holds σ →
      (∀ t, t ∉ modelCube.symbols → lit σ t = lit model t) →
      ∀ root ∈ roots, root.Holds maps σ others

/-- A run that ends has made only trials that stay inside the memos. -/
theorem trialInMemos_of_ok (hcache : cache.Ok) {fuel : Nat}
    (hfuel : drainFuel (construct maps hasSymbol model roots modelCube cache).cache.nodes ≤ fuel)
    (hrun : (reduceSolvedCubeByTernarySimulation maps fuel hasSymbol model roots modelCube
      cache).isOk = true) {literal : CubeLiteral} {r : PdrTernaryModelReducer}
    (h : (construct maps hasSymbol model roots modelCube cache).BeforeTrial maps fuel modelCube
      literal r) : r.TrialInMemos maps literal.symbol := by
  obtain ⟨r₁, hfirst, htried⟩ := h
  have hready : Ready (construct maps hasSymbol model roots modelCube cache) modelCube :=
    construct_ready hcache
  obtain ⟨h₁, -⟩ := (rootsHaveExpectedValues_spec hready (construct_reducing hcache) hfuel
    none).2 true r₁ hfirst
  obtain ⟨hiff, -⟩ := reduceLiterals_spec hready hfuel modelCube
    (fun l hl => mem_symbols.mpr ⟨l, hl, rfl⟩) h₁.toReducing
  refine hiff.mp ?_ literal r htried
  obtain ⟨out, hout⟩ : ∃ out, reduceSolvedCubeByTernarySimulation maps fuel hasSymbol model roots
      modelCube cache = .ok out := by
    cases hcase : reduceSolvedCubeByTernarySimulation maps fuel hasSymbol model roots modelCube
        cache with
    | ok out => exact ⟨out, rfl⟩
    | error fault =>
      rw [hcase] at hrun
      cases hrun
  obtain ⟨⟨reduced, r₂⟩, hreduce, -⟩ := bind_ok.mp hout
  unfold reduce at hreduce
  split at hreduce
  · -- without roots nothing is tried
    rename_i hnone
    obtain ⟨done, rest, reduced', hsplit, hloop, hused⟩ := htried
    obtain ⟨X, hinv, -⟩ := (reduceLiterals_spec hready hfuel done
      (fun l hl => mem_symbols.mpr ⟨l, hsplit ▸ List.mem_append_left _ hl, rfl⟩)
      h₁.toReducing).2 reduced' r hloop
    refine absurd ?_ hused
    unfold rootsUsing
    rw [hinv.roots, List.isEmpty_iff.mp hnone, List.filter_nil]
  · rw [hfirst, ok_bind] at hreduce
    exact ⟨_, hreduce⟩

/-- The reduced cube lifts the model, and the memos after every trial are those of an evaluation
from scratch, exactly when every trial stays inside the memos; with one symbol map for all
roots it does. -/
theorem reduceSolvedCubeByTernarySimulation_lifts_iff (hcache : cache.Ok)
    (hcube : modelCube.Holds model) {others : Option Nat → Valuation}
    (hmodel : ∀ root ∈ roots, root.Holds maps model others) {fuel : Nat}
    (hfuel : drainFuel (construct maps hasSymbol model roots modelCube cache).cache.nodes ≤ fuel) :
    let r₀ := construct maps hasSymbol model roots modelCube cache
    (ReducedCubeLifts maps fuel hasSymbol model roots modelCube cache others ∧
      (∀ literal r, r₀.BeforeTrial maps fuel modelCube literal r →
        ∃ expected r', r.tryUnknown maps fuel literal.symbol = .ok (expected, r') ∧
          r'.MemosExact maps) ↔
      ∀ literal r, r₀.BeforeTrial maps fuel modelCube literal r →
        r.TrialInMemos maps literal.symbol) ∧
    ∀ symbolMap, (∀ root ∈ roots, root.symbolMap = symbolMap) → ∀ literal r,
      r₀.BeforeTrial maps fuel modelCube literal r → r.TrialInMemos maps literal.symbol := by
  intro r₀
  have hready : Ready r₀ modelCube := construct_ready hcache
  have hstart : Reducing maps r₀ modelCube ∅ r₀ := construct_reducing hcache
  have hcounter : r₀.cache.ternaryEvaluationGeneration = r₀.memoGeneration :=
    (construct_entered hcache).generation
  have htrial : ∀ literal r, r₀.BeforeTrial maps fuel modelCube literal r →
      ((∃ expected r', r.tryUnknown maps fuel literal.symbol = .ok (expected, r') ∧
        r'.MemosExact maps) ↔ r.TrialInMemos maps literal.symbol) := by
    intro literal r h
    obtain ⟨X, hinv, hs⟩ := h.reducing hready hstart hfuel
    exact hinv.tryUnknown_memosExact hready hfuel hs
  have hwhole : ∀ σ : Valuation, modelCube.Holds σ →
      (∀ t, t ∉ modelCube.symbols → lit σ t = lit model t) →
      ∀ root ∈ roots, root.Holds maps σ others :=
    fun σ hσ hothers root hroot => holds_of_modelCube hcube hσ hothers (hmodel root hroot)
  refine ⟨⟨fun h literal r hbefore => (htrial literal r hbefore).mp (h.2 literal r hbefore),
    fun hin => ⟨?_, fun literal r hbefore => (htrial literal r hbefore).mpr
      (hin literal r hbefore)⟩⟩, fun symbolMap hcommon literal r hbefore r' hr' m hm => ?_⟩
  · unfold ReducedCubeLifts reduceSolvedCubeByTernarySimulation reduce
    split
    · exact ⟨modelCube, _, rfl, hstart.cacheOk hready hcounter, List.Subset.refl _, hwhole⟩
    · obtain ⟨hruns, hends⟩ := rootsHaveExpectedValues_spec hready hstart hfuel none
      have hnone : r₀.PropagationInMemos maps :=
        (propagateChangedAssignments_spec hready hstart hfuel).1.mp ⟨r₀, if_pos rfl⟩
      obtain ⟨⟨expected, r₁⟩, hfirst⟩ := hruns.mpr hnone
      obtain ⟨h₁, hiff⟩ := hends expected r₁ hfirst
      rw [show (construct maps hasSymbol model roots modelCube cache).rootsHaveExpectedValues maps
        fuel none = .ok (expected, r₁) from hfirst]
      cases expected with
      | true =>
        obtain ⟨hloops, hafter⟩ := reduceLiterals_spec hready hfuel modelCube
          (fun l hl => mem_symbols.mpr ⟨l, hl, rfl⟩) h₁.toReducing
        obtain ⟨⟨reduced, r₂⟩, hloop⟩ := hloops.mpr fun literal r htried =>
          hin literal r ⟨r₁, hfirst, htried⟩
        obtain ⟨X, h₂, hreduced⟩ := hafter reduced r₂ hloop
        refine ⟨reduced, r₂.cache, ?_, h₂.cacheOk hready hcounter, hreduced.sub,
          fun σ hσ hothers root hroot => ?_⟩
        · simp only [bind, Except.bind, if_pos, hloop]
          rfl
        · exact hreduced.lifts hcube hσ hothers others hroot
            (hreduced.expects (hiff.mp rfl) root hroot)
      | false =>
        exact ⟨modelCube, _, rfl, h₁.toReducing.cacheOk hready hcounter, List.Subset.refl _, hwhole⟩
  · -- the memo has a slot for every node of the table
    obtain ⟨X, hinv, hs⟩ := hbefore.reducing hready hstart hfuel
    obtain ⟨r₁, hset, h₁⟩ := setAssignmentUnknown_spec hready hinv hs true
    obtain rfl : r₁ = r' := Except.ok.inj (hset.symm.trans hr')
    apply stepsInMemo_of_length_le (h₁.nodes ▸ (hready.domain none).wellFormed)
    obtain ⟨root, hroot, rfl⟩ := List.mem_map.mp (List.mem_dedup.mp hm)
    rw [h₁.roots] at hroot
    have hroots : roots ≠ [] := List.ne_nil_of_mem hroot
    rw [h₁.nodes, h₁.size, hcommon root hroot]
    exact length_le_of_common_map hcommon hroots

end Lifting

/-- Two designs, each with its own symbol map. -/
def designMaps : Nat → List (Nat × Nat)
  | 0 => [(2, 10), (3, 11)]
  | _ => [(2, 12), (3, 13)]

def designModel : Valuation := fun s => s == 10 || s == 11

theorem emptyCache_ok : PdrFormulaSupportCache.Ok {} where
  wellFormed := ⟨List.nodup_nil, fun _ he => absurd he List.not_mem_nil,
    fun _ hl => absurd hl List.not_mem_nil⟩
  bounded _ _ := ⟨Nat.le_refl 0, Nat.le_refl 0⟩

/-- The disjunction is a node of both designs, and its parent is behind the end of the memo of
the first one. -/
def keptRoots : List PdrTernarySimulationRoot :=
  [⟨.or (.var 2) (.var 3), some 0, true⟩, ⟨.var 2, some 0, true⟩,
    ⟨.not (.or (.var 2) (.var 3)), some 1, true⟩]

def keptCube : StateCube := [⟨10, true⟩, ⟨11, true⟩]

/-- The trial of the first literal is undone, that of the second one is accepted, and the
disjunction keeps its value throughout. -/
theorem reduceSolvedCubeByTernarySimulation_lifts_iff_kept :
    let r₀ := construct designMaps (fun _ => true) designModel keptRoots keptCube {}
    ReducedCubeLifts designMaps 9 (fun _ => true) designModel keptRoots keptCube {}
      (fun _ _ => false) ∧
    ∀ literal r, r₀.BeforeTrial designMaps 9 keptCube literal r →
      ∃ expected r', r.tryUnknown designMaps 9 literal.symbol = .ok (expected, r') ∧
        r'.MemosExact designMaps := by
  have hfuel : drainFuel (construct designMaps (fun _ => true) designModel keptRoots keptCube
    {}).cache.nodes ≤ 9 := by decide +kernel
  have hrun : (reduceSolvedCubeByTernarySimulation designMaps 9 (fun _ => true) designModel
    keptRoots keptCube {}).isOk = true := by decide +kernel
  exact (reduceSolvedCubeByTernarySimulation_lifts_iff emptyCache_ok (by decide) (by decide)
    hfuel).1.mpr fun _ _ => trialInMemos_of_ok emptyCache_ok hfuel hrun

/-- The variable is a node of both roots, and its parent is behind the end of the memo of the
first design. -/
def sharingRoots : List PdrTernarySimulationRoot :=
  [⟨.var 2, some 0, true⟩, ⟨.not (.var 2), some 1, true⟩]

def sharingCube : StateCube := [⟨10, true⟩, ⟨12, false⟩]

theorem reduceSolvedCubeByTernarySimulation_memoOutOfRange :
    PdrFormulaSupportCache.Ok {} ∧ sharingCube.Holds designModel ∧
      (∀ root ∈ sharingRoots, root.Holds designMaps designModel fun _ _ => false) ∧
      ∀ fuel, reduceSolvedCubeByTernarySimulation designMaps fuel (fun _ => true) designModel
        sharingRoots sharingCube {} = .error (.memoOutOfRange 1) :=
  ⟨emptyCache_ok, by decide, by decide, fun _ => rfl⟩

end PdrTernaryModelReducer
end KeplerFormal
