import Mathlib.Data.Finset.Card
import KeplerFormal.L7Model.SequentialOutputs
import KeplerFormal.L7Model.TransitionRebuild

/-!
# The required states are closed

* `Grows`, `enqueueStateDependencies_entered`: what a walk over an expression adds; a node stays
  unscanned until its variables are queued, apart from the nodes around it, which are larger.
* `FrontierInv`: scanned nodes have their variables queued, and queued variables their states
  required; a required state is expanded, in the queue, or has no expression yet.
* `rebuildLoop_spec`: the queues run empty.
* `rebuild_closed`: what the rebuild retains, and what is left after the removal.
-/
namespace KeplerFormal

open Core

/-! ## What a walk adds -/

namespace StateFrontier
variable {m : ExtractionModel} {pendings : List PendingTransition}

/-- Every required state variable of a node was queued. -/
def Complete (m : ExtractionModel) (f : StateFrontier) (node : BoolExpr) : Prop :=
  ∀ v ∈ node.getSupportVars, v ∈ m.stateVars → v ∈ f.enqueuedStateVarIDs

/-- The states that can still be put in the queue, and those that are in it. -/
def stateRounds (m : ExtractionModel) (f : StateFrontier) : Nat :=
  (m.stateBits.toFinset \ f.requiredStateKeys).card + f.stateDependencyWorkQueue.length

/-- The transitions that can still be put in the queue, and those that are in it. -/
def batchRounds (pendings : List PendingTransition) (f : StateFrontier) : Nat :=
  (Finset.range pendings.length \ f.requiredPendingIndexes).card + f.pendingWorkQueue.length

/-- What is required or queued stays so, and a transition that is required for the first time is
queued. -/
structure Widens (pendings : List PendingTransition) (f f' : StateFrontier) : Prop where
  required : f.requiredStateKeys ⊆ f'.requiredStateKeys
  pending : f.pendingWorkQueue ⊆ f'.pendingWorkQueue
  indexes : f.requiredPendingIndexes ⊆ f'.requiredPendingIndexes
  scanned : f.scannedDependencyNodes ⊆ f'.scannedDependencyNodes
  newIndex : ∀ i ∈ f'.requiredPendingIndexes,
    i ∈ f.requiredPendingIndexes ∨ i ∈ f'.pendingWorkQueue
  newPending : ∀ i ∈ f'.pendingWorkQueue, i ∈ f.pendingWorkQueue ∨
    i ∉ f.requiredPendingIndexes ∧ i ∈ f'.requiredPendingIndexes
  batchRounds : f'.batchRounds pendings = f.batchRounds pendings

/-- A step that only queues: a state that is required for the first time is queued, with its
transition. -/
structure Grows (m : ExtractionModel) (pendings : List PendingTransition) (f f' : StateFrontier) :
    Prop extends Widens pendings f f' where
  queued : f.stateDependencyWorkQueue ⊆ f'.stateDependencyWorkQueue
  enqueued : f.enqueuedStateVarIDs ⊆ f'.enqueuedStateVarIDs
  expanded : f'.expandedStateDependencies = f.expandedStateDependencies
  newState : ∀ key ∈ f'.requiredStateKeys, key ∈ f.requiredStateKeys ∨
    key ∈ f'.stateDependencyWorkQueue ∧
      ∀ i, pendingIndexByStateKey pendings key = some i → i ∈ f'.requiredPendingIndexes
  newVar : ∀ v ∈ f'.enqueuedStateVarIDs, v ∈ f.enqueuedStateVarIDs ∨
    ∀ key, m.stateKeyOf v = some key → key ∈ f'.requiredStateKeys
  stateRounds : f'.stateRounds m = f.stateRounds m

theorem Widens.refl (f : StateFrontier) : Widens pendings f f where
  required _ h := h
  pending _ h := h
  indexes _ h := h
  scanned _ h := h
  newIndex _ h := .inl h
  newPending _ h := .inl h
  batchRounds := rfl

theorem Widens.trans {f f' f'' : StateFrontier} (h : Widens pendings f f')
    (h' : Widens pendings f' f'') : Widens pendings f f'' where
  required := h.required.trans h'.required
  pending := List.Subset.trans h.pending h'.pending
  indexes := h.indexes.trans h'.indexes
  scanned := h.scanned.trans h'.scanned
  newIndex i hi := by
    rcases h'.newIndex i hi with hold | hnew
    · exact (h.newIndex i hold).imp_right fun hmid => h'.pending hmid
    · exact .inr hnew
  newPending i hi := by
    rcases h'.newPending i hi with hold | hnew
    · exact (h.newPending i hold).imp_right fun hmid => ⟨hmid.1, h'.indexes hmid.2⟩
    · exact .inr ⟨fun hmem => hnew.1 (h.indexes hmem), hnew.2⟩
  batchRounds := h'.batchRounds.trans h.batchRounds

theorem Grows.refl (f : StateFrontier) : Grows m pendings f f where
  toWidens := .refl f
  queued _ h := h
  enqueued _ h := h
  expanded := rfl
  newState _ h := .inl h
  newVar _ h := .inl h
  stateRounds := rfl

theorem Grows.trans {f f' f'' : StateFrontier} (h : Grows m pendings f f')
    (h' : Grows m pendings f' f'') : Grows m pendings f f'' where
  toWidens := h.toWidens.trans h'.toWidens
  queued := List.Subset.trans h.queued h'.queued
  enqueued := h.enqueued.trans h'.enqueued
  expanded := h'.expanded.trans h.expanded
  newState key hkey := by
    rcases h'.newState key hkey with hold | hnew
    · rcases h.newState key hold with holder | hmid
      · exact .inl holder
      · exact .inr ⟨h'.queued hmid.1, fun i hi => h'.indexes (hmid.2 i hi)⟩
    · exact .inr hnew
  newVar v hv := by
    rcases h'.newVar v hv with hold | hnew
    · exact (h.newVar v hold).imp_right fun hmid key hkey => h'.required (hmid key hkey)
    · exact .inr hnew
  stateRounds := h'.stateRounds.trans h.stateRounds

/-- Taking an element that is counted out of a set. -/
theorem card_sdiff_insert {α : Type} [DecidableEq α] {whole part : Finset α} {a : α}
    (ha : a ∈ whole) (hnew : a ∉ part) :
    (whole \ insert a part).card + 1 = (whole \ part).card := by
  rw [Finset.sdiff_insert, Finset.card_erase_add_one (Finset.mem_sdiff.mpr ⟨ha, hnew⟩)]

theorem lt_of_pendingIndex {key : SignalKey} {i : Nat}
    (h : pendingIndexByStateKey pendings key = some i) : i < pendings.length :=
  (List.findIdx?_eq_some_iff_getElem.mp h).1

theorem grows_enqueuePending (f : StateFrontier) {i : Nat} (hi : i < pendings.length) :
    Grows m pendings f (f.enqueuePending i) ∧ i ∈ (f.enqueuePending i).requiredPendingIndexes := by
  unfold enqueuePending
  split
  · rename_i hmem
    exact ⟨.refl f, hmem⟩
  · rename_i hnew
    refine ⟨{ (Grows.refl f : Grows m pendings f f) with
      pending := List.subset_append_left ..
      indexes := Finset.subset_insert ..
      newState := fun key hkey => .inl hkey
      newIndex := fun j hj => ?_
      newPending := fun j hj => ?_
      batchRounds := ?_ }, Finset.mem_insert_self ..⟩
    · rcases Finset.mem_insert.mp hj with rfl | hold
      · exact .inr (by simp)
      · exact .inl hold
    · rcases List.mem_append.mp hj with hold | hj
      · exact .inl hold
      · obtain rfl := List.mem_singleton.mp hj
        exact .inr ⟨hnew, Finset.mem_insert_self ..⟩
    · have hcard := card_sdiff_insert (Finset.mem_range.mpr hi) hnew
      simp only [StateFrontier.batchRounds, List.length_append, List.length_singleton]
      omega

variable (pendings) in
theorem grows_enqueueRequiredStateKey (f : StateFrontier) {key : SignalKey}
    (hkey : key ∈ m.stateBits) : Grows m pendings f (f.enqueueRequiredStateKey pendings key) ∧
      key ∈ (f.enqueueRequiredStateKey pendings key).requiredStateKeys := by
  unfold enqueueRequiredStateKey
  split
  · rename_i hmem
    exact ⟨.refl f, hmem⟩
  · rename_i hnew
    -- the transition is queued before the state counts as required with it
    set f₁ : StateFrontier := { f with
      requiredStateKeys := insert key f.requiredStateKeys
      stateDependencyWorkQueue := f.stateDependencyWorkQueue ++ [key] } with hf₁
    have hrounds : f₁.stateRounds m = f.stateRounds m := by
      have hcard := card_sdiff_insert (List.mem_toFinset.mpr hkey) hnew
      simp only [StateFrontier.stateRounds, hf₁, List.length_append, List.length_singleton]
      omega
    have hgrown : ∀ f₂, Grows m pendings f₁ f₂ →
        (∀ i, pendingIndexByStateKey pendings key = some i → i ∈ f₂.requiredPendingIndexes) →
        Grows m pendings f f₂ := fun f₂ h hindex =>
      { h with
        required := (Finset.subset_insert ..).trans h.required
        queued := List.Subset.trans (List.subset_append_left ..) h.queued
        newState := fun key' hkey' => by
          rcases h.newState key' hkey' with hold | hnew'
          · rcases Finset.mem_insert.mp hold with rfl | holder
            · exact .inr ⟨h.queued (by simp [hf₁]), hindex⟩
            · exact .inl holder
          · exact .inr hnew'
        stateRounds := h.stateRounds.trans hrounds
        batchRounds := h.batchRounds }
    have hself : key ∈ f₁.requiredStateKeys := Finset.mem_insert_self ..
    cases hindex : pendingIndexByStateKey pendings key with
    | none => exact ⟨hgrown f₁ (.refl f₁) (by simp [hindex]), hself⟩
    | some i =>
      obtain ⟨hgrow, hi⟩ := grows_enqueuePending (m := m) f₁ (lt_of_pendingIndex hindex)
      exact ⟨hgrown _ hgrow (by simpa [hindex] using hi), hgrow.required hself⟩

theorem mem_stateBits_of_stateKeyOf {v : Nat} {key : SignalKey} (h : m.stateKeyOf v = some key) :
    key ∈ m.stateBits := List.mem_of_find?_eq_some h

variable (m pendings) in
theorem grows_enqueueRequiredStateVarID (f : StateFrontier) (v : Nat) :
    Grows m pendings f (f.enqueueRequiredStateVarID m pendings v) ∧
      v ∈ (f.enqueueRequiredStateVarID m pendings v).enqueuedStateVarIDs := by
  unfold enqueueRequiredStateVarID
  split
  · rename_i hmem
    exact ⟨.refl f, hmem⟩
  · set f₁ : StateFrontier := { f with
      enqueuedStateVarIDs := insert v f.enqueuedStateVarIDs } with hf₁
    have hgrown : ∀ f₂, Grows m pendings f₁ f₂ →
        (∀ key, m.stateKeyOf v = some key → key ∈ f₂.requiredStateKeys) →
        Grows m pendings f f₂ := fun f₂ h hrequired =>
      { h with
        enqueued := (Finset.subset_insert ..).trans h.enqueued
        newVar := fun v' hv' => by
          rcases h.newVar v' hv' with hold | hnew
          · rcases Finset.mem_insert.mp hold with rfl | holder
            · exact .inr hrequired
            · exact .inl holder
          · exact .inr hnew }
    have hself : v ∈ f₁.enqueuedStateVarIDs := Finset.mem_insert_self ..
    cases hkey : m.stateKeyOf v with
    | none => exact ⟨hgrown f₁ (.refl f₁) (by simp [hkey]), hself⟩
    | some key =>
      obtain ⟨hgrow, hrequired⟩ := grows_enqueueRequiredStateKey pendings f₁
        (mem_stateBits_of_stateKeyOf hkey)
      exact ⟨hgrown _ hgrow (by simpa [hkey] using hrequired), hgrow.enqueued hself⟩

theorem scanned_enqueueRequiredStateKey (f : StateFrontier) (key : SignalKey) :
    (f.enqueueRequiredStateKey pendings key).scannedDependencyNodes =
      f.scannedDependencyNodes := by
  unfold enqueueRequiredStateKey enqueuePending
  split
  · rfl
  · cases pendingIndexByStateKey pendings key with
    | none => rfl
    | some i =>
      dsimp only
      split <;> rfl

theorem scanned_enqueueRequiredStateVarID (f : StateFrontier) (v : Nat) :
    (f.enqueueRequiredStateVarID m pendings v).scannedDependencyNodes =
      f.scannedDependencyNodes := by
  unfold enqueueRequiredStateVarID
  split
  · rfl
  · cases m.stateKeyOf v with
    | none => rfl
    | some key => exact scanned_enqueueRequiredStateKey _ key

/-! ## The walk over an expression -/

theorem Complete.mono {f f' : StateFrontier} {node : BoolExpr} (h : Complete m f node)
    (hgrow : Grows m pendings f f') : Complete m f' node :=
  fun v hv hstate => hgrow.enqueued (h v hv hstate)

/-- What entering a node gives. -/
structure Entered (m : ExtractionModel) (pendings : List PendingTransition) (node : BoolExpr)
    (f f' : StateFrontier) : Prop where
  grows : Grows m pendings f f'
  complete : Complete m f' node
  scanned : ∀ n ∈ f'.scannedDependencyNodes, n ∈ f.scannedDependencyNodes ∨ Complete m f' n

/-- The scanned nodes up to a size are complete; the open ones are larger. -/
def CompleteBelow (m : ExtractionModel) (size : Nat) (f : StateFrontier) : Prop :=
  ∀ n ∈ f.scannedDependencyNodes, sizeOf n ≤ size → Complete m f n

theorem Entered.completeBelow {f f' : StateFrontier} {node : BoolExpr} {size : Nat}
    (h : Entered m pendings node f f') (hbelow : CompleteBelow m size f) :
    CompleteBelow m size f' := by
  intro n hn hsize
  rcases h.scanned n hn with hold | hcomplete
  · exact (hbelow n hold hsize).mono h.grows
  · exact hcomplete

/-- One operand after the other. -/
theorem Entered.trans {a b node : BoolExpr} {f₀ f₁ f₂ : StateFrontier}
    (hb : Entered m pendings b f₀ f₁) (ha : Entered m pendings a f₁ f₂)
    (hnode : node.getSupportVars = a.getSupportVars ∪ b.getSupportVars) :
    Entered m pendings node f₀ f₂ where
  grows := hb.grows.trans ha.grows
  complete v hv hstate := by
    rw [hnode] at hv
    rcases Finset.mem_union.mp hv with hva | hvb
    · exact ha.complete v hva hstate
    · exact ha.grows.enqueued (hb.complete v hvb hstate)
  scanned n hn := by
    rcases ha.scanned n hn with hmid | hcomplete
    · exact (hb.scanned n hmid).imp_right fun hcomplete => hcomplete.mono ha.grows
    · exact .inr hcomplete

/-- A node is scanned, and its operands are walked where only it was added. -/
theorem enter_spec {node : BoolExpr} {f : StateFrontier} {below : StateFrontier → StateFrontier}
    (hcomplete : CompleteBelow m (sizeOf node) f)
    (hbelow : ∀ f₁, (∀ n ∈ f₁.scannedDependencyNodes, sizeOf n < sizeOf node → Complete m f₁ n) →
      Entered m pendings node f₁ (below f₁)) :
    Entered m pendings node f (f.enter node below) ∧
      node ∈ (f.enter node below).scannedDependencyNodes := by
  unfold enter
  split
  · rename_i hmem
    exact ⟨⟨.refl f, hcomplete node hmem le_rfl, fun n hn => .inl hn⟩, hmem⟩
  · set f₁ : StateFrontier := { f with
      scannedDependencyNodes := insert node f.scannedDependencyNodes } with hf₁
    have hgrow₁ : Grows m pendings f f₁ :=
      { Grows.refl f with scanned := Finset.subset_insert .. }
    have hrun : Entered m pendings node f₁ (below f₁) := by
      refine hbelow f₁ fun n hn hsize => ?_
      rcases Finset.mem_insert.mp hn with rfl | hold
      · omega
      · exact (hcomplete n hold hsize.le).mono hgrow₁
    refine ⟨⟨hgrow₁.trans hrun.grows, hrun.complete, fun n hn => ?_⟩,
      hrun.grows.scanned (Finset.mem_insert_self ..)⟩
    rcases hrun.scanned n hn with hold | hdone
    · rcases Finset.mem_insert.mp hold with rfl | holder
      · exact .inr hrun.complete
      · exact .inl holder
    · exact .inr hdone

variable (pendings) in
theorem enqueueStateDependencies_entered (expr : BoolExpr) {f : StateFrontier}
    (hcomplete : CompleteBelow m (sizeOf expr) f) :
    Entered m pendings expr f (f.enqueueStateDependenciesFromFormula m pendings expr) ∧
      expr ∈ (f.enqueueStateDependenciesFromFormula m pendings expr).scannedDependencyNodes := by
  induction expr generalizing f with
  | var id =>
    refine enter_spec hcomplete fun f₁ _ => ?_
    split
    · rename_i hstate
      obtain ⟨hgrow, hid⟩ := grows_enqueueRequiredStateVarID m pendings f₁ id
      refine ⟨hgrow, fun v hv _ => Finset.mem_singleton.mp hv ▸ hid, fun n hn => .inl ?_⟩
      exact (scanned_enqueueRequiredStateVarID f₁ id) ▸ hn
    · rename_i hstate
      exact ⟨.refl f₁, fun v hv hmem => absurd (Finset.mem_singleton.mp hv ▸ hmem) hstate,
        fun n hn => .inl hn⟩
  | not a ih =>
    refine enter_spec hcomplete fun f₁ hsmall => ?_
    have h := (ih (f := f₁) fun n hn hsize => hsmall n hn (by simp; omega)).1
    exact ⟨h.grows, h.complete, h.scanned⟩
  | and a b iha ihb =>
    refine enter_spec hcomplete fun f₁ hsmall => ?_
    have hb := (ihb (f := f₁) fun n hn hsize => hsmall n hn (by simp; omega)).1
    have ha := (iha (hb.completeBelow fun n hn hsize => hsmall n hn (by simp; omega))).1
    exact hb.trans ha rfl
  | or a b iha ihb =>
    refine enter_spec hcomplete fun f₁ hsmall => ?_
    have hb := (ihb (f := f₁) fun n hn hsize => hsmall n hn (by simp; omega)).1
    have ha := (iha (hb.completeBelow fun n hn hsize => hsmall n hn (by simp; omega))).1
    exact hb.trans ha rfl
  | xor a b iha ihb =>
    refine enter_spec hcomplete fun f₁ hsmall => ?_
    have hb := (ihb (f := f₁) fun n hn hsize => hsmall n hn (by simp; omega)).1
    have ha := (iha (hb.completeBelow fun n hn hsize => hsmall n hn (by simp; omega))).1
    exact hb.trans ha rfl

/-! ## The invariant between walks -/

/-- What holds of the frontier where no walk is open, for the next-state expressions so far. -/
structure FrontierInv (m : ExtractionModel) (pendings : List PendingTransition)
    (next : KeyMap BoolExpr) (f : StateFrontier) : Prop where
  complete : ∀ n ∈ f.scannedDependencyNodes, Complete m f n
  states : ∀ v ∈ f.enqueuedStateVarIDs, ∀ key, m.stateKeyOf v = some key →
    key ∈ f.requiredStateKeys
  expanded : ∀ key ∈ f.expandedStateDependencies, ∃ e, next key = some e ∧
    e ∈ f.scannedDependencyNodes
  known : ∀ key ∈ f.requiredStateKeys, ∀ e, next key = some e →
    key ∈ f.expandedStateDependencies ∨ key ∈ f.stateDependencyWorkQueue
  indexes : ∀ key ∈ f.requiredStateKeys, ∀ i, pendingIndexByStateKey pendings key = some i →
    i ∈ f.requiredPendingIndexes

variable {next : KeyMap BoolExpr}

theorem FrontierInv.grow {f f' : StateFrontier} (h : FrontierInv m pendings next f)
    (hgrow : Grows m pendings f f')
    (hcomplete : ∀ n ∈ f'.scannedDependencyNodes,
      n ∈ f.scannedDependencyNodes ∨ Complete m f' n) :
    FrontierInv m pendings next f' where
  complete n hn := by
    rcases hcomplete n hn with hold | hdone
    · exact (h.complete n hold).mono hgrow
    · exact hdone
  states v hv key hkey := by
    rcases hgrow.newVar v hv with hold | hnew
    · exact hgrow.required (h.states v hold key hkey)
    · exact hnew key hkey
  expanded key hkey := by
    rw [hgrow.expanded] at hkey
    obtain ⟨e, he, hscanned⟩ := h.expanded key hkey
    exact ⟨e, he, hgrow.scanned hscanned⟩
  known key hkey e he := by
    rcases hgrow.newState key hkey with hold | hnew
    · rw [hgrow.expanded]
      exact (h.known key hold e he).imp_right fun hmem => hgrow.queued hmem
    · exact .inr hnew.1
  indexes key hkey i hi := by
    rcases hgrow.newState key hkey with hold | hnew
    · exact hgrow.indexes (h.indexes key hold i hi)
    · exact hnew.2 i hi

theorem FrontierInv.walk {f : StateFrontier} (h : FrontierInv m pendings next f) (e : BoolExpr) :
    FrontierInv m pendings next (f.enqueueStateDependenciesFromFormula m pendings e) ∧
      Grows m pendings f (f.enqueueStateDependenciesFromFormula m pendings e) ∧
      e ∈ (f.enqueueStateDependenciesFromFormula m pendings e).scannedDependencyNodes := by
  obtain ⟨hentered, hscanned⟩ := enqueueStateDependencies_entered pendings e
    (f := f) fun n hn _ => h.complete n hn
  exact ⟨h.grow hentered.grows hentered.scanned, hentered.grows, hscanned⟩

theorem FrontierInv.enqueueKey {f : StateFrontier} (h : FrontierInv m pendings next f)
    {key : SignalKey} (hkey : key ∈ m.stateBits) :
    FrontierInv m pendings next (f.enqueueRequiredStateKey pendings key) ∧
      Grows m pendings f (f.enqueueRequiredStateKey pendings key) := by
  have hgrow := (grows_enqueueRequiredStateKey pendings f hkey).1
  exact ⟨h.grow hgrow fun n hn => .inl (scanned_enqueueRequiredStateKey f key ▸ hn), hgrow⟩

/-- A state that has no expression yet leaves the queue. -/
theorem FrontierInv.drop {f : StateFrontier} {key : SignalKey} {rest : List SignalKey}
    (h : FrontierInv m pendings next f) (hqueue : f.stateDependencyWorkQueue = key :: rest)
    (hdone : next key = none ∨ key ∈ f.expandedStateDependencies) :
    FrontierInv m pendings next { f with stateDependencyWorkQueue := rest } where
  complete := h.complete
  states := h.states
  expanded := h.expanded
  known key' hkey' e he := by
    rcases h.known key' hkey' e he with hexpanded | hqueued
    · exact .inl hexpanded
    · rw [hqueue] at hqueued
      rcases List.mem_cons.mp hqueued with rfl | hrest
      · rcases hdone with hnone | hexpanded
        · rw [hnone] at he
          cases he
        · exact .inl hexpanded
      · exact .inr hrest
  indexes := h.indexes

/-- A state leaves the queue and its expression is walked. -/
theorem FrontierInv.expand {f : StateFrontier} {key : SignalKey} {rest : List SignalKey}
    {e : BoolExpr} (h : FrontierInv m pendings next f)
    (hqueue : f.stateDependencyWorkQueue = key :: rest) (he : next key = some e)
    {f₁ : StateFrontier}
    (hf₁ : f₁ = { f with
      stateDependencyWorkQueue := rest
      expandedStateDependencies := insert key f.expandedStateDependencies }) :
    FrontierInv m pendings next (f₁.enqueueStateDependenciesFromFormula m pendings e) ∧
      Grows m pendings f₁ (f₁.enqueueStateDependenciesFromFormula m pendings e) := by
  have hcomplete : ∀ n ∈ f₁.scannedDependencyNodes, Complete m f₁ n := by
    subst hf₁
    exact h.complete
  obtain ⟨⟨hgrow, -, hnodes⟩, hscanned⟩ := enqueueStateDependencies_entered pendings e
    (f := f₁) fun n hn _ => hcomplete n hn
  refine ⟨⟨fun n hn => ?_, fun v hv key' hkey' => ?_, fun key' hkey' => ?_,
    fun key' hkey' e' he' => ?_, fun key' hkey' i hi => ?_⟩, hgrow⟩
  · rcases hnodes n hn with hold | hdone
    · exact (hcomplete n hold).mono hgrow
    · exact hdone
  · rcases hgrow.newVar v hv with hold | hnew
    · subst hf₁
      exact hgrow.required (h.states v hold key' hkey')
    · exact hnew key' hkey'
  · rw [hgrow.expanded, hf₁] at hkey'
    rcases Finset.mem_insert.mp hkey' with rfl | hold
    · exact ⟨e, he, hscanned⟩
    · subst hf₁
      obtain ⟨e', he', hscanned'⟩ := h.expanded key' hold
      exact ⟨e', he', hgrow.scanned hscanned'⟩
  · rcases hgrow.newState key' hkey' with hold | hnew
    · rw [hgrow.expanded]
      subst hf₁
      rcases h.known key' hold e' he' with hexpanded | hqueued
      · exact .inl (Finset.mem_insert_of_mem hexpanded)
      · rw [hqueue] at hqueued
        rcases List.mem_cons.mp hqueued with rfl | hrest
        · exact .inl (Finset.mem_insert_self ..)
        · exact .inr (hgrow.queued hrest)
    · exact .inr hnew.1
  · rcases hgrow.newState key' hkey' with hold | hnew
    · subst hf₁
      exact hgrow.indexes (h.indexes key' hold i hi)
    · exact hnew.2 i hi

/-- The queue of states runs empty. -/
theorem expandStates_spec (rounds : Nat) {f : StateFrontier} (h : FrontierInv m pendings next f)
    (hrounds : f.stateRounds m ≤ rounds) :
    FrontierInv m pendings next (f.expandStates m pendings next rounds) ∧
      Widens pendings f (f.expandStates m pendings next rounds) ∧
      (f.expandStates m pendings next rounds).stateDependencyWorkQueue = [] := by
  induction rounds generalizing f with
  | zero =>
    have hempty : f.stateDependencyWorkQueue.length = 0 := by
      unfold StateFrontier.stateRounds at hrounds
      omega
    exact ⟨h, .refl f, List.length_eq_zero_iff.mp hempty⟩
  | succ rounds ih =>
    unfold expandStates
    cases hqueue : f.stateDependencyWorkQueue with
    | nil => exact ⟨h, .refl f, hqueue⟩
    | cons key rest =>
      dsimp only
      have hpop : ({ f with stateDependencyWorkQueue := rest } : StateFrontier).stateRounds m ≤
          rounds := by
        simp only [StateFrontier.stateRounds, hqueue, List.length_cons] at hrounds ⊢
        omega
      have hwiden : ∀ expanded, Widens pendings f { f with
          stateDependencyWorkQueue := rest
          expandedStateDependencies := expanded } := fun _ => { Widens.refl f with }
      cases he : next key with
      | none =>
        obtain ⟨hinv, hmore, hdone⟩ := ih (h.drop hqueue (.inl he)) hpop
        exact ⟨hinv, (hwiden _).trans hmore, hdone⟩
      | some e =>
        dsimp only
        split
        · rename_i hexpanded
          obtain ⟨hinv, hmore, hdone⟩ := ih (h.drop hqueue (.inr hexpanded)) hpop
          exact ⟨hinv, (hwiden _).trans hmore, hdone⟩
        · obtain ⟨hinv₁, hgrow₁⟩ := h.expand hqueue he rfl
          obtain ⟨hinv, hmore, hdone⟩ := ih hinv₁ (hgrow₁.stateRounds.trans_le hpop)
          exact ⟨hinv, (hwiden _).trans (hgrow₁.toWidens.trans hmore), hdone⟩

end StateFrontier

/-! ## The variables of states -/

namespace RebuildContext
variable {ctx : RebuildContext} {inputs : List Nat} {cells : List SignalKey}

/-- Two transitions share no key. -/
def Distinct (pendings : List PendingTransition) : Prop :=
  ∀ (i j : Nat) p q, pendings[i]? = some p → pendings[j]? = some q →
    ∀ key ∈ p.keys, key ∈ q.keys → i = j

/-- What extraction promises before the rebuild: the numbers of the first build and of the memory
cells, as `extract_spec` has them, an order of all observed outputs, next-state expressions of
memories only, and transitions that share no key. -/
structure Started (ctx : RebuildContext) (inputs : List Nat) (cells : List SignalKey)
    (w : RebuildWork) : Prop where
  sameInputs : w.builderInputs = inputs
  sameTable : w.extraction.termDNLID2varID = ctx.net.initVarNames inputs
  numbered : ∀ key, w.model.inputVarByKey key =
    (ctx.net.publishedVars inputs ++ ctx.net.cellVars inputs cells).lookup key
  listed : ∀ key, w.model.observedOutputExprByKey key ≠ none → key ∈ ctx.outputOrder
  sources : ∀ key, w.model.nextStateExprByStateKey key ≠ none → key ∈ w.model.stateBits
  fresh : ∀ p ∈ ctx.pendingTransitions, ∀ key ∈ p.keys,
    w.model.nextStateExprByStateKey key = none
  distinct : Distinct ctx.pendingTransitions

/-- Two keys have different numbers. -/
theorem number_injective (hnet : ctx.net.WellBuilt inputs cells) {key key' : SignalKey} {v : Nat}
    (h : (key, v) ∈ ctx.net.publishedVars inputs ++ ctx.net.cellVars inputs cells)
    (h' : (key', v) ∈ ctx.net.publishedVars inputs ++ ctx.net.cellVars inputs cells) :
    key = key' := by
  have hbelow := (BuilderNetlist.foldl_max_spec (ctx.net.publishedVars inputs) 2).2.1
  have hcell : ∀ {k}, (k, v) ∈ ctx.net.cellVars inputs cells →
      ctx.net.firstCellVarID inputs ≤ v := fun hk => by
    obtain ⟨index, -, rfl⟩ := BuilderNetlist.mem_cellVars.mp hk
    omega
  rcases List.mem_append.mp h with hpublished | hcells
  · have hlt : v < ctx.net.firstCellVarID inputs := hbelow _ hpublished
    rcases List.mem_append.mp h' with hpublished' | hcells'
    · obtain ⟨t, -, -, hkey, hnumber, h2⟩ := BuilderNetlist.mem_publishedVars.mp hpublished
      obtain ⟨t', -, -, hkey', hnumber', -⟩ := BuilderNetlist.mem_publishedVars.mp hpublished'
      obtain rfl := BuilderNetlist.initVarNames_injective hnet.nodup h2 hnumber hnumber'
      exact Option.some.inj (hkey.symm.trans hkey')
    · exact absurd (hcell hcells') (by omega)
  · rcases List.mem_append.mp h' with hpublished' | hcells'
    · exact absurd (hcell hcells) (by have := hbelow _ hpublished'; exact Nat.not_le.mpr this)
    · obtain ⟨index, hindex, hv⟩ := BuilderNetlist.mem_cellVars.mp hcells
      obtain ⟨index', hindex', hv'⟩ := BuilderNetlist.mem_cellVars.mp hcells'
      obtain rfl : index = index' := by omega
      exact Option.some.inj (hindex.symm.trans hindex')

theorem Started.stateKeyOf_eq (hnet : ctx.net.WellBuilt inputs cells) {w : RebuildWork}
    (hw : ctx.Started inputs cells w) {key : SignalKey} {v : Nat}
    (hkey : key ∈ w.model.stateBits) (hvar : w.model.inputVarByKey key = some v) :
    w.model.stateKeyOf v = some key := by
  have hmem : ∀ k, w.model.inputVarByKey k = some v →
      (k, v) ∈ ctx.net.publishedVars inputs ++ ctx.net.cellVars inputs cells := fun k hk => by
    rw [hw.numbered] at hk
    exact mem_of_lookup hk
  unfold ExtractionModel.stateKeyOf
  cases hfind : w.model.stateBits.find? fun k => w.model.inputVarByKey k = some v with
  | none =>
    have hnone := List.find?_eq_none.mp hfind key hkey
    simp [hvar] at hnone
  | some key' =>
    have hvar' : w.model.inputVarByKey key' = some v := by simpa using List.find?_some hfind
    exact congrArg some (number_injective hnet (hmem key' hvar') (hmem key hvar))

/-! ## The invariant of the rebuild -/

/-- The states of a transition are required, and it gave each an expression or a skip. -/
def Handled (w : RebuildWork) (pending : PendingTransition) : Prop :=
  ∀ key ∈ pending.keys, key ∈ w.frontier.requiredStateKeys ∧
    (w.model.nextStateExprByStateKey key ≠ none ∨ w.model.connectivitySkipInfoByKey key ≠ none)

/-- `rest` are the transitions that are queued, or taken for the batch and not built yet. -/
structure RebuildInv (ctx : RebuildContext) (inputs : List Nat) (m : ExtractionModel)
    (rest : List Nat) (w : RebuildWork) : Prop where
  frontier : StateFrontier.FrontierInv m ctx.pendingTransitions w.model.nextStateExprByStateKey
    w.frontier
  sameInputs : w.builderInputs = inputs
  sameTable : w.extraction.termDNLID2varID = ctx.net.initVarNames inputs
  sameBits : w.model.stateBits = m.stateBits
  sameVars : w.model.inputVarByKey = m.inputVarByKey
  sameOutputs : w.model.observedOutputExprByKey = m.observedOutputExprByKey
  outputs : ∀ key e, m.observedOutputExprByKey key = some e →
    e ∈ w.frontier.scannedDependencyNodes
  taken : ∀ i ∈ rest, i ∈ w.frontier.requiredPendingIndexes
  handled : ∀ i ∈ w.frontier.requiredPendingIndexes, i ∈ rest ∨
    ∀ p, ctx.pendingTransitions[i]? = some p → Handled w p
  fresh : ∀ (i : Nat) p, ctx.pendingTransitions[i]? = some p →
    i ∉ w.frontier.requiredPendingIndexes ∨ i ∈ w.frontier.pendingWorkQueue →
    ∀ key ∈ p.keys, w.model.nextStateExprByStateKey key = none
  sources : ∀ key, w.model.nextStateExprByStateKey key ≠ none →
    key ∈ m.stateBits ∨ key ∈ w.frontier.requiredStateKeys

/-- The expressions stay where only the frontier moves. -/
theorem RebuildInv.widen {m : ExtractionModel} {w : RebuildWork} {f : StateFrontier}
    (h : ctx.RebuildInv inputs m w.frontier.pendingWorkQueue w)
    (hinv : StateFrontier.FrontierInv m ctx.pendingTransitions w.model.nextStateExprByStateKey f)
    (hwiden : StateFrontier.Widens ctx.pendingTransitions w.frontier f) :
    ctx.RebuildInv inputs m f.pendingWorkQueue { w with frontier := f } where
  frontier := hinv
  sameInputs := h.sameInputs
  sameTable := h.sameTable
  sameBits := h.sameBits
  sameVars := h.sameVars
  sameOutputs := h.sameOutputs
  outputs key e he := hwiden.scanned (h.outputs key e he)
  taken i hi := by
    rcases hwiden.newPending i hi with hold | hnew
    · exact hwiden.indexes (h.taken i hold)
    · exact hnew.2
  handled i hi := by
    rcases hwiden.newIndex i hi with hold | hnew
    · rcases h.handled i hold with hqueued | hdone
      · exact .inl (hwiden.pending hqueued)
      · exact .inr fun p hp key hkey => ⟨hwiden.required (hdone p hp key hkey).1,
          (hdone p hp key hkey).2⟩
    · exact .inl hnew
  fresh i p hp hi := by
    refine h.fresh i p hp ?_
    rcases hi with hnot | hqueued
    · exact .inl fun hmem => hnot (hwiden.indexes hmem)
    · rcases hwiden.newPending i hqueued with hold | hnew
      · exact .inr hold
      · exact .inl hnew.1
  sources key hkey := (h.sources key hkey).imp_right fun hmem => hwiden.required hmem

/-! ## One batch -/

theorem emplace_of_known {α : Type} {map : KeyMap α} {key : SignalKey} (hknown : map key ≠ none)
    (value : α) : map.emplace key value = map :=
  if_pos (Option.isSome_iff_ne_none.mpr hknown)

theorem foldl_emplace_of_known {α : Type} {map : KeyMap α} {entries : List (SignalKey × α)}
    (hknown : ∀ entry ∈ entries, map entry.1 ≠ none) :
    entries.foldl (fun map entry => map.emplace entry.1 entry.2) map = map := by
  induction entries with
  | nil => rfl
  | cons entry entries ih =>
    rw [List.foldl_cons, emplace_of_known (hknown entry (List.mem_cons_self ..))]
    exact ih fun e he => hknown e (List.mem_cons_of_mem _ he)

theorem foldl_update_some {α : Type} (map : KeyMap α) (keys : List SignalKey) (value : α)
    (key : SignalKey) :
    keys.foldl (fun map k => Function.update map k (some value)) map key =
      if key ∈ keys then some value else map key := by
  induction keys generalizing map with
  | nil => simp
  | cons k keys ih =>
    rw [List.foldl_cons, ih]
    by_cases hmem : key ∈ keys
    · simp [hmem]
    · by_cases hsame : key = k <;> simp [hmem, hsame]

/-- A batch adds no number: its inputs are among those of the first build. -/
theorem RebuildInv.materializeBatch (hnet : ctx.net.WellBuilt inputs cells) {m : ExtractionModel}
    {rest : List Nat} {w w' : RebuildWork} {terms : List Nat}
    (h : ctx.RebuildInv inputs m rest w)
    (hpublished : ∀ entry ∈ ctx.net.publishedVars inputs, m.inputVarByKey entry.1 ≠ none)
    (hrun : ctx.materializeBatch terms w = .ok w') :
    ctx.RebuildInv inputs m rest w' ∧ w'.frontier = w.frontier := by
  unfold RebuildContext.materializeBatch at hrun
  split at hrun
  · cases hrun
    exact ⟨h, rfl⟩
  · obtain ⟨outputs, houtputs, hrun⟩ := bind_ok.mp hrun
    obtain ⟨built, -, hbuilt⟩ := bind_ok.mp houtputs
    cases hbuilt
    cases hrun
    set fewer := w.builderInputs.filter fun termID => termID ∉ ctx.nonTopRootsToBuild terms
      with hfewer
    have hsub : fewer.Sublist inputs := h.sameInputs ▸ List.filter_sublist
    have hinputs : appendUniqueTermIDs w.builderInputs fewer = inputs := by
      rw [h.sameInputs]
      exact BuilderNetlist.appendUniqueTermIDs_of_subset fun t ht => hsub.subset ht
    have htable : mergeBuilderTermVarIDs w.extraction.termDNLID2varID
        (mergeBuilderTermVarIDs w.extraction.termDNLID2varID (ctx.net.initVarNames fewer)) =
          ctx.net.initVarNames inputs := by
      rw [h.sameTable, BuilderNetlist.merge_eq hnet.nodup hsub]
      exact BuilderNetlist.merge_eq hnet.nodup (List.Sublist.refl _)
    have hvars : (ctx.recordBoundaryInputVars inputs (ctx.net.initVarNames inputs)
        w.model).inputVarByKey = w.model.inputVarByKey :=
      foldl_emplace_of_known fun entry hentry => h.sameVars ▸ hpublished entry hentry
    simp only [hinputs, htable]
    exact ⟨{ h with
      sameInputs := rfl
      sameTable := rfl
      sameVars := hvars.trans h.sameVars }, rfl⟩

/-! ## One transition -/

theorem emplaceAll_eq (m : ExtractionModel) (entries : List (SignalKey × BoolExpr)) :
    ∃ next, m.emplaceAll entries = { m with nextStateExprByStateKey := next } ∧
      (∀ key e, m.nextStateExprByStateKey key = some e → next key = some e) ∧
      (∀ key, next key ≠ none ↔
        m.nextStateExprByStateKey key ≠ none ∨ key ∈ entries.map Prod.fst) := by
  induction entries generalizing m with
  | nil => exact ⟨_, rfl, fun _ _ h => h, by simp⟩
  | cons entry entries ih =>
    obtain ⟨next, hnext, hkept, hstored⟩ := ih (m.emplaceNext entry.1 entry.2)
    by_cases hknown : (m.nextStateExprByStateKey entry.1).isSome
    · have hsame : m.emplaceNext entry.1 entry.2 = m := if_pos hknown
      rw [hsame] at hnext hkept hstored
      refine ⟨next, ?_, hkept, fun key => (hstored key).trans ?_⟩
      · show (m.emplaceNext entry.1 entry.2).emplaceAll entries = _
        rw [hsame, hnext]
      · rw [List.map_cons, List.mem_cons]
        constructor
        · exact fun h => h.imp_right .inr
        · intro h
          rcases h with hold | rfl | hnew
          · exact .inl hold
          · exact .inl (Option.isSome_iff_ne_none.mp hknown)
          · exact .inr hnew
    · have hsame : m.emplaceNext entry.1 entry.2 = { m with
          nextStateExprByStateKey :=
            Function.update m.nextStateExprByStateKey entry.1 (some entry.2) } := if_neg hknown
      rw [hsame] at hnext hkept hstored
      refine ⟨next, ?_, fun key e he => hkept key e ?_, fun key => (hstored key).trans ?_⟩
      · show (m.emplaceNext entry.1 entry.2).emplaceAll entries = _
        rw [hsame, hnext]
      · have hne : key ≠ entry.1 := fun hkey => hknown (by rw [← hkey, he]; rfl)
        exact (Function.update_of_ne hne _ _).trans he
      · rw [List.map_cons, List.mem_cons]
        by_cases hkey : key = entry.1
        · simp [hkey]
        · simp [hkey]

theorem rebuildTransition_ok {s s' : ExtractionState} {pending : PendingTransition}
    {entries : List (SignalKey × BoolExpr)} (h : s.rebuildTransition pending = .ok (entries, s')) :
    entries.map Prod.fst = pending.keys ∧ s'.termDNLID2varID = s.termDNLID2varID := by
  unfold ExtractionState.rebuildTransition at h
  cases hnext : s.buildNextStateExpr pending with
  | error message =>
    rw [hnext] at h
    cases h
  | ok built =>
    rw [hnext] at h
    cases h
    simp [PendingTransition.keys, Function.comp_def]

/-- What a batch leaves of the frontier while its transitions are built. -/
structure InBatch (f f' : StateFrontier) : Prop where
  required : f'.requiredStateKeys = f.requiredStateKeys
  indexes : f'.requiredPendingIndexes = f.requiredPendingIndexes
  pending : f'.pendingWorkQueue = f.pendingWorkQueue

theorem InBatch.trans {f f' f'' : StateFrontier} (h : InBatch f f') (h' : InBatch f' f'') :
    InBatch f f'' :=
  ⟨h'.required.trans h.required, h'.indexes.trans h.indexes, h'.pending.trans h.pending⟩

/-- A skipped transition marks all its states. -/
theorem RebuildInv.skip {m : ExtractionModel} {i : Nat} {rest : List Nat} {w : RebuildWork}
    {p : PendingTransition} (h : ctx.RebuildInv inputs m (i :: rest) w)
    (hp : ctx.pendingTransitions[i]? = some p)
    (hrequired : ∀ key ∈ p.keys, key ∈ w.frontier.requiredStateKeys)
    (info : ConnectivitySkipInfo) :
    ctx.RebuildInv inputs m rest { w with
      model := { w.model with
        connectivitySkipInfoByKey := p.keys.foldl
          (fun skips key => Function.update skips key (some info))
          w.model.connectivitySkipInfoByKey } } :=
  { h with
    taken := fun j hj => h.taken j (List.mem_cons_of_mem _ hj)
    handled := fun j hj => by
      rcases h.handled j hj with hrest | hdone
      · rcases List.mem_cons.mp hrest with rfl | hrest
        · refine .inr fun q hq key hkey => ?_
          obtain rfl : p = q := Option.some.inj (hp.symm.trans hq)
          refine ⟨hrequired key hkey, .inr ?_⟩
          simp [foldl_update_some, hkey]
        · exact .inl hrest
      · refine .inr fun q hq key hkey => ⟨(hdone q hq key hkey).1, ?_⟩
        refine (hdone q hq key hkey).2.imp_right fun hmarked => ?_
        dsimp only
        rw [foldl_update_some]
        split
        · simp
        · exact hmarked }

/-- A built transition stores an expression for all its states, and they are queued. -/
theorem RebuildInv.store {m : ExtractionModel} {i : Nat} {rest : List Nat} {w : RebuildWork}
    {p : PendingTransition} {next : KeyMap BoolExpr} (h : ctx.RebuildInv inputs m (i :: rest) w)
    (hp : ctx.pendingTransitions[i]? = some p)
    (hdistinct : ∀ (j : Nat) q, ctx.pendingTransitions[j]? = some q →
      ∀ key ∈ p.keys, key ∈ q.keys → i = j)
    (hrequired : ∀ key ∈ p.keys, key ∈ w.frontier.requiredStateKeys)
    (hempty : w.frontier.pendingWorkQueue = [])
    (hkept : ∀ key e, w.model.nextStateExprByStateKey key = some e → next key = some e)
    (hstored : ∀ key, next key ≠ none ↔
      w.model.nextStateExprByStateKey key ≠ none ∨ key ∈ p.keys)
    {extraction : ExtractionState}
    (htable : extraction.termDNLID2varID = w.extraction.termDNLID2varID)
    (events : KeyMap ClockEvent) :
    ctx.RebuildInv inputs m rest { w with
      extraction := extraction
      model := { w.model with
        nextStateExprByStateKey := next
        clockEventByStateKey := events }
      frontier := { w.frontier with stateDependencyWorkQueue :=
        w.frontier.stateDependencyWorkQueue ++ p.complementedStateKeys ++ [p.stateKey] } } := by
  have hqueued : ∀ key ∈ p.keys, key ∈
      w.frontier.stateDependencyWorkQueue ++ p.complementedStateKeys ++ [p.stateKey] := by
    intro key hkey
    rcases List.mem_cons.mp hkey with rfl | hcomplement
    · simp
    · simp [hcomplement]
  refine {
    frontier := ⟨h.frontier.complete, h.frontier.states, fun key hkey => ?_,
      fun key hkey e he => ?_, h.frontier.indexes⟩
    sameInputs := h.sameInputs
    sameTable := htable.trans h.sameTable
    sameBits := h.sameBits
    sameVars := h.sameVars
    sameOutputs := h.sameOutputs
    outputs := h.outputs
    taken := fun j hj => h.taken j (List.mem_cons_of_mem _ hj)
    handled := fun j hj => ?_
    fresh := fun j q hq hj key hkey => ?_
    sources := fun key hkey => ?_ }
  · obtain ⟨e, he, hscanned⟩ := h.frontier.expanded key hkey
    exact ⟨e, hkept key e he, hscanned⟩
  · -- an expression that is stored now has its state in the queue
    cases hold : w.model.nextStateExprByStateKey key with
    | none =>
      have hknown : next key ≠ none := by
        rw [show next key = some e from he]
        exact Option.some_ne_none e
      have hnew := ((hstored key).mp hknown).resolve_left (by simp [hold])
      exact .inr (hqueued key hnew)
    | some e' =>
      refine (h.frontier.known key hkey e' hold).imp_right fun hmem => ?_
      exact List.mem_append_left _ (List.mem_append_left _ hmem)
  · rcases h.handled j hj with hrest | hdone
    · rcases List.mem_cons.mp hrest with rfl | hrest
      · refine .inr fun q hq key hkey => ?_
        obtain rfl : p = q := Option.some.inj (hp.symm.trans hq)
        exact ⟨hrequired key hkey, .inl ((hstored key).mpr (.inr hkey))⟩
      · exact .inl hrest
    · refine .inr fun q hq key hkey => ⟨(hdone q hq key hkey).1, ?_⟩
      exact (hdone q hq key hkey).2.imp_left fun hknown => (hstored key).mpr (.inl hknown)
  · -- the transition that is built was taken, so this is another one
    have hnot : j ∉ w.frontier.requiredPendingIndexes := by
      rcases hj with hnot | hqueue
      · exact hnot
      · rw [show (_ : RebuildWork).frontier.pendingWorkQueue = [] from hempty] at hqueue
        cases hqueue
    by_contra hknown
    rcases (hstored key).mp hknown with hold | hnew
    · exact hold (h.fresh j q hq (.inl hnot) key hkey)
    · obtain rfl := hdistinct j q hq key hnew hkey
      exact hnot (h.taken i (List.mem_cons_self ..))
  · rcases (hstored key).mp hkey with hold | hnew
    · exact h.sources key hold
    · exact .inr (hrequired key hnew)

theorem RebuildInv.buildPending {m : ExtractionModel} {i : Nat} {rest : List Nat}
    {w w' : RebuildWork} {p : PendingTransition} (h : ctx.RebuildInv inputs m (i :: rest) w)
    (hp : ctx.pendingTransitions[i]? = some p)
    (hdistinct : ∀ (j : Nat) q, ctx.pendingTransitions[j]? = some q →
      ∀ key ∈ p.keys, key ∈ q.keys → i = j)
    (hrequired : ∀ key ∈ p.keys, key ∈ w.frontier.requiredStateKeys)
    (hempty : w.frontier.pendingWorkQueue = []) (hrun : ctx.buildPending w p = .ok w') :
    ctx.RebuildInv inputs m rest w' ∧ InBatch w.frontier w'.frontier := by
  unfold RebuildContext.buildPending at hrun
  cases hskip : ctx.skippedPin w.skippedOutputsByTerm p with
  | some info =>
    rw [hskip] at hrun
    cases hrun
    exact ⟨h.skip hp hrequired info, rfl, rfl, rfl⟩
  | none =>
    rw [hskip] at hrun
    obtain ⟨⟨entries, extraction⟩, hbuilt, hrun⟩ := bind_ok.mp hrun
    obtain ⟨event, -, hrun⟩ := bind_ok.mp hrun
    obtain ⟨hkeys, htable⟩ := rebuildTransition_ok hbuilt
    obtain ⟨next, hnext, hkept, hstored⟩ := emplaceAll_eq w.model entries
    rw [hkeys] at hstored
    cases hrun
    rw [hnext]
    exact ⟨h.store hp hdistinct hrequired hempty hkept hstored htable _, rfl, rfl, rfl⟩

theorem mem_keys_of_pendingIndex {key : SignalKey} {i : Nat}
    (h : pendingIndexByStateKey ctx.pendingTransitions key = some i) :
    ∃ p, ctx.pendingTransitions[i]? = some p ∧ key ∈ p.keys := by
  obtain ⟨hlt, hkey, -⟩ := List.findIdx?_eq_some_iff_getElem.mp h
  exact ⟨_, List.getElem?_eq_getElem hlt, by simpa using hkey⟩

theorem RebuildInv.foldlM_buildPending {m : ExtractionModel}
    (hdistinct : Distinct ctx.pendingTransitions) (indexes : List Nat) {w w' : RebuildWork}
    (h : ctx.RebuildInv inputs m indexes w)
    (hrequired : ∀ i ∈ indexes, ∀ p, ctx.pendingTransitions[i]? = some p →
      ∀ key ∈ p.keys, key ∈ w.frontier.requiredStateKeys)
    (hempty : w.frontier.pendingWorkQueue = [])
    (hrun : (indexes.filterMap fun i => ctx.pendingTransitions[i]?).foldlM ctx.buildPending w =
      .ok w') :
    ctx.RebuildInv inputs m [] w' ∧ InBatch w.frontier w'.frontier := by
  induction indexes generalizing w with
  | nil =>
    cases hrun
    exact ⟨h, rfl, rfl, rfl⟩
  | cons i indexes ih =>
    cases hp : ctx.pendingTransitions[i]? with
    | none =>
      rw [List.filterMap_cons_none hp] at hrun
      refine ih { h with
        taken := fun j hj => h.taken j (List.mem_cons_of_mem _ hj)
        handled := fun j hj => ?_ }
        (fun j hj => hrequired j (List.mem_cons_of_mem _ hj)) hempty hrun
      rcases h.handled j hj with hrest | hdone
      · rcases List.mem_cons.mp hrest with rfl | hrest
        · exact .inr fun q hq => absurd (hp.symm.trans hq) (by simp)
        · exact .inl hrest
      · exact .inr hdone
    | some p =>
      rw [List.filterMap_cons_some hp, List.foldlM_cons] at hrun
      obtain ⟨w₁, hstep, hrun⟩ := bind_ok.mp hrun
      obtain ⟨hinv, hsame⟩ := h.buildPending hp (fun j q hq => hdistinct i j p q hp hq)
        (hrequired i (List.mem_cons_self ..) p hp) hempty hstep
      obtain ⟨hdone, hrest⟩ := ih hinv
        (fun j hj q hq key hkey => by
          rw [hsame.required]
          exact hrequired j (List.mem_cons_of_mem _ hj) q hq key hkey)
        (hsame.pending.trans hempty) hrun
      exact ⟨hdone, hsame.trans hrest⟩

/-- The states of a batch become required before it is built; none of them has an expression. -/
theorem RebuildInv.takeBatch {m : ExtractionModel} (hdistinct : Distinct ctx.pendingTransitions)
    {w : RebuildWork} (h : ctx.RebuildInv inputs m w.frontier.pendingWorkQueue w)
    {required : Finset SignalKey}
    (hsub : w.frontier.requiredStateKeys ⊆ required)
    (hnew : ∀ key ∈ required, key ∈ w.frontier.requiredStateKeys ∨
      ∃ i ∈ w.frontier.pendingWorkQueue, ∃ p, ctx.pendingTransitions[i]? = some p ∧ key ∈ p.keys)
    (materialized : Nat → Bool) :
    ctx.RebuildInv inputs m w.frontier.pendingWorkQueue { w with
      materializedOutputTerms := materialized
      frontier := { w.frontier with
        pendingWorkQueue := []
        requiredStateKeys := required } } :=
  { h with
    frontier :=
      { complete := h.frontier.complete
        states := fun v hv key hkey => hsub (h.frontier.states v hv key hkey)
        expanded := h.frontier.expanded
        known := fun key hkey e he => by
          rcases hnew key hkey with hold | ⟨i, hi, p, hp, hmem⟩
          · exact h.frontier.known key hold e he
          · rw [h.fresh i p hp (.inr hi) key hmem] at he
            cases he
        indexes := fun key hkey j hj => by
          rcases hnew key hkey with hold | ⟨i, hi, p, hp, hmem⟩
          · exact h.frontier.indexes key hold j hj
          · obtain ⟨q, hq, hmem'⟩ := mem_keys_of_pendingIndex hj
            obtain rfl := hdistinct i j p q hp hq key hmem hmem'
            exact h.taken i hi }
    handled := fun i hi => (h.handled i hi).imp_right fun hdone p hp key hkey =>
      ⟨hsub (hdone p hp key hkey).1, (hdone p hp key hkey).2⟩
    fresh := fun i p hp hi key hkey => by
      refine h.fresh i p hp (.inl ?_) key hkey
      exact hi.resolve_right (List.not_mem_nil)
    sources := fun key hkey => (h.sources key hkey).imp_right fun hmem => hsub hmem }

/-- A batch empties the queue of transitions. -/
theorem RebuildInv.processBatch (hnet : ctx.net.WellBuilt inputs cells) {m : ExtractionModel}
    (hdistinct : Distinct ctx.pendingTransitions)
    (hpublished : ∀ entry ∈ ctx.net.publishedVars inputs, m.inputVarByKey entry.1 ≠ none)
    {w w' : RebuildWork} (h : ctx.RebuildInv inputs m w.frontier.pendingWorkQueue w)
    (hrun : ctx.processBatch w = .ok w') :
    ctx.RebuildInv inputs m [] w' ∧ w'.frontier.pendingWorkQueue = [] ∧
      w'.frontier.requiredPendingIndexes = w.frontier.requiredPendingIndexes := by
  unfold RebuildContext.processBatch at hrun
  obtain ⟨w₁, hbatch, hrun⟩ := bind_ok.mp hrun
  set batch := w.frontier.pendingWorkQueue.filterMap fun i => ctx.pendingTransitions[i]?
    with hbatchdef
  have hmem : ∀ p, p ∈ batch ↔ ∃ i ∈ w.frontier.pendingWorkQueue,
      ctx.pendingTransitions[i]? = some p := fun p => List.mem_filterMap
  have hkeys : ∀ key, key ∈ (batch.flatMap PendingTransition.keys).toFinset ↔
      ∃ p ∈ batch, key ∈ p.keys := by simp
  have hsub (s : Finset SignalKey) :
      s ⊆ s ∪ (batch.flatMap PendingTransition.keys).toFinset :=
    Finset.subset_union_left
  have htaken := h.takeBatch hdistinct (hsub _) (fun key hkey => by
    refine (Finset.mem_union.mp hkey).imp_right fun hnew => ?_
    obtain ⟨p, hp, hpkey⟩ := (hkeys key).mp hnew
    obtain ⟨i, hi, hip⟩ := (hmem p).mp hp
    exact ⟨i, hi, p, hip, hpkey⟩)
  obtain ⟨hbuilt, hsame⟩ := (htaken _).materializeBatch hnet hpublished hbatch
  obtain ⟨hdone, hin⟩ := hbuilt.foldlM_buildPending hdistinct _ (fun i hi p hp key hkey => by
      rw [hsame]
      refine Finset.mem_union_right _ ((hkeys key).mpr ⟨p, (hmem p).mpr ⟨i, hi, hp⟩, hkey⟩))
    (by rw [hsame]) hrun
  rw [hsame] at hin
  exact ⟨hdone, hin.pending, hin.indexes⟩

/-! ## The loop -/

theorem RebuildInv.expand {m : ExtractionModel} {w : RebuildWork}
    (h : ctx.RebuildInv inputs m w.frontier.pendingWorkQueue w) :
    ctx.RebuildInv inputs m (ctx.expand m w).frontier.pendingWorkQueue (ctx.expand m w) ∧
      (ctx.expand m w).frontier.stateDependencyWorkQueue = [] ∧
      (ctx.expand m w).frontier.batchRounds ctx.pendingTransitions =
        w.frontier.batchRounds ctx.pendingTransitions := by
  have hrounds : w.frontier.stateRounds m ≤
      m.stateBits.length + w.frontier.stateDependencyWorkQueue.length := by
    have hcard : (m.stateBits.toFinset \ w.frontier.requiredStateKeys).card ≤
        m.stateBits.length :=
      (Finset.card_le_card Finset.sdiff_subset).trans (List.toFinset_card_le _)
    unfold StateFrontier.stateRounds
    omega
  obtain ⟨hinv, hwiden, hempty⟩ := StateFrontier.expandStates_spec _ h.frontier hrounds
  exact ⟨h.widen hinv hwiden, hempty, hwiden.batchRounds⟩

/-- Both queues run empty: every batch takes a transition for the first time. -/
theorem rebuildLoop_spec (hnet : ctx.net.WellBuilt inputs cells) {m : ExtractionModel}
    (hdistinct : Distinct ctx.pendingTransitions)
    (hpublished : ∀ entry ∈ ctx.net.publishedVars inputs, m.inputVarByKey entry.1 ≠ none)
    (rounds : Nat) {w w' : RebuildWork}
    (h : ctx.RebuildInv inputs m w.frontier.pendingWorkQueue w)
    (hrounds : w.frontier.batchRounds ctx.pendingTransitions + 2 ≤ rounds)
    (hrun : ctx.rebuildLoop m rounds w = .ok w') :
    ctx.RebuildInv inputs m w'.frontier.pendingWorkQueue w' ∧
      w'.frontier.stateDependencyWorkQueue = [] ∧ w'.frontier.pendingWorkQueue = [] := by
  induction rounds generalizing w with
  | zero => omega
  | succ rounds ih =>
    unfold rebuildLoop at hrun
    split at hrun
    · rename_i hempty
      cases hrun
      exact ⟨h, hempty⟩
    · obtain ⟨hinv, hstates, hbatches⟩ := h.expand
      dsimp only at hrun
      split at hrun
      · -- the next round stops at once
        rename_i hpending
        obtain ⟨rounds, rfl⟩ : ∃ n, rounds = n + 1 := ⟨rounds - 1, by omega⟩
        unfold rebuildLoop at hrun
        rw [if_pos ⟨hstates, hpending⟩] at hrun
        cases hrun
        exact ⟨hinv, hstates, hpending⟩
      · rename_i hpending
        obtain ⟨w₁, hbatch, hrun⟩ := bind_ok.mp hrun
        obtain ⟨hdone, hempty, hindexes⟩ := hinv.processBatch hnet hdistinct hpublished hbatch
        refine ih (hempty.symm ▸ hdone) ?_ hrun
        have hlength : 0 < (ctx.expand m w).frontier.pendingWorkQueue.length :=
          List.length_pos_iff.mpr hpending
        unfold StateFrontier.batchRounds at hbatches hrounds ⊢
        rw [hempty, hindexes, List.length_nil]
        omega

/-! ## The start -/

theorem foldl_enqueueKey_spec {m : ExtractionModel} {next : KeyMap BoolExpr}
    {keys : List SignalKey} (hkeys : ∀ key ∈ keys, key ∈ m.stateBits) {f : StateFrontier}
    (h : StateFrontier.FrontierInv m ctx.pendingTransitions next f) :
    StateFrontier.FrontierInv m ctx.pendingTransitions next
        (keys.foldl (fun f key => f.enqueueRequiredStateKey ctx.pendingTransitions key) f) ∧
      StateFrontier.Grows m ctx.pendingTransitions f
        (keys.foldl (fun f key => f.enqueueRequiredStateKey ctx.pendingTransitions key) f) := by
  induction keys generalizing f with
  | nil => exact ⟨h, .refl f⟩
  | cons key keys ih =>
    obtain ⟨hinv, hgrow⟩ := h.enqueueKey (hkeys key (List.mem_cons_self ..))
    obtain ⟨hinv', hgrow'⟩ := ih (fun k hk => hkeys k (List.mem_cons_of_mem _ hk)) hinv
    exact ⟨hinv', hgrow.trans hgrow'⟩

theorem foldl_walk_spec {m : ExtractionModel} {next : KeyMap BoolExpr} (exprs : List BoolExpr)
    {f : StateFrontier} (h : StateFrontier.FrontierInv m ctx.pendingTransitions next f) :
    StateFrontier.FrontierInv m ctx.pendingTransitions next
        (exprs.foldl (fun f e => f.enqueueStateDependenciesFromFormula m ctx.pendingTransitions e)
          f) ∧
      StateFrontier.Grows m ctx.pendingTransitions f
        (exprs.foldl (fun f e => f.enqueueStateDependenciesFromFormula m ctx.pendingTransitions e)
          f) ∧
      ∀ e ∈ exprs, e ∈ (exprs.foldl (fun f e =>
        f.enqueueStateDependenciesFromFormula m ctx.pendingTransitions e)
          f).scannedDependencyNodes := by
  induction exprs generalizing f with
  | nil => exact ⟨h, .refl f, fun _ he => absurd he List.not_mem_nil⟩
  | cons e exprs ih =>
    obtain ⟨hinv, hgrow, hscanned⟩ := h.walk e
    obtain ⟨hinv', hgrow', hscanned'⟩ := ih hinv
    refine ⟨hinv', hgrow.trans hgrow', fun e' he' => ?_⟩
    rcases List.mem_cons.mp he' with rfl | hmem
    · exact hgrow'.scanned hscanned
    · exact hscanned' e' hmem

theorem frontierInv_empty (m : ExtractionModel) (next : KeyMap BoolExpr) :
    StateFrontier.FrontierInv m ctx.pendingTransitions next {} where
  complete _ h := absurd h (Finset.notMem_empty _)
  states _ h := absurd h (Finset.notMem_empty _)
  expanded _ h := absurd h (Finset.notMem_empty _)
  known _ h := absurd h (Finset.notMem_empty _)
  indexes _ h := absurd h (Finset.notMem_empty _)

variable (ctx) in
theorem initialFrontier_spec (m : ExtractionModel) :
    StateFrontier.FrontierInv m ctx.pendingTransitions m.nextStateExprByStateKey
        (ctx.initialFrontier m) ∧
      StateFrontier.Grows m ctx.pendingTransitions {} (ctx.initialFrontier m) ∧
      ∀ key ∈ ctx.outputOrder, ∀ e, m.observedOutputExprByKey key = some e →
        e ∈ (ctx.initialFrontier m).scannedDependencyNodes := by
  set seeded := if !ctx.hasOpaqueInternalTerminals && m.stateBits.length ≤ 5000 then
    m.stateBits.foldl (fun f key => f.enqueueRequiredStateKey ctx.pendingTransitions key)
      ({} : StateFrontier) else {} with hseeded
  have hstart :
      StateFrontier.FrontierInv m ctx.pendingTransitions m.nextStateExprByStateKey seeded ∧
      StateFrontier.Grows m ctx.pendingTransitions {} seeded := by
    rw [hseeded]
    split
    · exact foldl_enqueueKey_spec (fun _ h => h) (frontierInv_empty m _)
    · exact ⟨frontierInv_empty m _, .refl _⟩
  obtain ⟨hinv, hgrow, hscanned⟩ := foldl_walk_spec
    (ctx.outputOrder.filterMap m.observedOutputExprByKey) hstart.1
  exact ⟨hinv, hstart.2.trans hgrow, fun key hkey e he =>
    hscanned e (List.mem_filterMap.mpr ⟨key, hkey, he⟩)⟩

theorem Started.rebuildInv {w : RebuildWork} (hw : ctx.Started inputs cells w)
    (materialized : Nat → Bool) :
    ctx.RebuildInv inputs w.model (ctx.initialFrontier w.model).pendingWorkQueue
      { ctx.refreshClockCarrierVarIDs w with
        materializedOutputTerms := materialized
        frontier := ctx.initialFrontier w.model } := by
  obtain ⟨hinv, hgrow, hscanned⟩ := initialFrontier_spec ctx w.model
  exact {
    frontier := hinv
    sameInputs := hw.sameInputs
    sameTable := hw.sameTable
    sameBits := rfl
    sameVars := rfl
    sameOutputs := rfl
    outputs := fun key e he => hscanned key (hw.listed key (by simp [he])) e he
    taken := fun i hi => by
      rcases hgrow.newPending i hi with hold | hnew
      · exact absurd hold List.not_mem_nil
      · exact hnew.2
    handled := fun i hi => by
      rcases hgrow.newIndex i hi with hold | hnew
      · exact absurd hold (Finset.notMem_empty _)
      · exact .inl hnew
    fresh := fun i p hp _ key hkey => hw.fresh p (List.mem_of_getElem? hp) key hkey
    sources := fun key hkey => .inl (hw.sources key hkey) }

/-! ## What is retained -/

/-- An exception comes from the builder or from the expressions of a transition. -/
def Throws (ctx : RebuildContext) (message : String) : Prop :=
  ∃ w, (∃ terms, ctx.materializeBatch terms w = .error message) ∨
    ∃ p ∈ ctx.pendingTransitions, ctx.buildPending w p = .error message

/-- What the rebuild retains: the states that outputs and retained states read, with all keys of
their transitions, and no transition is left without an expression or a skip. -/
structure Closed (ctx : RebuildContext) (w : RebuildWork) : Prop where
  drained : w.frontier.stateDependencyWorkQueue = [] ∧ w.frontier.pendingWorkQueue = []
  outputs : ∀ key e state, w.model.observedOutputExprByKey key = some e →
    w.model.ReadsState e state → state ∈ w.frontier.requiredStateKeys
  states : ∀ key ∈ w.frontier.requiredStateKeys, ∀ e state,
    w.model.nextStateExprByStateKey key = some e → w.model.ReadsState e state →
      state ∈ w.frontier.requiredStateKeys
  transitions : ∀ p ∈ ctx.pendingTransitions, ∀ key ∈ p.keys,
    key ∈ w.frontier.requiredStateKeys →
      w.model.nextStateExprByStateKey key ≠ none ∨ w.model.connectivitySkipInfoByKey key ≠ none
  complements : ∀ p ∈ ctx.pendingTransitions, ∀ key ∈ p.keys,
    key ∈ w.frontier.requiredStateKeys → ∀ key' ∈ p.keys, key' ∈ w.frontier.requiredStateKeys

/-- What is left of a model: the states that are not retained are gone with all that was stored
for them, the others have what they had, and no stored expression reads a state that is gone. -/
structure Removed (retained : Finset SignalKey) (m m' : ExtractionModel) : Prop where
  states : ∀ key, key ∈ m'.stateBits ↔ key ∈ m.stateBits ∧ key ∈ retained
  gone : ∀ key ∈ m.stateBits, key ∉ retained → m'.nextStateExprByStateKey key = none ∧
    m'.initialStateValueByKey key = none ∧ m'.clockEventByStateKey key = none ∧
    m'.inputVarByKey key = none
  kept : ∀ key, (key ∈ m.stateBits → key ∈ retained) →
    m'.nextStateExprByStateKey key = m.nextStateExprByStateKey key ∧
    m'.initialStateValueByKey key = m.initialStateValueByKey key ∧
    m'.clockEventByStateKey key = m.clockEventByStateKey key ∧
    m'.inputVarByKey key = m.inputVarByKey key
  outputs : m'.observedOutputExprByKey = m.observedOutputExprByKey
  expressions : ∀ key e state, m'.observedOutputExprByKey key = some e ∨
    m'.nextStateExprByStateKey key = some e → m.ReadsState e state → state ∈ m'.stateBits

theorem mem_required_of_scanned (hnet : ctx.net.WellBuilt inputs cells) {start w : RebuildWork}
    (hstart : ctx.Started inputs cells start) {rest : List Nat}
    (h : ctx.RebuildInv inputs start.model rest w) {e : BoolExpr} {state : SignalKey}
    (he : e ∈ w.frontier.scannedDependencyNodes) (hreads : w.model.ReadsState e state) :
    state ∈ w.frontier.requiredStateKeys := by
  obtain ⟨hstate, v, hvar, hv⟩ := hreads
  rw [h.sameBits] at hstate
  rw [h.sameVars] at hvar
  have hqueued := h.frontier.complete e he v hv
    (ExtractionModel.mem_stateVars.mpr ⟨state, hstate, hvar⟩)
  exact h.frontier.states v hqueued state (hstart.stateKeyOf_eq hnet hstate hvar)

theorem RebuildInv.closed (hnet : ctx.net.WellBuilt inputs cells) {start w : RebuildWork}
    (hstart : ctx.Started inputs cells start)
    (h : ctx.RebuildInv inputs start.model w.frontier.pendingWorkQueue w)
    (hdrained : w.frontier.stateDependencyWorkQueue = [] ∧ w.frontier.pendingWorkQueue = []) :
    ctx.Closed w := by
  have hhandled : ∀ p ∈ ctx.pendingTransitions, ∀ key ∈ p.keys,
      key ∈ w.frontier.requiredStateKeys → Handled w p := by
    intro p hp key hkey hrequired
    obtain ⟨i, hi⟩ := List.mem_iff_getElem?.mp hp
    cases hindex : pendingIndexByStateKey ctx.pendingTransitions key with
    | none =>
      have hnone := List.findIdx?_eq_none_iff.mp hindex p hp
      simp [hkey] at hnone
    | some j =>
      obtain ⟨q, hq, hmem⟩ := mem_keys_of_pendingIndex hindex
      obtain rfl := hstart.distinct i j p q hi hq key hkey hmem
      rcases h.handled i (h.frontier.indexes key hrequired i hindex) with hrest | hdone
      · rw [hdrained.2] at hrest
        cases hrest
      · exact hdone p hi
  refine ⟨hdrained, fun key e state he hreads => ?_, fun key hkey e state he hreads => ?_,
    fun p hp key hkey hrequired => (hhandled p hp key hkey hrequired key hkey).2,
    fun p hp key hkey hrequired key' hkey' => (hhandled p hp key hkey hrequired key' hkey').1⟩
  · rw [h.sameOutputs] at he
    exact mem_required_of_scanned hnet hstart h (h.outputs key e he) hreads
  · rcases h.frontier.known key hkey e he with hexpanded | hqueued
    · obtain ⟨e', he', hscanned⟩ := h.frontier.expanded key hexpanded
      obtain rfl := Option.some.inj (he.symm.trans he')
      exact mem_required_of_scanned hnet hstart h hscanned hreads
    · rw [hdrained.1] at hqueued
      cases hqueued

theorem eraseAll_of_mem {α : Type} {map : KeyMap α} {keys : List SignalKey} {key : SignalKey}
    (hkey : key ∈ keys) : map.eraseAll keys key = none := if_pos hkey

theorem eraseAll_of_notMem {α : Type} {map : KeyMap α} {keys : List SignalKey} {key : SignalKey}
    (hkey : key ∉ keys) : map.eraseAll keys key = map key := if_neg hkey

/-- After the removal no stored expression reads a state that is gone. -/
theorem RebuildInv.removed {start w : RebuildWork}
    (h : ctx.RebuildInv inputs start.model w.frontier.pendingWorkQueue w) (hclosed : ctx.Closed w) :
    Removed w.frontier.requiredStateKeys w.model
      (applyRebuiltTransitionArtifacts w.frontier.requiredStateKeys w.model) := by
  have hpruned : ∀ key, key ∈ w.model.stateBits.filter
      (fun key => key ∉ w.frontier.requiredStateKeys) ↔
        key ∈ w.model.stateBits ∧ key ∉ w.frontier.requiredStateKeys := by simp
  refine ⟨fun key => by simp [applyRebuiltTransitionArtifacts], fun key hkey hout => ?_,
    fun key hin => ?_, rfl, fun key e state hstored hreads => ?_⟩
  · have hmem := (hpruned key).mpr ⟨hkey, hout⟩
    exact ⟨eraseAll_of_mem hmem, eraseAll_of_mem hmem, eraseAll_of_mem hmem, eraseAll_of_mem hmem⟩
  · have hmem := fun hmem => ((hpruned key).mp hmem).2 (hin ((hpruned key).mp hmem).1)
    exact ⟨eraseAll_of_notMem hmem, eraseAll_of_notMem hmem, eraseAll_of_notMem hmem,
      eraseAll_of_notMem hmem⟩
  · refine List.mem_filter.mpr ⟨hreads.1, decide_eq_true ?_⟩
    rcases hstored with hobserved | hnext
    · exact hclosed.outputs key e state hobserved hreads
    · -- an expression that is left belongs to a state that is retained
      have hleft : key ∉ w.model.stateBits.filter
          (fun key => key ∉ w.frontier.requiredStateKeys) := fun hmem => by
        rw [show (applyRebuiltTransitionArtifacts _ _).nextStateExprByStateKey key = none from
          eraseAll_of_mem hmem] at hnext
        cases hnext
      have hold : w.model.nextStateExprByStateKey key = some e :=
        (eraseAll_of_notMem hleft).symm.trans hnext
      have hretained : key ∈ w.frontier.requiredStateKeys := by
        rcases h.sources key (by simp [hold]) with hstate | hrequired
        · by_contra hout
          exact hleft ((hpruned key).mpr ⟨h.sameBits ▸ hstate, hout⟩)
        · exact hrequired
      exact hclosed.states key hretained e state hold hreads

theorem throws_of_foldlM {batch : List PendingTransition}
    (hbatch : ∀ p ∈ batch, p ∈ ctx.pendingTransitions) {w : RebuildWork} {message : String}
    (h : batch.foldlM ctx.buildPending w = .error message) : ctx.Throws message := by
  induction batch generalizing w with
  | nil => cases h
  | cons p batch ih =>
    rw [List.foldlM_cons] at h
    cases hstep : ctx.buildPending w p with
    | error message' =>
      rw [hstep] at h
      cases h
      exact ⟨w, .inr ⟨p, hbatch p (List.mem_cons_self ..), hstep⟩⟩
    | ok w₁ =>
      rw [hstep] at h
      exact ih (fun q hq => hbatch q (List.mem_cons_of_mem _ hq)) h

theorem throws_of_processBatch {w : RebuildWork} {message : String}
    (h : ctx.processBatch w = .error message) : ctx.Throws message := by
  unfold RebuildContext.processBatch at h
  dsimp only at h
  generalize ({ w with
    materializedOutputTerms := _
    frontier := _ } : RebuildWork) = w₁ at h
  generalize BatchTerms.batchOutputTerms _ = terms at h
  cases hbuilt : ctx.materializeBatch terms w₁ with
  | error message' =>
    rw [hbuilt] at h
    cases h
    exact ⟨w₁, .inl ⟨terms, hbuilt⟩⟩
  | ok w₂ =>
    rw [hbuilt] at h
    refine throws_of_foldlM (fun p hp => ?_) h
    obtain ⟨i, -, hi⟩ := List.mem_filterMap.mp hp
    exact List.mem_of_getElem? hi

theorem throws_of_rebuildLoop (m : ExtractionModel) (rounds : Nat) {w : RebuildWork}
    {message : String} (h : ctx.rebuildLoop m rounds w = .error message) : ctx.Throws message := by
  induction rounds generalizing w with
  | zero => cases h
  | succ rounds ih =>
    unfold rebuildLoop at h
    split at h
    · cases h
    · dsimp only at h
      split at h
      · exact ih h
      · cases hbatch : ctx.processBatch (ctx.expand m w) with
        | error message' =>
          rw [hbatch] at h
          cases h
          exact throws_of_processBatch hbatch
        | ok w₁ =>
          rw [hbatch] at h
          exact ih h

/-- A complement relation is left exactly when its primary state is. -/
theorem Closed.relations {w : RebuildWork} (h : ctx.Closed w) :
    retainedRelations w.frontier.requiredStateKeys
        (complementedStateRelations ctx.pendingTransitions) =
      (complementedStateRelations ctx.pendingTransitions).filter fun relation =>
        relation.primaryKey ∈ w.frontier.requiredStateKeys := by
  unfold retainedRelations
  refine List.filter_congr fun relation hrelation => ?_
  obtain ⟨p, hp, hmem⟩ := List.mem_flatMap.mp hrelation
  obtain ⟨key, hkey, rfl⟩ := List.mem_map.mp hmem
  have hboth : p.stateKey ∈ w.frontier.requiredStateKeys → key ∈ w.frontier.requiredStateKeys :=
    fun hprimary => h.complements p hp p.stateKey (List.mem_cons_self ..) hprimary key
      (List.mem_cons_of_mem _ hkey)
  exact decide_eq_decide.mpr ⟨fun h => h.1, fun hprimary => ⟨hprimary, hboth hprimary⟩⟩

/-- The rebuild ends, by an exception of the builder or with a closed set of states; the removal
keeps these states and no stored expression reads another one. -/
theorem rebuild_closed (hnet : ctx.net.WellBuilt inputs cells) {w : RebuildWork}
    (hw : ctx.Started inputs cells w) :
    (∃ message, ctx.rebuildRequiredStateTransitions w = .error message ∧ ctx.Throws message) ∨
    ∃ w', ctx.rebuildRequiredStateTransitions w = .ok w' ∧ ctx.Closed w' ∧
      Removed w'.frontier.requiredStateKeys w'.model
        (applyRebuiltTransitionArtifacts w'.frontier.requiredStateKeys w'.model) ∧
      retainedRelations w'.frontier.requiredStateKeys
          (complementedStateRelations ctx.pendingTransitions) =
        (complementedStateRelations ctx.pendingTransitions).filter fun relation =>
          relation.primaryKey ∈ w'.frontier.requiredStateKeys := by
  cases hrun : ctx.rebuildRequiredStateTransitions w with
  | error message => exact .inl ⟨message, rfl, throws_of_rebuildLoop _ _ hrun⟩
  | ok w' =>
    have hpublished : ∀ entry ∈ ctx.net.publishedVars inputs,
        w.model.inputVarByKey entry.1 ≠ none := by
      intro entry hentry hnone
      rw [hw.numbered] at hnone
      have hne := List.lookup_eq_none_iff.mp hnone entry (List.mem_append_left _ hentry)
      simp at hne
    have hrounds : (ctx.initialFrontier w.model).batchRounds ctx.pendingTransitions =
        ctx.pendingTransitions.length := by
      rw [(initialFrontier_spec ctx w.model).2.1.batchRounds]
      simp [StateFrontier.batchRounds]
    obtain ⟨hinv, hdrained⟩ := rebuildLoop_spec hnet hw.distinct hpublished _
      (hw.rebuildInv _) (by rw [hrounds]) hrun
    have hclosed := hinv.closed hnet hw hdrained
    exact .inr ⟨w', rfl, hclosed, hinv.removed hclosed, hclosed.relations⟩

end RebuildContext

/-! ## Registers that are read and one that is not -/

/-- The clock, the data input, a register with two outputs and two registers with one. -/
def registerInputs : List Nat := [2, 3, 12, 13, 14, 16]

/-- Every terminal has its own key. -/
def registerNet : BuilderNetlist where
  termCount := 18
  constantTable _ := none
  constantIso _ := none
  isConstantInternalOutput _ := false
  inputKeyByTerm t := some ([t], [])
  pos _ _ _ := none

/-- The register of terminal `state` with data on terminal `data`. -/
def registerTransition (state data : Nat) (complemented : List SignalKey) : PendingTransition :=
  { flipFlopTransition (termTable 0) with
    stateKey := ([state], [])
    stateTermID := state
    complementedStateKeys := complemented
    modelTermIDs := fun term => if term = 0 then some 10 else if term = 1 then some data else none
    stateReferences := [⟨some state, false⟩] }

/-- Terminal 13 shows the complement of register 12, which follows register 14. -/
def registerContext : RebuildContext where
  net := registerNet
  pendingTransitions := [registerTransition 12 11 [([13], [])], registerTransition 16 17 [],
    registerTransition 14 15 []]
  hasOpaqueInternalTerminals := true
  outputOrder := [([20], [])]
  nonTopRootsToBuild _ := []
  build _ _ _ := .ok ([(10, .var 2), (11, .var 6), (15, .var 3), (17, .var 4)], [])
  hasBuildableCombinationalRoot _ := false
  clockCarriers _ _ := (fun id => if id = 2 then some ⟨([2], []), .Pos, none⟩ else none, {2})
  termName _ := ""
  terminalText _ := ⟨"", none, "", 0⟩

/-- The output 20 shows the register of terminal 12. -/
def registerWork : RebuildWork where
  model := {
    stateBits := [([12], []), ([13], []), ([14], []), ([16], [])]
    allObservedOutputs := [([20], [])]
    inputVarByKey := fun key => (registerNet.publishedVars registerInputs ++
      registerNet.cellVars registerInputs []).lookup key
    displayNameByKey := fun _ => none
    observedOutputExprByKey := fun key => if key = ([20], []) then some (.var 4) else none
    nextStateExprByStateKey := fun _ => none
    clockEventByStateKey := fun _ => none
    connectivitySkipInfoByKey := fun _ => none }
  extraction := {
    termDNLID2varID := registerNet.initVarNames registerInputs
    outputExprByTerm := fun _ => none
    pureClockCarrierTermIDs := ∅
    clockEventByCarrierVarID := fun _ => none
    session := ⟨∅, []⟩ }
  builderInputs := registerInputs
  skippedOutputsByTerm _ := none
  materializedOutputTerms _ := false

theorem registerNet_wellBuilt : registerNet.WellBuilt registerInputs [] where
  nodup := by decide
  bounded := by decide
  keys t t' key h h' := by
    have hsame := h.trans h'.symm
    simpa [registerNet] using hsame
  cellsNodup := List.nodup_nil
  cellKeys _ _ h := absurd h List.not_mem_nil
  support _ _ _ _ hpos := by cases hpos

theorem registerContext_distinct : RebuildContext.Distinct registerContext.pendingTransitions := by
  have hlist : ∀ i < 3, ∀ j < 3, ∀ key, key ∈ ((registerContext.pendingTransitions.map
      PendingTransition.keys).getD i []) → key ∈ ((registerContext.pendingTransitions.map
      PendingTransition.keys).getD j []) → i = j := by
    decide
  intro i j p q hp hq key hkey hkey'
  have hi := (List.getElem?_eq_some_iff.mp hp).1
  have hj := (List.getElem?_eq_some_iff.mp hq).1
  refine hlist i hi j hj key ?_ ?_
  · rwa [List.getD_eq_getElem?_getD, List.getElem?_map, hp]
  · rwa [List.getD_eq_getElem?_getD, List.getElem?_map, hq]

theorem registerWork_started : registerContext.Started registerInputs [] registerWork where
  sameInputs := rfl
  sameTable := rfl
  numbered _ := rfl
  listed key hkey := by
    by_contra hnot
    refine hkey (if_neg fun h => hnot ?_)
    rw [h]
    exact List.mem_singleton_self _
  sources key hkey := absurd rfl hkey
  fresh _ _ _ _ := rfl
  distinct := registerContext_distinct

theorem registerRebuild :
    ((registerContext.rebuildRequiredStateTransitions registerWork).toOption.map fun w =>
      (applyRebuiltTransitionArtifacts w.frontier.requiredStateKeys w.model).stateBits) =
        some [([12], []), ([13], []), ([14], [])] := by
  decide +kernel

/-- The register that the output shows is retained with its complement, and so is the register
that its next state reads; the third one is removed. -/
theorem rebuild_closed_register : ∃ w',
    registerContext.rebuildRequiredStateTransitions registerWork = .ok w' ∧
      registerContext.Closed w' ∧
      (applyRebuiltTransitionArtifacts w'.frontier.requiredStateKeys w'.model).stateBits =
        [([12], []), ([13], []), ([14], [])] := by
  have hrun := registerRebuild
  rcases RebuildContext.rebuild_closed registerNet_wellBuilt registerWork_started with
    ⟨message, herror, -⟩ | ⟨w', hok, hclosed, -⟩
  · rw [herror] at hrun
    cases hrun
  · rw [hok] at hrun
    exact ⟨w', hok, hclosed, Option.some.inj hrun⟩

end KeplerFormal
