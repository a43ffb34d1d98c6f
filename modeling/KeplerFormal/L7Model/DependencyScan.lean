import KeplerFormal.L1Formula.BoolExpr

/-!
# State variables of an expression (`src/sec/model/SequentialDesignModel.cpp`)

One scratch record serves many roots: a node or variable is marked with the epoch of the
root that met it last, so no mark has to be cleared between two roots.

* `collectCandidateStateDependenciesFromExpr`: the candidate variables of one root.
* `Scratch.Fresh`: every mark is older than the next epoch; `scan_spec` is one node.
* `collect_spec`: from fresh marks a root gives exactly its candidate variables, each once,
  and leaves fresh marks.
-/
namespace KeplerFormal

/-- mirrors src/sec/model/SequentialDesignModel.cpp:977-983 -/
structure CandidateDependencyScratch where
  dependencies : List Nat := []
  visitedEpochByNode : BoolExpr → Nat := fun _ => 0
  emittedEpochByVarID : Nat → Nat := fun _ => 0
  currentEpoch : Nat := 1

namespace CandidateDependencyScratch
variable (isCandidateStateVar : Nat → Bool)

/-- The node carries the epoch's mark. -/
def mark (s : CandidateDependencyScratch) (epoch : Nat) (node : BoolExpr) :
    CandidateDependencyScratch :=
  { s with visitedEpochByNode := Function.update s.visitedEpochByNode node epoch }

/-- A node is entered once in an epoch. -/
def enter (s : CandidateDependencyScratch) (epoch : Nat) (node : BoolExpr)
    (scan : CandidateDependencyScratch → CandidateDependencyScratch) :
    CandidateDependencyScratch :=
  if s.visitedEpochByNode node = epoch then s
  else scan (s.mark epoch node)

/-- A candidate variable is listed once in an epoch. -/
def emit (s : CandidateDependencyScratch) (epoch symbol : Nat) : CandidateDependencyScratch :=
  if 2 ≤ symbol ∧ isCandidateStateVar symbol = true ∧ s.emittedEpochByVarID symbol ≠ epoch then
    { s with
      emittedEpochByVarID := Function.update s.emittedEpochByVarID symbol epoch
      dependencies := s.dependencies ++ [symbol] }
  else s

/-- The source keeps the nodes to enter on a stack, so the right operand comes first.
mirrors src/sec/model/SequentialDesignModel.cpp:1023-1068 -/
def scan (epoch : Nat) : BoolExpr → CandidateDependencyScratch → CandidateDependencyScratch
  | .var id, s => s.enter epoch (.var id) fun s => s.emit isCandidateStateVar epoch id
  | .not a, s => s.enter epoch (.not a) fun s => scan epoch a s
  | .and a b, s => s.enter epoch (.and a b) fun s => scan epoch a (scan epoch b s)
  | .or a b, s => s.enter epoch (.or a b) fun s => scan epoch a (scan epoch b s)
  | .xor a b, s => s.enter epoch (.xor a b) fun s => scan epoch a (scan epoch b s)

/-- The marks are cleared before the counter of 32 bits wraps.
mirrors src/sec/model/SequentialDesignModel.cpp:1004-1021 -/
def beginRoot (s : CandidateDependencyScratch) : CandidateDependencyScratch :=
  if s.currentEpoch = 2 ^ 32 - 1 then { currentEpoch := 2 }
  else { s with dependencies := [], currentEpoch := s.currentEpoch + 1 }

/-- mirrors src/sec/model/SequentialDesignModel.cpp:990-1070 -/
def collectCandidateStateDependenciesFromExpr (expr : BoolExpr) (s : CandidateDependencyScratch) :
    CandidateDependencyScratch :=
  scan isCandidateStateVar (s.beginRoot.currentEpoch - 1) expr s.beginRoot

/-! ## One node -/

/-- Every mark is older than the next epoch. -/
structure Fresh (s : CandidateDependencyScratch) : Prop where
  nodes : ∀ node, s.visitedEpochByNode node < s.currentEpoch
  symbols : ∀ v, s.emittedEpochByVarID v < s.currentEpoch

variable {isCandidateStateVar}

/-- A candidate variable of an expression. -/
def Reads (isCandidateStateVar : Nat → Bool) (expr : BoolExpr) (v : Nat) : Prop :=
  2 ≤ v ∧ isCandidateStateVar v = true ∧ v ∈ expr.getSupportVars

/-- The listed variables are those marked with the epoch. -/
structure Listing (isCandidateStateVar : Nat → Bool) (epoch : Nat)
    (s : CandidateDependencyScratch) : Prop where
  nodup : s.dependencies.Nodup
  marked : ∀ v, v ∈ s.dependencies ↔ s.emittedEpochByVarID v = epoch

/-- Every candidate variable of the node is listed. -/
def Complete (isCandidateStateVar : Nat → Bool) (s : CandidateDependencyScratch)
    (node : BoolExpr) : Prop :=
  ∀ v, Reads isCandidateStateVar node v → v ∈ s.dependencies

/-- What entering a node gives: it is complete, as is every node that was entered with it,
and the variables that were added are read by it. -/
structure Scanned (isCandidateStateVar : Nat → Bool) (epoch : Nat) (node : BoolExpr)
    (s s' : CandidateDependencyScratch) : Prop where
  listing : Listing isCandidateStateVar epoch s'
  complete : Complete isCandidateStateVar s' node
  kept : s.dependencies ⊆ s'.dependencies
  added : ∀ v ∈ s'.dependencies, v ∈ s.dependencies ∨ Reads isCandidateStateVar node v
  entered : ∀ n, s'.visitedEpochByNode n = epoch →
    s.visitedEpochByNode n = epoch ∨ Complete isCandidateStateVar s' n
  nodes : ∀ n, s'.visitedEpochByNode n = s.visitedEpochByNode n ∨ s'.visitedEpochByNode n = epoch
  symbols : ∀ v, s'.emittedEpochByVarID v = s.emittedEpochByVarID v ∨
    s'.emittedEpochByVarID v = epoch
  epoch : s'.currentEpoch = s.currentEpoch

/-- The entered nodes up to a size are complete; the open ones are larger. -/
def CompleteBelow (isCandidateStateVar : Nat → Bool) (epoch size : Nat)
    (s : CandidateDependencyScratch) : Prop :=
  ∀ n, s.visitedEpochByNode n = epoch → sizeOf n ≤ size → Complete isCandidateStateVar s n

theorem Complete.mono {s s' : CandidateDependencyScratch} {node : BoolExpr}
    (h : Complete isCandidateStateVar s node) (hkept : s.dependencies ⊆ s'.dependencies) :
    Complete isCandidateStateVar s' node :=
  fun v hv => hkept (h v hv)

theorem Scanned.completeBelow {epoch size : Nat} {node : BoolExpr}
    {s s' : CandidateDependencyScratch} (h : Scanned isCandidateStateVar epoch node s s')
    (hbelow : CompleteBelow isCandidateStateVar epoch size s) :
    CompleteBelow isCandidateStateVar epoch size s' := by
  intro n hn hsize
  rcases h.entered n hn with hold | hcomplete
  · exact (hbelow n hold hsize).mono h.kept
  · exact hcomplete

/-- One operand after the other. -/
theorem Scanned.trans {epoch : Nat} {a b node : BoolExpr} {s₀ s₁ s₂ : CandidateDependencyScratch}
    (hb : Scanned isCandidateStateVar epoch b s₀ s₁) (ha : Scanned isCandidateStateVar epoch a s₁ s₂)
    (hnode : node.getSupportVars = a.getSupportVars ∪ b.getSupportVars) :
    Scanned isCandidateStateVar epoch node s₀ s₂ where
  listing := ha.listing
  complete v hv := by
    obtain ⟨h2, hcandidate, hread⟩ := hv
    rw [hnode, Finset.mem_union] at hread
    rcases hread with hread | hread
    · exact ha.complete v ⟨h2, hcandidate, hread⟩
    · exact ha.kept (hb.complete v ⟨h2, hcandidate, hread⟩)
  kept := fun v hv => ha.kept (hb.kept hv)
  added v hv := by
    rcases ha.added v hv with hv | ⟨h2, hcandidate, hread⟩
    · rcases hb.added v hv with hv | ⟨h2, hcandidate, hread⟩
      · exact .inl hv
      · exact .inr ⟨h2, hcandidate, by rw [hnode]; exact Finset.mem_union_right _ hread⟩
    · exact .inr ⟨h2, hcandidate, by rw [hnode]; exact Finset.mem_union_left _ hread⟩
  entered n hn := by
    rcases ha.entered n hn with hn | hn
    · exact (hb.entered n hn).imp_right fun h => h.mono ha.kept
    · exact .inr hn
  nodes n := by
    rcases ha.nodes n with h | h
    · rw [h]
      exact hb.nodes n
    · exact .inr h
  symbols v := by
    rcases ha.symbols v with h | h
    · rw [h]
      exact hb.symbols v
    · exact .inr h
  epoch := ha.epoch.trans hb.epoch

theorem mark_self (s : CandidateDependencyScratch) (epoch : Nat) (node : BoolExpr) :
    (s.mark epoch node).visitedEpochByNode node = epoch := Function.update_self ..

theorem mark_of_ne {n node : BoolExpr} (h : n ≠ node) (s : CandidateDependencyScratch)
    (epoch : Nat) : (s.mark epoch node).visitedEpochByNode n = s.visitedEpochByNode n :=
  Function.update_of_ne h ..

/-- A node that was entered before in the epoch is complete; otherwise its operands are
scanned with the node itself open. -/
theorem enter_spec {epoch : Nat} {node : BoolExpr} {s : CandidateDependencyScratch}
    {scanOperands : CandidateDependencyScratch → CandidateDependencyScratch}
    (hlisting : Listing isCandidateStateVar epoch s)
    (hbelow : CompleteBelow isCandidateStateVar epoch (sizeOf node) s)
    (hscan : ∀ s, Listing isCandidateStateVar epoch s →
      CompleteBelow isCandidateStateVar epoch (sizeOf node - 1) s →
      Scanned isCandidateStateVar epoch node s (scanOperands s)) :
    Scanned isCandidateStateVar epoch node s (s.enter epoch node scanOperands) := by
  unfold enter
  split
  · rename_i hvisited
    exact ⟨hlisting, hbelow node hvisited (Nat.le_refl _), List.Subset.refl _, fun v hv => .inl hv,
      fun n hn => .inl hn, fun n => .inl rfl, fun v => .inl rfl, rfl⟩
  · have hpos : 0 < sizeOf node := by cases node <;> simp
    have h := hscan (s.mark epoch node) ⟨hlisting.nodup, hlisting.marked⟩ (by
      intro n hn hsize
      have hne : n ≠ node := by
        intro hsame
        rw [hsame] at hsize
        omega
      rw [mark_of_ne hne] at hn
      exact hbelow n hn (by omega))
    refine ⟨h.listing, h.complete, h.kept, h.added, fun n hn => ?_, fun n => ?_, h.symbols, h.epoch⟩
    · by_cases hsame : n = node
      · rw [hsame]
        exact .inr h.complete
      · rcases h.entered n hn with hold | hcomplete
        · rw [mark_of_ne hsame] at hold
          exact .inl hold
        · exact .inr hcomplete
    · by_cases hsame : n = node
      · rcases h.nodes n with hkept | hmarked
        · rw [hsame, mark_self] at hkept
          exact .inr (by rw [hsame]; exact hkept)
        · exact .inr hmarked
      · have hkept := h.nodes n
        rw [mark_of_ne hsame] at hkept
        exact hkept

theorem emit_spec {epoch id : Nat} {s : CandidateDependencyScratch}
    (hlisting : Listing isCandidateStateVar epoch s) :
    Scanned isCandidateStateVar epoch (.var id) s (s.emit isCandidateStateVar epoch id) := by
  unfold emit
  split
  · rename_i hnew
    obtain ⟨h2, hcandidate, hfresh⟩ := hnew
    have hunlisted : id ∉ s.dependencies := fun hin => hfresh ((hlisting.marked id).mp hin)
    refine ⟨⟨?_, fun v => ?_⟩, fun v hv => ?_, List.subset_append_left _ _, fun v hv => ?_,
      fun n hn => .inl hn, fun n => .inl rfl, fun v => ?_, rfl⟩
    · rw [List.nodup_append]
      refine ⟨hlisting.nodup, by simp, fun x hx y hy => ?_⟩
      rw [List.mem_singleton.mp hy]
      intro hsame
      exact hunlisted (hsame ▸ hx)
    · by_cases hv : v = id
      · simp [hv]
      · simp [hv, Function.update_of_ne hv, hlisting.marked v]
    · rw [Finset.mem_singleton.mp hv.2.2]
      simp
    · rcases List.mem_append.mp hv with hv | hv
      · exact .inl hv
      · rw [List.mem_singleton.mp hv]
        exact .inr ⟨h2, hcandidate, Finset.mem_singleton_self id⟩
    · by_cases hv : v = id
      · rw [hv]
        exact .inr (Function.update_self ..)
      · exact .inl (Function.update_of_ne hv ..)
  · rename_i hold
    refine ⟨hlisting, fun v hv => ?_, List.Subset.refl _, fun v hv => .inl hv, fun n hn => .inl hn,
      fun n => .inl rfl, fun v => .inl rfl, rfl⟩
    obtain ⟨h2, hcandidate, hread⟩ := hv
    rw [Finset.mem_singleton.mp hread] at h2 hcandidate ⊢
    by_contra hout
    exact hold ⟨h2, hcandidate, fun hmark => hout ((hlisting.marked id).mpr hmark)⟩

theorem scan_spec {epoch : Nat} (node : BoolExpr) {s : CandidateDependencyScratch}
    (hlisting : Listing isCandidateStateVar epoch s)
    (hbelow : CompleteBelow isCandidateStateVar epoch (sizeOf node) s) :
    Scanned isCandidateStateVar epoch node s (scan isCandidateStateVar epoch node s) := by
  induction node generalizing s with
  | var id => exact enter_spec hlisting hbelow fun s hs _ => emit_spec hs
  | not a ih =>
    apply enter_spec hlisting hbelow
    intro s hs hsize
    have h := ih hs fun n hn hn' => hsize n hn (by simp; omega)
    exact ⟨h.listing, h.complete, h.kept, h.added, h.entered, h.nodes, h.symbols, h.epoch⟩
  | and a b iha ihb =>
    apply enter_spec hlisting hbelow
    intro s hs hsize
    have hb := ihb hs fun n hn hn' => hsize n hn (by simp; omega)
    have ha := iha hb.listing fun n hn hn' => hb.completeBelow hsize n hn (by simp; omega)
    exact hb.trans ha rfl
  | or a b iha ihb =>
    apply enter_spec hlisting hbelow
    intro s hs hsize
    have hb := ihb hs fun n hn hn' => hsize n hn (by simp; omega)
    have ha := iha hb.listing fun n hn hn' => hb.completeBelow hsize n hn (by simp; omega)
    exact hb.trans ha rfl
  | xor a b iha ihb =>
    apply enter_spec hlisting hbelow
    intro s hs hsize
    have hb := ihb hs fun n hn hn' => hsize n hn (by simp; omega)
    have ha := iha hb.listing fun n hn hn' => hb.completeBelow hsize n hn (by simp; omega)
    exact hb.trans ha rfl

/-! ## One root -/

theorem Fresh.beginRoot {s : CandidateDependencyScratch} (h : s.Fresh) :
    s.beginRoot.dependencies = [] ∧ 2 ≤ s.beginRoot.currentEpoch ∧
      (∀ node, s.beginRoot.visitedEpochByNode node < s.beginRoot.currentEpoch - 1) ∧
      ∀ v, s.beginRoot.emittedEpochByVarID v < s.beginRoot.currentEpoch - 1 := by
  have hpos := h.symbols 0
  unfold CandidateDependencyScratch.beginRoot
  split
  · simp
  · refine ⟨rfl, ?_, fun node => ?_, fun v => ?_⟩
    · show 2 ≤ s.currentEpoch + 1
      omega
    · exact h.nodes node
    · exact h.symbols v

/-- From fresh marks, a root gives its candidate variables, each once, and fresh marks. -/
theorem collect_spec (isCandidateStateVar : Nat → Bool) {s : CandidateDependencyScratch}
    (h : s.Fresh) (expr : BoolExpr) :
    (collectCandidateStateDependenciesFromExpr isCandidateStateVar expr s).Fresh ∧
    (collectCandidateStateDependenciesFromExpr isCandidateStateVar expr s).dependencies.Nodup ∧
    ∀ v, v ∈ (collectCandidateStateDependenciesFromExpr isCandidateStateVar expr s).dependencies ↔
      Reads isCandidateStateVar expr v := by
  obtain ⟨hempty, h2, hnodes, hsymbols⟩ := h.beginRoot
  have hscan : Scanned isCandidateStateVar (s.beginRoot.currentEpoch - 1) expr s.beginRoot
      (scan isCandidateStateVar (s.beginRoot.currentEpoch - 1) expr s.beginRoot) := scan_spec expr
    ⟨by simp [hempty], fun v => by
      have := hsymbols v
      simp [hempty]
      omega⟩
    (fun n hn _ => by
      have := hnodes n
      omega)
  refine ⟨⟨fun n => ?_, fun v => ?_⟩, hscan.listing.nodup, fun v => ⟨fun hv => ?_, hscan.complete v⟩⟩
  · show (scan _ _ _ _).visitedEpochByNode n < (scan _ _ _ _).currentEpoch
    have := hnodes n
    rcases hscan.nodes n with hn | hn <;> rw [hn, hscan.epoch] <;> omega
  · show (scan _ _ _ _).emittedEpochByVarID v < (scan _ _ _ _).currentEpoch
    have := hsymbols v
    rcases hscan.symbols v with hv | hv <;> rw [hv, hscan.epoch] <;> omega
  · rcases hscan.added v hv with hv | hv
    · simp [hempty] at hv
    · exact hv

end CandidateDependencyScratch
end KeplerFormal
