import Mathlib.Data.Finset.Dedup
import KeplerFormal.Core.Subsumption
import KeplerFormal.L4Engine.SelectorCache

/-!
# The clauses of a frame (`src/sec/pdr/PDREngine.cpp`)

A PDR frame keeps its clauses minimal and in a fixed order, and logs the clauses it
accepted. `addClauseToFrame` refuses a clause that a stored one subsumes and drops the
stored clauses that the new one subsumes.

* `FrameInv`: the clauses are sorted, normalized and minimal, they say what all added
  clauses say, and the log is the list of accepted clauses.
* `FrameInv.add`: an addition keeps it.
* `frameClauses_exact`: what holds of the frames after any additions.
-/
namespace KeplerFormal

open Core

/-- mirrors src/sec/pdr/PDREngine.cpp:276-281 -/
def clauseLiteralLess (lhs rhs : ClauseLiteral) : Bool :=
  if lhs.symbol ≠ rhs.symbol then decide (lhs.symbol < rhs.symbol)
  else decide (lhs.positive < rhs.positive)

/-- mirrors src/sec/pdr/PDREngine.cpp:291-297 -/
def stateClauseLess (lhs rhs : StateClause) : Bool :=
  if lhs.length ≠ rhs.length then decide (lhs.length < rhs.length)
  else lexicographicalCompare clauseLiteralLess lhs rhs

/-- mirrors src/sec/pdr/PDREngine.cpp:3151-3160 -/
def normalizeClause (clause : StateClause) : StateClause :=
  (if clause.IsChain (fun a b => clauseLiteralLess b a = false) then clause
    else clause.insertionSort fun a b => !clauseLiteralLess b a).destutter (· ≠ ·)

/-- The fingerprint of a frame is left out.
mirrors src/sec/pdr/PDREngine.cpp:304-317 -/
structure FrameClauses where
  clauses : List StateClause
  addedClauseLog : List StateClause
  deriving DecidableEq

/-- mirrors src/sec/pdr/PDREngine.cpp:3308-3316 -/
def clauseSubsumes (lhs rhs : StateClause) : Bool := includes clauseLiteralLess rhs lhs

/-- The loop over the stored clauses. -/
def hasSubsumingClause : List StateClause → StateClause → Bool
  | [], _ => false
  | existingClause :: rest, clause =>
    if clause.length < existingClause.length then false
    else if clauseSubsumes existingClause clause then true
    else hasSubsumingClause rest clause

/-- mirrors src/sec/pdr/PDREngine.cpp:3318-3331 -/
def frameHasSubsumingClause (frame : FrameClauses) (clause : StateClause) : Bool :=
  hasSubsumingClause frame.clauses clause

/-- The frame, and whether it accepted the clause. `orderedInsert` inserts at the
`lower_bound` position.
mirrors src/sec/pdr/PDREngine.cpp:3334-3359 -/
def addClauseToFrame (frame : FrameClauses) (clause : StateClause) : FrameClauses × Bool :=
  if frameHasSubsumingClause frame (normalizeClause clause) then (frame, false)
  else
    ({ clauses := (frame.clauses.filter fun existingClause =>
          !clauseSubsumes (normalizeClause clause) existingClause).orderedInsert
            (fun a b => !stateClauseLess b a) (normalizeClause clause)
       addedClauseLog := frame.addedClauseLog ++ [normalizeClause clause] }, true)

/-- mirrors src/sec/pdr/PDREngine.cpp:7003-7023 -/
def framesConverged (lhs rhs : FrameClauses) : Bool :=
  if lhs.clauses.length ≠ rhs.clauses.length then false
  else if lhs.clauses.any fun clause => !frameHasSubsumingClause rhs clause then false
  else !rhs.clauses.any fun clause => !frameHasSubsumingClause lhs clause

/-- One addition; the second component lists the clauses accepted so far. -/
def addAndRecord (s : FrameClauses × List StateClause) (clause : StateClause) :
    FrameClauses × List StateClause :=
  ((addClauseToFrame s.1 clause).1,
    if (addClauseToFrame s.1 clause).2 then s.2 ++ [normalizeClause clause] else s.2)

/-- Additions to an empty frame. -/
def addAll (clauses : List StateClause) : FrameClauses × List StateClause :=
  clauses.foldl addAndRecord ({ clauses := [], addedClauseLog := [] }, [])

def ClauseHolds (σ : Nat → Bool) (clause : StateClause) : Prop :=
  ∃ literal ∈ clause, σ literal.symbol = literal.positive

/-! ## Orders and subsumption -/

theorem clauseLiteralLess_strictTotal : StrictTotal clauseLiteralLess where
  irrefl a := by simp [clauseLiteralLess]
  trans {a b c} hab hbc := by
    unfold clauseLiteralLess at hab hbc ⊢
    split at hab <;> split at hbc <;> split <;> simp only [decide_eq_true_eq] at hab hbc ⊢
    · omega
    · omega
    · omega
    · omega
    · omega
    · omega
    · omega
    · exact lt_trans hab hbc
  total {a b} hab hba := by
    obtain ⟨sa, pa⟩ := a
    obtain ⟨sb, pb⟩ := b
    unfold clauseLiteralLess at hab hba
    by_cases hs : sa = sb
    · subst hs
      cases pa <;> cases pb <;> simp_all
    · rw [if_pos hs] at hab
      rw [if_pos (Ne.symm hs)] at hba
      simp only [decide_eq_false_iff_not] at hab hba
      omega

theorem stateClauseLess_strictTotal : StrictTotal stateClauseLess :=
  clauseLiteralLess_strictTotal.sizeFirst

theorem length_le_of_stateClauseLess {c d : StateClause} (h : stateClauseLess c d = true) :
    c.length ≤ d.length := by
  unfold stateClauseLess at h
  split at h
  · exact (of_decide_eq_true h).le
  · next heq => exact (not_not.1 heq).le

/-- Strictly sorted, as `normalizeClause` leaves it. -/
def Normalized (clause : StateClause) : Prop :=
  clause.Pairwise fun a b => clauseLiteralLess a b = true

theorem normalized_normalizeClause (clause : StateClause) : Normalized (normalizeClause clause) := by
  have htrans : IsTrans ClauseLiteral fun a b => clauseLiteralLess b a = false := by
    refine ⟨fun a b c hba hcb => ?_⟩
    by_contra hca
    have hca : clauseLiteralLess c a = true := Bool.not_eq_false _ ▸ hca
    by_cases hne : a = b
    · subst hne
      rw [hcb] at hca
      cases hca
    · have hab := clauseLiteralLess_strictTotal.of_ne hne hba
      rw [clauseLiteralLess_strictTotal.trans hca hab] at hcb
      cases hcb
  apply sorted_destutter clauseLiteralLess_strictTotal
  split
  · next hsorted => exact hsorted.pairwise
  · exact sorted_insertionSort clauseLiteralLess_strictTotal clause

theorem mem_normalizeClause {clause : StateClause} {literal : ClauseLiteral} :
    literal ∈ normalizeClause clause ↔ literal ∈ clause := by
  rw [normalizeClause, mem_destutter]
  split
  · rfl
  · exact List.mem_insertionSort _

theorem clauseSubsumes_iff {c d : StateClause} (hc : Normalized c) (hd : Normalized d) :
    clauseSubsumes c d = true ↔ ∀ literal ∈ c, literal ∈ d :=
  includes_iff clauseLiteralLess_strictTotal hd hc

/-- The search may stop at the first clause that is larger than the argument. -/
theorem hasSubsumingClause_iff {clauses : List StateClause}
    (hsorted : clauses.Pairwise fun c d => stateClauseLess c d = true) (clause : StateClause) :
    hasSubsumingClause clauses clause = true ↔ ∃ d ∈ clauses, clauseSubsumes d clause = true := by
  induction clauses with
  | nil => simp [hasSubsumingClause]
  | cons d clauses ih =>
    have hd := List.pairwise_cons.1 hsorted
    unfold hasSubsumingClause
    split
    · next hlarger =>
      refine iff_of_false (by simp) ?_
      rintro ⟨e, he, hsub⟩
      have hle : e.length ≤ clause.length := length_le_of_includes hsub
      rcases List.mem_cons.1 he with rfl | he
      · omega
      · have hde := length_le_of_stateClauseLess (hd.1 e he)
        omega
    · split
      · next hsub => exact iff_of_true rfl ⟨d, List.mem_cons_self, hsub⟩
      · next hsub =>
        rw [ih hd.2]
        constructor
        · rintro ⟨e, he, h⟩
          exact ⟨e, List.mem_cons_of_mem _ he, h⟩
        · rintro ⟨e, he, h⟩
          rcases List.mem_cons.1 he with rfl | he
          · exact absurd h hsub
          · exact ⟨e, he, h⟩

/-! ## Frames as families of sets -/

/-- The clauses as sets of literals. -/
def family (clauses : List StateClause) : Set (Finset ClauseLiteral) :=
  {s | ∃ c ∈ clauses, c.toFinset = s}

theorem mem_family {clauses : List StateClause} {c : StateClause} (hc : c ∈ clauses) :
    c.toFinset ∈ family clauses := ⟨c, hc, rfl⟩

@[simp] theorem family_nil : family [] = ∅ := by
  ext s
  simp [family]

theorem family_concat (clauses : List StateClause) (c : StateClause) :
    family (clauses ++ [c]) = insert c.toFinset (family clauses) := by
  ext s
  simp only [family, Set.mem_ofPred_eq, Set.mem_insert_iff, List.mem_append, List.mem_singleton]
  constructor
  · rintro ⟨d, hd | rfl, rfl⟩
    · exact Or.inr ⟨d, hd, rfl⟩
    · exact Or.inl rfl
  · rintro (rfl | ⟨d, hd, rfl⟩)
    · exact ⟨c, Or.inr rfl, rfl⟩
    · exact ⟨d, Or.inl hd, rfl⟩

theorem toFinset_normalizeClause (clause : StateClause) :
    (normalizeClause clause).toFinset = clause.toFinset := by
  ext literal
  rw [List.mem_toFinset, List.mem_toFinset, mem_normalizeClause]

theorem subset_iff_subsumes {c d : StateClause} (hc : Normalized c) (hd : Normalized d) :
    c.toFinset ≤ d.toFinset ↔ clauseSubsumes c d = true := by
  rw [clauseSubsumes_iff hc hd, Finset.le_iff_subset, Finset.subset_iff]
  simp only [List.mem_toFinset]

theorem eq_of_toFinset {c d : StateClause} (hc : Normalized c) (hd : Normalized d)
    (h : c.toFinset = d.toFinset) : c = d :=
  eq_of_sorted clauseLiteralLess_strictTotal hc hd fun literal => by
    rw [← List.mem_toFinset, h, List.mem_toFinset]

/-- The clauses hold exactly when everything above their family does. -/
theorem holds_iff_upperClosure (σ : Nat → Bool) (clauses : List StateClause) :
    (∀ c ∈ clauses, ClauseHolds σ c)
      ↔ ∀ s ∈ upperClosure (family clauses), ∃ literal ∈ s, σ literal.symbol = literal.positive := by
  have hmono : ∀ a b : Finset ClauseLiteral, a ≤ b →
      (∃ literal ∈ a, σ literal.symbol = literal.positive) →
      ∃ literal ∈ b, σ literal.symbol = literal.positive :=
    fun a b hab ⟨literal, hl, hv⟩ => ⟨literal, hab hl, hv⟩
  rw [forall_upperClosure hmono]
  constructor
  · rintro h s ⟨c, hc, rfl⟩
    obtain ⟨literal, hl, hv⟩ := h c hc
    exact ⟨literal, List.mem_toFinset.2 hl, hv⟩
  · intro h c hc
    obtain ⟨literal, hl, hv⟩ := h _ (mem_family hc)
    exact ⟨literal, List.mem_toFinset.1 hl, hv⟩

/-! ## The invariant -/

/-- A frame after the additions `added`, of which `accepted` were accepted. -/
structure FrameInv (frame : FrameClauses) (accepted added : List StateClause) : Prop where
  normalized : ∀ c ∈ frame.clauses, Normalized c
  sorted : frame.clauses.Pairwise fun c d => stateClauseLess c d = true
  antichain : IsAntichain (· ≤ ·) (family frame.clauses)
  closure : upperClosure (family frame.clauses) = upperClosure (family added)
  log : frame.addedClauseLog = accepted
  once : accepted.Nodup
  covered : ∀ c ∈ accepted, Normalized c ∧ ∃ d ∈ frame.clauses, clauseSubsumes d c = true

variable {frame : FrameClauses} {accepted added : List StateClause}

theorem FrameInv.subsuming_iff (h : FrameInv frame accepted added) (clause : StateClause) :
    frameHasSubsumingClause frame clause = true
      ↔ ∃ d ∈ frame.clauses, clauseSubsumes d clause = true :=
  hasSubsumingClause_iff h.sorted clause

/-- For a normalized clause the search asks whether the family has a set below it. -/
theorem FrameInv.subsuming_iff_family (h : FrameInv frame accepted added) {clause : StateClause}
    (hc : Normalized clause) :
    frameHasSubsumingClause frame clause = true
      ↔ ∃ s ∈ family frame.clauses, s ≤ clause.toFinset := by
  rw [h.subsuming_iff]
  constructor
  · rintro ⟨d, hd, hsub⟩
    exact ⟨_, mem_family hd, (subset_iff_subsumes (h.normalized d hd) hc).2 hsub⟩
  · rintro ⟨s, ⟨d, hd, rfl⟩, hle⟩
    exact ⟨d, hd, (subset_iff_subsumes (h.normalized d hd) hc).1 hle⟩

theorem mem_inserted {clause e : StateClause} :
    e ∈ (frame.clauses.filter fun d => !clauseSubsumes clause d).orderedInsert
        (fun a b => !stateClauseLess b a) clause
      ↔ e = clause ∨ e ∈ frame.clauses ∧ clauseSubsumes clause e = false := by
  rw [(List.perm_orderedInsert _ clause _).mem_iff, List.mem_cons, List.mem_filter,
    Bool.not_eq_true']

theorem FrameInv.family_inserted (h : FrameInv frame accepted added) {clause : StateClause}
    (hc : Normalized clause) :
    family ((frame.clauses.filter fun d => !clauseSubsumes clause d).orderedInsert
        (fun a b => !stateClauseLess b a) clause)
      = insert clause.toFinset {s ∈ family frame.clauses | ¬ clause.toFinset ≤ s} := by
  ext s
  constructor
  · rintro ⟨e, he, rfl⟩
    rcases mem_inserted.1 he with rfl | ⟨he, hsub⟩
    · exact Or.inl rfl
    · refine Or.inr ⟨mem_family he, ?_⟩
      rw [subset_iff_subsumes hc (h.normalized e he), hsub]
      exact Bool.false_ne_true
  · rintro (rfl | ⟨⟨e, he, rfl⟩, hle⟩)
    · exact mem_family (mem_inserted.2 (Or.inl rfl))
    · rw [subset_iff_subsumes hc (h.normalized e he)] at hle
      exact mem_family (mem_inserted.2 (Or.inr ⟨he, Bool.not_eq_true _ ▸ hle⟩))

theorem FrameInv.refused (h : FrameInv frame accepted added) {clause : StateClause}
    (hsub : frameHasSubsumingClause frame (normalizeClause clause) = true) :
    FrameInv frame accepted (added ++ [clause]) := by
  have hbelow := (h.subsuming_iff_family (normalized_normalizeClause clause)).1 hsub
  rw [toFinset_normalizeClause] at hbelow
  refine { h with closure := ?_ }
  have hcovered : upperClosure (insert clause.toFinset (family added))
      = upperClosure (family added) := by
    obtain ⟨s, hs, hle⟩ := hbelow
    have hmem : s ∈ upperClosure (family added) := h.closure ▸ subset_upperClosure hs
    obtain ⟨t, ht, hts⟩ := mem_upperClosure.1 hmem
    exact upperClosure_covered ⟨t, ht, hts.trans hle⟩
  rw [family_concat, hcovered, h.closure]

theorem FrameInv.accepts (h : FrameInv frame accepted added) {clause : StateClause}
    (hsub : ¬ frameHasSubsumingClause frame (normalizeClause clause) = true) :
    FrameInv
      { clauses := (frame.clauses.filter fun d =>
          !clauseSubsumes (normalizeClause clause) d).orderedInsert
            (fun a b => !stateClauseLess b a) (normalizeClause clause)
        addedClauseLog := frame.addedClauseLog ++ [normalizeClause clause] }
      (accepted ++ [normalizeClause clause]) (added ++ [clause]) := by
  have hc := normalized_normalizeClause clause
  have hself : ∀ {c : StateClause}, Normalized c → clauseSubsumes c c = true :=
    fun hc => (clauseSubsumes_iff hc hc).2 fun _ hl => hl
  have habove : ∀ s ∈ family frame.clauses, ¬ s ≤ (normalizeClause clause).toFinset :=
    fun s hs hle => hsub ((h.subsuming_iff_family hc).2 ⟨s, hs, hle⟩)
  have hnew : normalizeClause clause ∉ frame.clauses :=
    fun hm => habove _ (mem_family hm) le_rfl
  refine ⟨?_, ?_, ?_, ?_, ?_, ?_, ?_⟩
  · intro e he
    rcases mem_inserted.1 he with rfl | ⟨he, -⟩
    · exact hc
    · exact h.normalized e he
  · apply sorted_orderedInsert stateClauseLess_strictTotal (h.sorted.filter _)
    exact fun hm => hnew (List.mem_filter.1 hm).1
  · rw [h.family_inserted hc]
    exact isAntichain_insert h.antichain habove
  · rw [h.family_inserted hc, upperClosure_insert, family_concat, toFinset_normalizeClause]
    ext s
    have hs : s ∈ upperClosure (family frame.clauses) ↔ s ∈ upperClosure (family added) := by
      rw [h.closure]
    simp only [SetLike.mem_coe, mem_upperClosure, Set.mem_insert_iff, exists_eq_or_imp] at hs ⊢
    rw [hs]
  · rw [h.log]
  · rw [List.nodup_append]
    refine ⟨h.once, List.nodup_singleton _, ?_⟩
    rintro c hold d hd rfl
    rw [List.mem_singleton] at hd
    subst hd
    exact hsub ((h.subsuming_iff _).2 (h.covered _ hold).2)
  · intro c hold
    rcases List.mem_append.1 hold with hold | hold
    · obtain ⟨hcn, d, hd, hdc⟩ := h.covered c hold
      refine ⟨hcn, ?_⟩
      by_cases hdrop : clauseSubsumes (normalizeClause clause) d = true
      · have hdn := h.normalized d hd
        refine ⟨_, mem_inserted.2 (Or.inl rfl), (clauseSubsumes_iff hc hcn).2 fun l hl => ?_⟩
        exact (clauseSubsumes_iff hdn hcn).1 hdc l ((clauseSubsumes_iff hc hdn).1 hdrop l hl)
      · exact ⟨d, mem_inserted.2 (Or.inr ⟨hd, Bool.not_eq_true _ ▸ hdrop⟩), hdc⟩
    · rw [List.mem_singleton] at hold
      subst hold
      exact ⟨hc, _, mem_inserted.2 (Or.inl rfl), hself hc⟩

/-- An addition keeps the invariant. -/
theorem FrameInv.add (h : FrameInv frame accepted added) (clause : StateClause) :
    FrameInv (addAndRecord (frame, accepted) clause).1 (addAndRecord (frame, accepted) clause).2
      (added ++ [clause]) := by
  unfold addAndRecord addClauseToFrame
  dsimp only
  by_cases hsub : frameHasSubsumingClause frame (normalizeClause clause) = true
  · rw [if_pos hsub]
    exact h.refused hsub
  · rw [if_neg hsub]
    exact h.accepts hsub

theorem addAll_inv (clauses : List StateClause) :
    FrameInv (addAll clauses).1 (addAll clauses).2 clauses := by
  have hstart : FrameInv { clauses := [], addedClauseLog := [] } [] [] :=
    ⟨by simp, List.Pairwise.nil, by simp, rfl, rfl, List.nodup_nil, by simp⟩
  have hrun : ∀ (clauses : List StateClause) (s : FrameClauses × List StateClause)
      (added : List StateClause), FrameInv s.1 s.2 added →
      FrameInv (clauses.foldl addAndRecord s).1 (clauses.foldl addAndRecord s).2
        (added ++ clauses) := by
    intro clauses
    induction clauses with
    | nil =>
      intro s added h
      rw [List.append_nil]
      exact h
    | cons clause clauses ih =>
      intro s added h
      rw [List.append_cons]
      exact ih _ _ (h.add clause)
  exact hrun clauses _ [] hstart

/-! ## What holds after any additions -/

/-- The two frames agree on what lies above their clauses exactly when they are equal. -/
theorem FrameInv.converged_iff (h : FrameInv frame accepted added) {frame' : FrameClauses}
    {accepted' added' : List StateClause} (h' : FrameInv frame' accepted' added') :
    framesConverged frame frame' = true ↔ frame.clauses = frame'.clauses := by
  have hself : ∀ {f : FrameClauses} {a b : List StateClause}, FrameInv f a b →
      ∀ c ∈ f.clauses, frameHasSubsumingClause f c = true := fun hf c hc =>
    (hf.subsuming_iff c).2
      ⟨c, hc, (clauseSubsumes_iff (hf.normalized c hc) (hf.normalized c hc)).2 fun _ hl => hl⟩
  constructor
  · intro hconv
    unfold framesConverged at hconv
    split at hconv
    · cases hconv
    · split at hconv
      · cases hconv
      · next hleft =>
        have hleft : ∀ c ∈ frame.clauses, frameHasSubsumingClause frame' c = true := by
          simpa using hleft
        have hright : ∀ c ∈ frame'.clauses, frameHasSubsumingClause frame c = true := by
          simpa using hconv
        have hfamilies : family frame.clauses = family frame'.clauses := by
          apply antichain_eq_of_covers h.antichain h'.antichain
          · rintro s ⟨c, hc, rfl⟩
            exact (h'.subsuming_iff_family (h.normalized c hc)).1 (hleft c hc)
          · rintro s ⟨c, hc, rfl⟩
            exact (h.subsuming_iff_family (h'.normalized c hc)).1 (hright c hc)
        apply eq_of_sorted stateClauseLess_strictTotal h.sorted h'.sorted
        intro c
        constructor
        · intro hc
          have hm : c.toFinset ∈ family frame'.clauses := hfamilies ▸ mem_family hc
          obtain ⟨d, hd, heq⟩ := hm
          rw [← eq_of_toFinset (h'.normalized d hd) (h.normalized c hc) heq]
          exact hd
        · intro hc
          have hm : c.toFinset ∈ family frame.clauses := hfamilies ▸ mem_family hc
          obtain ⟨d, hd, heq⟩ := hm
          rw [← eq_of_toFinset (h.normalized d hd) (h'.normalized c hc) heq]
          exact hd
  · intro heq
    have hall : ∀ c ∈ frame.clauses, frameHasSubsumingClause frame c = true := hself h
    have hsame : ∀ c, frameHasSubsumingClause frame' c = frameHasSubsumingClause frame c := by
      intro c
      rw [frameHasSubsumingClause, frameHasSubsumingClause, heq]
    have hnone : ¬ (frame.clauses.any fun c => !frameHasSubsumingClause frame c) = true := by
      simpa using hall
    unfold framesConverged
    rw [if_neg (not_not.2 (congrArg List.length heq)), ← heq]
    simp only [hsame]
    rw [if_neg hnone]
    simpa using hall

/-- What the claims about frames come to, for a frame after the additions `added`. -/
structure FrameExact (frame : FrameClauses) (accepted added : List StateClause) : Prop where
  sorted : frame.clauses.Pairwise fun c d => stateClauseLess c d = true
  minimal : frame.clauses.Pairwise fun c d => clauseSubsumes c d = false ∧ clauseSubsumes d c = false
  subsumes : ∀ c ∈ frame.clauses, ∀ clause,
    clauseSubsumes c (normalizeClause clause) = true ↔ ∀ literal ∈ c, literal ∈ clause
  conjunction : ∀ σ, (∀ c ∈ frame.clauses, ClauseHolds σ c) ↔ ∀ c ∈ added, ClauseHolds σ c
  log : frame.addedClauseLog = accepted
  once : accepted.Nodup
  search : ∀ clause, frameHasSubsumingClause frame clause = true
    ↔ ∃ c ∈ frame.clauses, clauseSubsumes c clause = true

theorem FrameInv.exact (h : FrameInv frame accepted added) : FrameExact frame accepted added := by
  refine ⟨h.sorted, ?_, ?_, ?_, h.log, h.once, h.subsuming_iff⟩
  · refine h.sorted.imp_of_mem fun {c d} hc hd hlt => ?_
    have hne : c ≠ d := by
      rintro rfl
      rw [stateClauseLess_strictTotal.irrefl] at hlt
      cases hlt
    have happart : ∀ {c d : StateClause}, c ∈ frame.clauses → d ∈ frame.clauses → c ≠ d →
        clauseSubsumes c d = false := by
      intro c d hc hd hne
      rw [← Bool.not_eq_true, ← subset_iff_subsumes (h.normalized c hc) (h.normalized d hd)]
      intro hle
      exact hne (eq_of_toFinset (h.normalized c hc) (h.normalized d hd)
        (h.antichain.eq (mem_family hc) (mem_family hd) hle))
    exact ⟨happart hc hd hne, happart hd hc (Ne.symm hne)⟩
  · intro c hc clause
    rw [clauseSubsumes_iff (h.normalized c hc) (normalized_normalizeClause clause)]
    simp only [mem_normalizeClause]
  · intro σ
    rw [holds_iff_upperClosure, h.closure, ← holds_iff_upperClosure]

/-- After any additions the frame is sorted and minimal and says what all added clauses say,
the log lists the accepted clauses once and in order, the search with its early exit finds
a subsuming clause whenever there is one, and two frames converge when they are equal. -/
theorem frameClauses_exact (added added' : List StateClause) :
    FrameExact (addAll added).1 (addAll added).2 added ∧
      (framesConverged (addAll added).1 (addAll added').1 = true
        ↔ (addAll added).1.clauses = (addAll added').1.clauses) :=
  ⟨(addAll_inv added).exact, (addAll_inv added).converged_iff (addAll_inv added')⟩

end KeplerFormal
