import KeplerFormal.Core.Memo
import KeplerFormal.Core.Runs
import KeplerFormal.L1Formula.Substitution

/-!
# Removing clock carriers from an update (`src/sec/model/SequentialDesignModel.cpp`)

A clock carrier is the implicit trigger of a step, so extraction removes the carrier
variables that reached an update through its clock pin.

* `stripClockCarrierFromClockEnable`: a carrier reads true, and so does a carrier directly
  under a negation; the table of rewritten nodes outlives the call.
* `CarrierSession`: the carriers and that table over any sequence of calls, the table being
  cleared when carriers are added.
* `sessions_inductive`: every entry of the table is what the rewriting gives for the
  carriers of that moment.
* `stripUpdate_reads`: an update after any sequence of calls
  mentions no carrier and is the update with every occurrence of a carrier, plain or
  directly negated, reading true.
-/
namespace KeplerFormal

open Core

/-! ## The rewriting -/

section Strip
variable (topClockCarrierVarIDs : Finset Nat)

/-- The operand of a negation that is removed with its polarity. -/
def isCarrierVar : BoolExpr → Bool
  | .var id => id ∈ topClockCarrierVarIDs
  | _ => false

/-- The left operand is rewritten before the right one.
mirrors src/sec/model/SequentialDesignModel.cpp:1207-1290 -/
def stripClockCarrierFromClockEnable :
    BoolExpr → Memo BoolExpr BoolExpr → BoolExpr × Memo BoolExpr BoolExpr
  | .var id, memo => memo.remember (.var id) fun memo =>
    (if id ∈ topClockCarrierVarIDs then .createTrue else .var id, memo)
  | .not a, memo => memo.remember (.not a) fun memo =>
    -- an inverted clock tree is still the carrier of the cycle
    if isCarrierVar topClockCarrierVarIDs a then (.createTrue, memo)
    else
      let left := stripClockCarrierFromClockEnable a memo
      (BoolExpr.rebuiltNot a left.1, left.2)
  | .and a b, memo => memo.remember (.and a b) fun memo =>
    let left := stripClockCarrierFromClockEnable a memo
    let right := stripClockCarrierFromClockEnable b left.2
    (BoolExpr.rebuilt .and .And a b left.1 right.1, right.2)
  | .or a b, memo => memo.remember (.or a b) fun memo =>
    let left := stripClockCarrierFromClockEnable a memo
    let right := stripClockCarrierFromClockEnable b left.2
    (BoolExpr.rebuilt .or .Or a b left.1 right.1, right.2)
  | .xor a b, memo => memo.remember (.xor a b) fun memo =>
    let left := stripClockCarrierFromClockEnable a memo
    let right := stripClockCarrierFromClockEnable b left.2
    (BoolExpr.rebuilt .xor .Xor a b left.1 right.1, right.2)

/-- mirrors src/sec/model/SequentialDesignModel.cpp:1292-1314 -/
def stripClockCarriersFromSequentialUpdate (update : BoolExpr) (memo : Memo BoolExpr BoolExpr) :
    BoolExpr × Memo BoolExpr BoolExpr :=
  if topClockCarrierVarIDs = ∅ then (update, memo)
  else
    let stripped := stripClockCarrierFromClockEnable topClockCarrierVarIDs update memo
    (BoolExpr.simplifyWhenChanged update stripped.1, stripped.2)

/-- The rewriting without its table. -/
def strippedCarriers : BoolExpr → BoolExpr
  | .var id => if id ∈ topClockCarrierVarIDs then .createTrue else .var id
  | .not a =>
    if isCarrierVar topClockCarrierVarIDs a then .createTrue
    else BoolExpr.rebuiltNot a (strippedCarriers a)
  | .and a b => BoolExpr.rebuilt .and .And a b (strippedCarriers a) (strippedCarriers b)
  | .or a b => BoolExpr.rebuilt .or .Or a b (strippedCarriers a) (strippedCarriers b)
  | .xor a b => BoolExpr.rebuilt .xor .Xor a b (strippedCarriers a) (strippedCarriers b)

/-- The value of an expression in which every carrier, plain or directly negated, reads true. -/
def readsTrue (σ : Valuation) : BoolExpr → Bool
  | .var id => if id ∈ topClockCarrierVarIDs then true else (BoolExpr.var id).eval σ
  | .not a => if isCarrierVar topClockCarrierVarIDs a then true else !readsTrue σ a
  | .and a b => readsTrue σ a && readsTrue σ b
  | .or a b => readsTrue σ a || readsTrue σ b
  | .xor a b => readsTrue σ a ^^ readsTrue σ b

end Strip

variable {topClockCarrierVarIDs : Finset Nat}

/-- A table that is right before the call is right after it. -/
theorem stripClockCarrierFromClockEnable_computes (root : BoolExpr)
    {memo : Memo BoolExpr BoolExpr} (hmemo : memo.Valid (strippedCarriers topClockCarrierVarIDs)) :
    Memo.Computes (strippedCarriers topClockCarrierVarIDs) root
      (stripClockCarrierFromClockEnable topClockCarrierVarIDs root memo) := by
  induction root generalizing memo with
  | var id => exact hmemo.remember ⟨rfl, hmemo⟩
  | not a ih =>
    apply hmemo.remember
    dsimp only
    split
    · rename_i hcarrier
      refine ⟨?_, hmemo⟩
      rw [strippedCarriers, if_pos hcarrier]
    · rename_i hdata
      obtain ⟨hleft, hmemo'⟩ := ih hmemo
      refine ⟨?_, hmemo'⟩
      rw [strippedCarriers, if_neg hdata, hleft]
  | and a b iha ihb =>
    apply hmemo.remember
    obtain ⟨hleft, hmemo₁⟩ := iha hmemo
    obtain ⟨hright, hmemo₂⟩ := ihb hmemo₁
    refine ⟨?_, hmemo₂⟩
    simp [strippedCarriers, hleft, hright]
  | or a b iha ihb =>
    apply hmemo.remember
    obtain ⟨hleft, hmemo₁⟩ := iha hmemo
    obtain ⟨hright, hmemo₂⟩ := ihb hmemo₁
    refine ⟨?_, hmemo₂⟩
    simp [strippedCarriers, hleft, hright]
  | xor a b iha ihb =>
    apply hmemo.remember
    obtain ⟨hleft, hmemo₁⟩ := iha hmemo
    obtain ⟨hright, hmemo₂⟩ := ihb hmemo₁
    refine ⟨?_, hmemo₂⟩
    simp [strippedCarriers, hleft, hright]

theorem eval_strippedCarriers (σ : Valuation) (root : BoolExpr) :
    (strippedCarriers topClockCarrierVarIDs root).eval σ =
      readsTrue topClockCarrierVarIDs σ root := by
  induction root with
  | var id =>
    unfold strippedCarriers readsTrue
    split <;> rfl
  | not a ih =>
    unfold strippedCarriers readsTrue
    split
    · rfl
    · rw [BoolExpr.eval_rebuiltNot, ih]
  | and a b iha ihb => simp [strippedCarriers, readsTrue, iha, ihb]
  | or a b iha ihb => simp [strippedCarriers, readsTrue, iha, ihb]
  | xor a b iha ihb => simp [strippedCarriers, readsTrue, iha, ihb]

/-- What is left is data of the expression. -/
theorem mem_support_strippedCarriers {root : BoolExpr} {s : Nat}
    (hs : s ∈ (strippedCarriers topClockCarrierVarIDs root).getSupportVars) (h2 : 2 ≤ s) :
    s ∈ root.getSupportVars ∧ s ∉ topClockCarrierVarIDs := by
  induction root with
  | var id =>
    unfold strippedCarriers at hs
    split at hs
    · simp [BoolExpr.createTrue, BoolExpr.getSupportVars] at hs
      omega
    · rename_i hid
      refine ⟨hs, ?_⟩
      rw [Finset.mem_singleton.mp hs]
      exact hid
  | not a ih =>
    unfold strippedCarriers at hs
    split at hs
    · simp [BoolExpr.createTrue, BoolExpr.getSupportVars] at hs
      omega
    · exact ih (BoolExpr.mem_support_rebuiltNot hs h2)
  | and a b iha ihb =>
    rcases BoolExpr.mem_support_rebuilt_and hs h2 with h | h
    · exact ⟨Finset.mem_union_left _ (iha h).1, (iha h).2⟩
    · exact ⟨Finset.mem_union_right _ (ihb h).1, (ihb h).2⟩
  | or a b iha ihb =>
    rcases BoolExpr.mem_support_rebuilt_or hs h2 with h | h
    · exact ⟨Finset.mem_union_left _ (iha h).1, (iha h).2⟩
    · exact ⟨Finset.mem_union_right _ (ihb h).1, (ihb h).2⟩
  | xor a b iha ihb =>
    rcases BoolExpr.mem_support_rebuilt_xor hs h2 with h | h
    · exact ⟨Finset.mem_union_left _ (iha h).1, (iha h).2⟩
    · exact ⟨Finset.mem_union_right _ (ihb h).1, (ihb h).2⟩

/-- An expression without carriers is left alone. -/
theorem strippedCarriers_eq_self {root : BoolExpr}
    (h : ∀ s ∈ root.getSupportVars, s ∉ topClockCarrierVarIDs) :
    strippedCarriers topClockCarrierVarIDs root = root := by
  induction root with
  | var id => exact if_neg (h id (Finset.mem_singleton_self id))
  | not a ih =>
    have hdata : isCarrierVar topClockCarrierVarIDs a = false := by
      cases a with
      | var id => exact decide_eq_false (h id (Finset.mem_singleton_self id))
      | _ => rfl
    simp [strippedCarriers, hdata, BoolExpr.rebuiltNot, ih h]
  | and a b iha ihb =>
    simp [strippedCarriers, BoolExpr.rebuilt, iha fun s hs => h s (Finset.mem_union_left _ hs),
      ihb fun s hs => h s (Finset.mem_union_right _ hs)]
  | or a b iha ihb =>
    simp [strippedCarriers, BoolExpr.rebuilt, iha fun s hs => h s (Finset.mem_union_left _ hs),
      ihb fun s hs => h s (Finset.mem_union_right _ hs)]
  | xor a b iha ihb =>
    simp [strippedCarriers, BoolExpr.rebuilt, iha fun s hs => h s (Finset.mem_union_left _ hs),
      ihb fun s hs => h s (Finset.mem_union_right _ hs)]

theorem stripClockCarriersFromSequentialUpdate_computes (update : BoolExpr)
    {memo : Memo BoolExpr BoolExpr} (hmemo : memo.Valid (strippedCarriers topClockCarrierVarIDs)) :
    (stripClockCarriersFromSequentialUpdate topClockCarrierVarIDs update memo).1 =
        BoolExpr.simplifyWhenChanged update (strippedCarriers topClockCarrierVarIDs update) ∧
      (stripClockCarriersFromSequentialUpdate topClockCarrierVarIDs update memo).2.Valid
        (strippedCarriers topClockCarrierVarIDs) := by
  unfold stripClockCarriersFromSequentialUpdate
  split
  · rename_i hempty
    refine ⟨?_, hmemo⟩
    rw [strippedCarriers_eq_self (by simp [hempty]), BoolExpr.simplifyWhenChanged, if_pos rfl]
  · obtain ⟨hstripped, hmemo'⟩ := stripClockCarrierFromClockEnable_computes update hmemo
    refine ⟨?_, hmemo'⟩
    dsimp only
    rw [hstripped]

/-! ## Sequences of calls -/

/-- The carriers of the extraction and the table of rewritten nodes. -/
structure CarrierSession where
  topClockCarrierVarIDs : Finset Nat
  transitionClockStripMemo : Memo BoolExpr BoolExpr

namespace CarrierSession

/-- The table is keyed by expression and current carriers, so growth clears it.
mirrors src/sec/model/SequentialDesignModel.cpp:3961-4015 -/
def refreshClockCarrierVarIDs (s : CarrierSession) (found : Finset Nat) : CarrierSession where
  topClockCarrierVarIDs := s.topClockCarrierVarIDs ∪ found
  transitionClockStripMemo :=
    if found ⊆ s.topClockCarrierVarIDs then s.transitionClockStripMemo else []

def stripEnable (s : CarrierSession) (clockExpr : BoolExpr) : BoolExpr × CarrierSession :=
  let run := stripClockCarrierFromClockEnable s.topClockCarrierVarIDs clockExpr
    s.transitionClockStripMemo
  (run.1, { s with transitionClockStripMemo := run.2 })

def stripUpdate (s : CarrierSession) (update : BoolExpr) : BoolExpr × CarrierSession :=
  let run := stripClockCarriersFromSequentialUpdate s.topClockCarrierVarIDs update
    s.transitionClockStripMemo
  (run.1, { s with transitionClockStripMemo := run.2 })

end CarrierSession

/-- Every scan for carriers skips the constants, the variables below 2. -/
inductive CarrierCall where
  | refresh (found : Finset Nat) (hfound : ∀ id ∈ found, 2 ≤ id)
  | enable (clockExpr : BoolExpr)
  | update (nextState : BoolExpr)

def CarrierCall.run : CarrierCall → CarrierSession → CarrierSession
  | .refresh found _, s => s.refreshClockCarrierVarIDs found
  | .enable clockExpr, s => (s.stripEnable clockExpr).2
  | .update nextState, s => (s.stripUpdate nextState).2

/-- Any sequence of calls, from no carriers and an empty table. -/
def carrierSessions : LTS CarrierSession CarrierCall where
  init s := s.topClockCarrierVarIDs = ∅ ∧ s.transitionClockStripMemo = []
  step s call s' := s' = call.run s

/-- The carriers are variables, and no entry is older than the last growth. -/
structure CarrierSession.Valid (s : CarrierSession) : Prop where
  nonconstant : ∀ id ∈ s.topClockCarrierVarIDs, 2 ≤ id
  memo : s.transitionClockStripMemo.Valid (strippedCarriers s.topClockCarrierVarIDs)

theorem CarrierSession.Valid.refresh {s : CarrierSession} (h : s.Valid) {found : Finset Nat}
    (hfound : ∀ id ∈ found, 2 ≤ id) : (s.refreshClockCarrierVarIDs found).Valid := by
  refine ⟨fun id hid => ?_, ?_⟩
  · rcases Finset.mem_union.mp hid with hold | hnew
    · exact h.nonconstant id hold
    · exact hfound id hnew
  · unfold CarrierSession.refreshClockCarrierVarIDs
    dsimp only
    split
    · rename_i hsub
      rw [Finset.union_eq_left.mpr hsub]
      exact h.memo
    · exact Memo.valid_nil _

theorem sessions_inductive : carrierSessions.Inductive CarrierSession.Valid where
  init s hs := by
    obtain ⟨hcarriers, hempty⟩ := hs
    refine ⟨by simp [hcarriers], ?_⟩
    rw [hempty]
    exact Memo.valid_nil _
  step s call s' h hstep := by
    rw [hstep]
    cases call with
    | refresh found hfound => exact h.refresh hfound
    | enable clockExpr =>
      exact ⟨h.nonconstant, (stripClockCarrierFromClockEnable_computes clockExpr h.memo).2⟩
    | update nextState =>
      exact ⟨h.nonconstant, (stripClockCarriersFromSequentialUpdate_computes nextState h.memo).2⟩

theorem CarrierSession.Valid.eval_stripUpdate {s : CarrierSession} (h : s.Valid)
    (update : BoolExpr) (σ : Valuation) :
    (s.stripUpdate update).1.eval σ = readsTrue s.topClockCarrierVarIDs σ update := by
  unfold stripUpdate
  dsimp only
  rw [(stripClockCarriersFromSequentialUpdate_computes update h.memo).1,
    BoolExpr.eval_simplifyWhenChanged, eval_strippedCarriers]

theorem CarrierSession.Valid.mem_support_stripUpdate {s : CarrierSession} (h : s.Valid)
    {update : BoolExpr} {id : Nat} (hid : id ∈ (s.stripUpdate update).1.getSupportVars)
    (h2 : 2 ≤ id) : id ∈ update.getSupportVars ∧ id ∉ s.topClockCarrierVarIDs := by
  unfold stripUpdate at hid
  dsimp only at hid
  rw [(stripClockCarriersFromSequentialUpdate_computes update h.memo).1] at hid
  exact mem_support_strippedCarriers (BoolExpr.mem_support_simplifyWhenChanged hid h2) h2

/-! ## One value per carrier -/

section Values
variable (topClockCarrierVarIDs : Finset Nat)

/-- The carriers that an expression reads, each with the polarity of the occurrence. -/
def carrierReads : BoolExpr → Finset (Nat × Bool)
  | .var id => if id ∈ topClockCarrierVarIDs then {(id, true)} else ∅
  | .not a =>
    if isCarrierVar topClockCarrierVarIDs a then a.getSupportVars.image fun id => (id, false)
    else carrierReads a
  | .and a b => carrierReads a ∪ carrierReads b
  | .or a b => carrierReads a ∪ carrierReads b
  | .xor a b => carrierReads a ∪ carrierReads b

end Values

theorem carrier_of_read {update : BoolExpr} {id : Nat} {b : Bool}
    (h : (id, b) ∈ carrierReads topClockCarrierVarIDs update) : id ∈ topClockCarrierVarIDs := by
  induction update with
  | var s =>
    unfold carrierReads at h
    split at h
    · rename_i hs
      simp only [Finset.mem_singleton, Prod.mk.injEq] at h
      rw [h.1]
      exact hs
    · simp at h
  | not a ih =>
    unfold carrierReads at h
    split at h
    · rename_i hcarrier
      cases a with
      | var s =>
        have hs : s ∈ topClockCarrierVarIDs := of_decide_eq_true hcarrier
        simp [BoolExpr.getSupportVars] at h
        rw [h.1]
        exact hs
      | _ => simp [isCarrierVar] at hcarrier
    · exact ih h
  | and a b iha ihb => exact (Finset.mem_union.mp h).elim iha ihb
  | or a b iha ihb => exact (Finset.mem_union.mp h).elim iha ihb
  | xor a b iha ihb => exact (Finset.mem_union.mp h).elim iha ihb

/-- Values that agree with every occurrence make the rewriting a substitution. -/
theorem readsTrue_eq_eval {update : BoolExpr} {v : Valuation}
    (hcarriers : ∀ id ∈ topClockCarrierVarIDs, 2 ≤ id)
    (hv : ∀ id b, (id, b) ∈ carrierReads topClockCarrierVarIDs update → v id = b) (σ : Valuation) :
    readsTrue topClockCarrierVarIDs σ update =
      update.eval (override topClockCarrierVarIDs v σ) := by
  induction update with
  | var id =>
    by_cases hid : id ∈ topClockCarrierVarIDs
    · have hvalue : v id = true := hv id true (by simp [carrierReads, hid])
      rw [readsTrue, if_pos hid, BoolExpr.eval_var _ (hcarriers id hid), override_of_mem hid,
        hvalue]
    · rw [readsTrue, if_neg hid, BoolExpr.eval_override]
      intro s hs
      rw [Finset.mem_singleton.mp hs]
      exact hid
  | not a ih =>
    by_cases ha : isCarrierVar topClockCarrierVarIDs a = true
    · cases a with
      | var id =>
        have hid : id ∈ topClockCarrierVarIDs := of_decide_eq_true ha
        have hvalue : v id = false :=
          hv id false (by simp [carrierReads, ha, BoolExpr.getSupportVars])
        simp [readsTrue, ha, BoolExpr.eval, BoolExpr.eval_var _ (hcarriers id hid),
          override_of_mem hid, hvalue]
      | _ => simp [isCarrierVar] at ha
    · rw [readsTrue, if_neg ha, BoolExpr.eval, ih]
      intro id b hid
      apply hv id b
      rw [carrierReads, if_neg ha]
      exact hid
  | and a b iha ihb =>
    rw [readsTrue, BoolExpr.eval, iha fun id p h => hv id p (Finset.mem_union_left _ h),
      ihb fun id p h => hv id p (Finset.mem_union_right _ h)]
  | or a b iha ihb =>
    rw [readsTrue, BoolExpr.eval, iha fun id p h => hv id p (Finset.mem_union_left _ h),
      ihb fun id p h => hv id p (Finset.mem_union_right _ h)]
  | xor a b iha ihb =>
    rw [readsTrue, BoolExpr.eval, iha fun id p h => hv id p (Finset.mem_union_left _ h),
      ihb fun id p h => hv id p (Finset.mem_union_right _ h)]

/-- Without carriers the value is the plain one. -/
theorem readsTrue_eq_self {e : BoolExpr} (h : ∀ s ∈ e.getSupportVars, s ∉ topClockCarrierVarIDs)
    (σ : Valuation) : readsTrue topClockCarrierVarIDs σ e = e.eval σ := by
  rw [← eval_strippedCarriers, strippedCarriers_eq_self h]

/-! ## Both polarities -/

/-- A factory that folds a variable with its complement changes nothing under `or`: both
operands of `clk | !clk` read true. -/
theorem readsTrue_Or (hcarriers : ∀ id ∈ topClockCarrierVarIDs, 2 ≤ id) (σ : Valuation)
    (a b : BoolExpr) : readsTrue topClockCarrierVarIDs σ (BoolExpr.Or a b) =
      (readsTrue topClockCarrierVarIDs σ a || readsTrue topClockCarrierVarIDs σ b) := by
  have hconst : ∀ id < 2, readsTrue topClockCarrierVarIDs σ (.var id) = (BoolExpr.var id).eval σ := by
    intro id hid
    apply if_neg
    intro hmem
    have := hcarriers id hmem
    omega
  have hneg : ∀ e, (readsTrue topClockCarrierVarIDs σ e ||
      readsTrue topClockCarrierVarIDs σ (.not e)) = true := by
    intro e
    rw [readsTrue]
    split <;> simp
  unfold BoolExpr.Or
  split
  · rename_i h
    rcases h with rfl | rfl <;> simp [hconst, BoolExpr.eval]
  · split
    · rename_i h
      simp [h, hconst, BoolExpr.eval]
    · split
      · rename_i h
        simp [h, hconst, BoolExpr.eval]
      · split
        · rename_i h
          simp [h]
        · split
          · rename_i h
            rw [hconst 1 (by omega)]
            rcases h with rfl | rfl
            · rw [Bool.or_comm, hneg]
              rfl
            · rw [hneg]
              rfl
          · unfold BoolExpr.sorted
            split
            · rw [readsTrue, Bool.or_comm]
            · rfl

/-- The conjunction of a carrier, or its complement, with data reads as the data. -/
theorem readsTrue_And_carrier (hcarriers : ∀ id ∈ topClockCarrierVarIDs, 2 ≤ id)
    {clk a : BoolExpr} {c : Nat} (hc : c ∈ topClockCarrierVarIDs)
    (hclk : clk = .var c ∨ clk = .not (.var c))
    (ha : ∀ s ∈ a.getSupportVars, s ∉ topClockCarrierVarIDs) (σ : Valuation) :
    readsTrue topClockCarrierVarIDs σ (BoolExpr.And clk a) = a.eval σ := by
  have hread : readsTrue topClockCarrierVarIDs σ clk = true := by
    rcases hclk with rfl | rfl <;> simp [readsTrue, isCarrierVar, hc]
  have hmention : ∀ e : BoolExpr, c ∈ e.getSupportVars → a ≠ e := by
    intro e he hsame
    exact ha c (hsame ▸ he) hc
  have hclk_support : c ∈ clk.getSupportVars := by
    rcases hclk with rfl | rfl <;> simp [BoolExpr.getSupportVars]
  have h2 := hcarriers c hc
  unfold BoolExpr.And
  rw [← readsTrue_eq_self ha]
  split
  · rename_i h
    rcases h with h | rfl
    · rcases hclk with rfl | rfl
      · injection h
        omega
      · cases h
    · rfl
  · split
    · rename_i h
      rcases hclk with rfl | rfl
      · injection h
        omega
      · cases h
    · split
      · rename_i h
        subst h
        rw [hread, readsTrue_eq_self ha]
        rfl
      · split
        · rename_i h
          exact absurd h.symm (hmention clk hclk_support)
        · split
          · rename_i h
            rcases h with h | h
            · refine absurd rfl (hmention a ?_)
              rw [h] at hclk_support
              exact hclk_support
            · exact absurd h (hmention (.not clk) hclk_support)
          · unfold BoolExpr.sorted
            split <;> simp [readsTrue, hread]

/-! ## The update after any calls -/

/-- Carriers that are read plainly are fixed to true and those read under a negation to
false; a selection by a carrier, which reads it both ways, becomes the disjunction of its
branches. -/
theorem stripUpdate_reads {s : CarrierSession} (hs : carrierSessions.Reachable s)
    (update : BoolExpr) :
    (∀ id ∈ s.topClockCarrierVarIDs, id ∉ (s.stripUpdate update).1.getSupportVars) ∧
    (∀ σ, (s.stripUpdate update).1.eval σ = readsTrue s.topClockCarrierVarIDs σ update) ∧
    ((∀ id ∈ s.topClockCarrierVarIDs,
        ¬ ((id, true) ∈ carrierReads s.topClockCarrierVarIDs update ∧
          (id, false) ∈ carrierReads s.topClockCarrierVarIDs update)) →
      ∃ v : Valuation, ∀ σ, (s.stripUpdate update).1.eval σ =
        update.eval (override s.topClockCarrierVarIDs v σ)) ∧
    (∀ clk ∈ s.topClockCarrierVarIDs, ∀ a b : BoolExpr,
      (∀ id ∈ a.getSupportVars, id ∉ s.topClockCarrierVarIDs) →
      (∀ id ∈ b.getSupportVars, id ∉ s.topClockCarrierVarIDs) →
      update = .Or (.And (.var clk) a) (.And (.Not (.var clk)) b) →
      ∀ σ, (s.stripUpdate update).1.eval σ = (a.eval σ || b.eval σ)) := by
  have hvalid := sessions_inductive.reachable hs
  refine ⟨fun id hid hmem => ?_, hvalid.eval_stripUpdate update, fun hpolarity => ?_, ?_⟩
  · exact (hvalid.mem_support_stripUpdate hmem (hvalid.nonconstant id hid)).2 hid
  · refine ⟨fun id => decide ((id, true) ∈ carrierReads s.topClockCarrierVarIDs update),
      fun σ => ?_⟩
    rw [hvalid.eval_stripUpdate]
    apply readsTrue_eq_eval hvalid.nonconstant
    intro id b hread
    have hid := carrier_of_read hread
    cases b with
    | true => exact decide_eq_true hread
    | false => exact decide_eq_false fun hplain => hpolarity id hid ⟨hplain, hread⟩
  · intro clk hclk a b ha hb hupdate σ
    have h2 := hvalid.nonconstant clk hclk
    rw [hvalid.eval_stripUpdate, hupdate, readsTrue_Or hvalid.nonconstant,
      readsTrue_And_carrier hvalid.nonconstant hclk (.inl rfl) ha,
      readsTrue_And_carrier hvalid.nonconstant hclk (.inr (BoolExpr.Not_var h2)) hb]

/-- The session that has found the one carrier 2. -/
def oneCarrierSession : CarrierSession :=
  CarrierSession.refreshClockCarrierVarIDs ⟨∅, []⟩ {2}

/-- `2 ? 3 : 4` -/
def clockSelection : BoolExpr := .Or (.And (.var 2) (.var 3)) (.And (.Not (.var 2)) (.var 4))

theorem oneCarrierSession_reachable : carrierSessions.Reachable oneCarrierSession :=
  .step (l := .refresh {2} (by simp)) (.init ⟨rfl, rfl⟩) rfl

theorem stripUpdate_reads_clockSelection :
    2 ∉ (oneCarrierSession.stripUpdate clockSelection).1.getSupportVars ∧
      ∀ σ, (oneCarrierSession.stripUpdate clockSelection).1.eval σ = (σ 3 || σ 4) := by
  obtain ⟨hsupport, -, -, hselect⟩ := stripUpdate_reads oneCarrierSession_reachable clockSelection
  exact ⟨hsupport 2 (by decide), hselect 2 (by decide) (.var 3) (.var 4) (by decide) (by decide) rfl⟩

/-- A selection by the carrier is neither of its branches. -/
theorem clockSelection_no_cofactor : ∃ s, carrierSessions.Reachable s ∧
    ∃ update : BoolExpr, ¬ ∃ v : Valuation, ∀ σ, (s.stripUpdate update).1.eval σ =
      update.eval (override s.topClockCarrierVarIDs v σ) := by
  have hvalid := sessions_inductive.reachable oneCarrierSession_reachable
  refine ⟨oneCarrierSession, oneCarrierSession_reachable, clockSelection, fun h => ?_⟩
  obtain ⟨v, hv⟩ := h
  have hreads : ∀ σ, (oneCarrierSession.stripUpdate clockSelection).1.eval σ = (σ 3 || σ 4) := by
    intro σ
    rw [hvalid.eval_stripUpdate]
    unfold clockSelection
    rw [readsTrue_Or hvalid.nonconstant,
      readsTrue_And_carrier hvalid.nonconstant (c := 2) (by decide) (.inl rfl) (by decide),
      readsTrue_And_carrier hvalid.nonconstant (c := 2) (by decide) (.inr (BoolExpr.Not_var (by decide)))
        (by decide)]
    rfl
  have hselect : ∀ σ : Valuation, (σ 3 || σ 4) = (v 2 && σ 3 || !v 2 && σ 4) := by
    intro σ
    rw [← hreads σ, hv σ]
    simp [clockSelection, BoolExpr.eval, override, oneCarrierSession,
      CarrierSession.refreshClockCarrierVarIDs]
  -- each branch alone refutes the other value of the carrier
  have hleft := hselect fun s => s == 3
  have hright := hselect fun s => s == 4
  cases hv2 : v 2 <;> simp [hv2] at hleft hright

end KeplerFormal
