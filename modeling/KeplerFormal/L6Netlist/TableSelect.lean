import KeplerFormal.Core.Bits
import KeplerFormal.Core.Fallible
import KeplerFormal.L1Formula.BoolExpr
import Mathlib.Tactic.Ring

/-!
# Table selection (`src/clauses/Tree2BoolExpr.cpp`)

A TABLE_SELECT cell becomes a tree of multiplexers over its address bits. The children list
the data, from the highest row down, then the address, most significant bit first. The
conversion fails here wherever the code would read past the children or shift a word by its
width.

* `tableSelect_ok`: the conversion of any prefix of the address.
* `buildTableSelectTruthTableExpr_exact`: the addressed row, false beyond the depth.
-/
namespace KeplerFormal

open Core

/-- The sizes of a table; the arity counts all its inputs in 32 bits. -/
structure TableSelectSizes where
  addressSize : Nat
  depth : Nat
  arity_lt : addressSize + depth < 2 ^ 32

inductive TableSelectError where
  | arityMismatch
  | assertion
  | childOutOfRange
  | shiftTooWide
  deriving DecidableEq, Repr

/-- mirrors src/clauses/Tree2BoolExpr.cpp:206-210 -/
def getChildFETS (children : List BoolExpr) (i : Nat) : Except TableSelectError BoolExpr :=
  match children[i]? with
  | some child => .ok child
  | none => .error .childOutOfRange

/-- A shift of a 64-bit word. -/
def shiftLeft64 (value amount : Nat) : Except TableSelectError Nat :=
  if amount < 64 then .ok (value * 2 ^ amount % 2 ^ 64) else .error .shiftTooWide

/-- The first check of each step: the rows under a prefix of the address begin beyond the
depth.
mirrors src/clauses/Tree2BoolExpr.cpp:223-230 -/
def pathBeyond (depth remaining path : Nat) : Except TableSelectError Bool :=
  if remaining < 63 then do .ok (decide (depth ≤ (← shiftLeft64 path remaining)))
  else .ok (decide (path ≠ 0))

/-- The recursion goes down `remaining`, the address bits that are left.
mirrors src/clauses/Tree2BoolExpr.cpp:218-253 -/
def buildTableSelectTruthTableExprRecursive (children : List BoolExpr)
    (addressSize depth : Nat) : Nat → Nat → Except TableSelectError BoolExpr
  | 0, path => do
    if ← pathBeyond depth 0 path then .ok .createFalse
    else if path < depth then getChildFETS children (depth - 1 - path)
    else .error .assertion
  | left + 1, path => do
    if ← pathBeyond depth (left + 1) path then .ok .createFalse
    else do
      let doubled ← shiftLeft64 path 1
      let low ← buildTableSelectTruthTableExprRecursive children addressSize depth left doubled
      let high ←
        buildTableSelectTruthTableExprRecursive children addressSize depth left (doubled ||| 1)
      if low = high then .ok low
      else do
        let addressBit ← getChildFETS children (depth + (addressSize - (left + 1)))
        .ok (.Or (.And (.Not addressBit) low) (.And addressBit high))

/-- mirrors src/clauses/Tree2BoolExpr.cpp:255-264 -/
def buildTableSelectTruthTableExpr (tbl : TableSelectSizes) (children : List BoolExpr) :
    Except TableSelectError BoolExpr :=
  if children.length ≠ tbl.addressSize + tbl.depth then .error .arityMismatch
  else
    buildTableSelectTruthTableExprRecursive children tbl.addressSize tbl.depth tbl.addressSize 0

/-! ## Selection -/

/-- The number in an address, most significant bit first. -/
def addressValue (σ : Valuation) (address : List BoolExpr) : Nat :=
  Bits.toNat (address.map (·.eval σ)).reverse

theorem addressValue_cons (σ : Valuation) (b : BoolExpr) (address : List BoolExpr) :
    addressValue σ (b :: address) =
      addressValue σ address + 2 ^ address.length * (b.eval σ).toNat := by
  simp [addressValue, Bits.toNat_append]

/-- The addressed row, false beyond the last one. -/
def selectedRow (σ : Valuation) (rows : List BoolExpr) (address : Nat) : Bool :=
  match rows[address]? with
  | some row => row.eval σ
  | none => false

theorem selectedRow_beyond (σ : Valuation) {rows : List BoolExpr} {address : Nat}
    (h : rows.length ≤ address) : selectedRow σ rows address = false := by
  rw [selectedRow, List.getElem?_eq_none h]

theorem shiftLeft64_ok {value amount : Nat} (hamount : amount < 64)
    (hfits : value * 2 ^ amount < 2 ^ 64) :
    shiftLeft64 value amount = .ok (value * 2 ^ amount) := by
  rw [shiftLeft64, if_pos hamount, Nat.mod_eq_of_lt hfits]

section Select
variable {rows address : List BoolExpr}

/-- Data rows are read from the end of the data. -/
theorem getChildFETS_row {i : Nat} (hi : i < rows.length) :
    getChildFETS (rows.reverse ++ address) (rows.length - 1 - i) = .ok (rows.get ⟨i, hi⟩) := by
  have hread : (rows.reverse ++ address)[rows.length - 1 - i]? = some (rows.get ⟨i, hi⟩) := by
    rw [List.getElem?_append_left (by rw [List.length_reverse]; omega),
      List.getElem?_reverse (by omega)]
    have hback : rows.length - 1 - (rows.length - 1 - i) = i := by omega
    rw [hback, List.getElem?_eq_getElem hi]
    rfl
  rw [getChildFETS, hread]

/-- Address bits are read after the data. -/
theorem getChildFETS_address {left : Nat} (hleft : left < address.length) :
    ∃ b, getChildFETS (rows.reverse ++ address)
        (rows.length + (address.length - (left + 1))) = .ok b ∧
      address.drop (address.length - (left + 1)) = b :: address.drop (address.length - left) := by
  have hlt : address.length - (left + 1) < address.length := by omega
  have hnext : address.length - left = address.length - (left + 1) + 1 := by omega
  refine ⟨address[address.length - (left + 1)], ?_, ?_⟩
  · rw [getChildFETS, List.getElem?_append_right (by simp), List.length_reverse,
      Nat.add_sub_cancel_left, List.getElem?_eq_getElem hlt]
  · rw [hnext]
    exact List.drop_eq_getElem_cons hlt

theorem pathBeyond_ok {depth remaining path : Nat} (hdepth : depth < 2 ^ 32)
    (hfits : remaining < 63 → path * 2 ^ remaining < 2 ^ 64) :
    pathBeyond depth remaining path =
      .ok (decide (depth ≤ path * 2 ^ remaining ∧ (path ≠ 0 ∨ remaining < 63))) := by
  unfold pathBeyond
  split
  · next h =>
    rw [shiftLeft64_ok (by omega) (hfits h)]
    simp [h, bind, Except.bind]
  · next h =>
    have hwide : path ≠ 0 → depth ≤ path * 2 ^ remaining := fun hpath =>
      calc depth ≤ 2 ^ 63 := by omega
        _ ≤ 2 ^ remaining := Nat.pow_le_pow_right (by decide) (by omega)
        _ ≤ path * 2 ^ remaining := Nat.le_mul_of_pos_left _ (Nat.pos_of_ne_zero hpath)
    have hsame : (depth ≤ path * 2 ^ remaining ∧ (path ≠ 0 ∨ remaining < 63)) ↔ path ≠ 0 :=
      ⟨fun hb => hb.2.resolve_right h, fun hpath => ⟨hwide hpath, .inl hpath⟩⟩
    simp only [hsame]

/-- What a step that goes on hands to the next ones: their shifts fit as well. -/
theorem paths_fit {depth left path : Nat} (hdepth : depth < 2 ^ 32)
    (hinside : ¬ (depth ≤ path * 2 ^ (left + 1) ∧ (path ≠ 0 ∨ left + 1 < 63))) :
    path * 2 ^ 1 < 2 ^ 64 ∧ (left < 63 → path * 2 * 2 ^ left < 2 ^ 64) ∧
      (left < 63 → (path * 2 + 1) * 2 ^ left < 2 ^ 64) := by
  have hpow : path * 2 ^ (left + 1) = path * 2 * 2 ^ left := by
    rw [Nat.pow_succ, Nat.mul_comm (2 ^ left) 2, Nat.mul_assoc]
  have hleft : left < 63 → 2 ^ left ≤ 2 ^ 62 := fun h =>
    Nat.pow_le_pow_right (by decide) (by omega)
  rw [hpow] at hinside
  have hone : (path * 2 + 1) * 2 ^ left = path * 2 * 2 ^ left + 2 ^ left := by
    rw [Nat.add_mul, Nat.one_mul]
  rw [hone]
  rcases Nat.eq_zero_or_pos path with rfl | hpath
  · simp only [Nat.zero_mul, Nat.zero_add]
    omega
  · have hsmall : path * 2 * 2 ^ left < 2 ^ 32 := by omega
    have hle : path * 2 ≤ path * 2 * 2 ^ left := Nat.le_mul_of_pos_right _ (Nat.two_pow_pos left)
    omega

/-- The expression of a multiplexer, of one branch where both are the same. -/
theorem eval_select (σ : Valuation) (b low high : BoolExpr) :
    (BoolExpr.Or (.And (.Not b) low) (.And b high)).eval σ =
      if b.eval σ then high.eval σ else low.eval σ := by
  cases hb : b.eval σ <;> simp [hb]

/-- The rows under a prefix of the address; the invariant is that no shift overflows. -/
theorem tableSelect_ok (hdepth : rows.length < 2 ^ 32) {remaining path : Nat}
    (hremaining : remaining ≤ address.length)
    (hfits : remaining < 63 → path * 2 ^ remaining < 2 ^ 64) :
    ∃ e, buildTableSelectTruthTableExprRecursive (rows.reverse ++ address) address.length
        rows.length remaining path = .ok e ∧
      ∀ σ, e.eval σ = selectedRow σ rows (path * 2 ^ remaining +
        addressValue σ (address.drop (address.length - remaining))) := by
  induction remaining generalizing path with
  | zero =>
    rw [buildTableSelectTruthTableExprRecursive, pathBeyond_ok hdepth hfits]
    simp only [pow_zero, Nat.mul_one, Nat.sub_zero, List.drop_length, ok_bind]
    by_cases hrow : path < rows.length
    · refine ⟨rows.get ⟨path, hrow⟩, ?_, fun σ => ?_⟩
      · rw [if_neg (by simp; omega), if_pos hrow, getChildFETS_row hrow]
      · simp [selectedRow, addressValue, List.getElem?_eq_getElem hrow]
    · refine ⟨.createFalse, ?_, fun σ => ?_⟩
      · rw [if_pos (by simp; omega)]
      · rw [selectedRow_beyond σ (by simp [addressValue]; omega), BoolExpr.eval_createFalse]
  | succ left ih =>
    rw [buildTableSelectTruthTableExprRecursive, pathBeyond_ok hdepth hfits]
    simp only [ok_bind]
    by_cases hout : rows.length ≤ path * 2 ^ (left + 1) ∧ (path ≠ 0 ∨ left + 1 < 63)
    · refine ⟨.createFalse, if_pos (decide_eq_true hout), fun σ => ?_⟩
      rw [selectedRow_beyond σ (by omega), BoolExpr.eval_createFalse]
    · rw [if_neg (by simpa using hout)]
      obtain ⟨hdouble, hfitsLow, hfitsHigh⟩ := paths_fit hdepth hout
      obtain ⟨low, hlow, hevalLow⟩ := ih (by omega) hfitsLow
      obtain ⟨high, hhigh, hevalHigh⟩ := ih (by omega) hfitsHigh
      obtain ⟨b, hb, hdrop⟩ :=
        @getChildFETS_address rows _ _ (Nat.lt_of_succ_le hremaining)
      have hor : path * 2 ^ 1 ||| 1 = path * 2 + 1 := by
        have h := Nat.two_pow_add_eq_or_of_lt (i := 1) (b := 1) (by decide) path
        rw [Nat.mul_comm] at h
        exact h.symm
      have hlen : (address.drop (address.length - left)).length = left := by
        rw [List.length_drop]
        omega
      rw [shiftLeft64_ok (by decide) hdouble, ok_bind, hor, pow_one, hlow,
        ok_bind, hhigh, ok_bind]
      -- the row after one more address bit
      have hrow : ∀ σ, (if b.eval σ then high.eval σ else low.eval σ) =
          selectedRow σ rows (path * 2 ^ (left + 1) +
            addressValue σ (address.drop (address.length - (left + 1)))) := by
        intro σ
        rw [hdrop, addressValue_cons, hlen, hevalLow, hevalHigh, Nat.pow_succ]
        cases b.eval σ with
        | false =>
          simp only [Bool.false_eq_true, if_false, Bool.toNat_false, Nat.mul_zero, Nat.add_zero]
          congr 2
          ring
        | true =>
          simp only [if_true, Bool.toNat_true, Nat.mul_one]
          congr 1
          ring
      by_cases hsame : low = high
      · refine ⟨low, if_pos hsame, fun σ => ?_⟩
        rw [← hrow, hsame, ite_self]
      · refine ⟨_, by rw [if_neg hsame, hb, ok_bind], fun σ => ?_⟩
        rw [eval_select, hrow]

end Select

/-- Every table, whatever its sizes and rows: no read or shift is out of range, and the value
is that of the addressed row, false beyond the depth. -/
theorem buildTableSelectTruthTableExpr_exact (tbl : TableSelectSizes)
    (rows address : List BoolExpr) (hrows : rows.length = tbl.depth)
    (haddress : address.length = tbl.addressSize) :
    ∃ e, buildTableSelectTruthTableExpr tbl (rows.reverse ++ address) = .ok e ∧
      ∀ σ, (∀ h : addressValue σ address < rows.length,
          e.eval σ = (rows.get ⟨addressValue σ address, h⟩).eval σ) ∧
        (rows.length ≤ addressValue σ address → e.eval σ = false) := by
  have harity := tbl.arity_lt
  obtain ⟨e, he, heval⟩ := @tableSelect_ok rows address
    (by omega) _ 0 le_rfl (fun _ => by simp)
  refine ⟨e, ?_, fun σ => ?_⟩
  · rw [buildTableSelectTruthTableExpr, if_neg (by simp; omega), ← hrows, ← haddress]
    exact he
  · have hval := heval σ
    rw [Nat.zero_mul, Nat.zero_add, Nat.sub_self, List.drop_zero] at hval
    constructor
    · intro h
      rw [hval, selectedRow, List.getElem?_eq_getElem h]
      rfl
    · intro h
      rw [hval, selectedRow_beyond σ h]

/-- Three rows and two address bits: the fourth address selects nothing. -/
theorem buildTableSelectTruthTableExpr_exact_three :
    ∃ e, buildTableSelectTruthTableExpr ⟨2, 3, by decide⟩
        ([.var 2, .var 3, .var 4].reverse ++ [.var 5, .var 6]) = .ok e ∧
      e.eval (fun s => s ≠ 4 ∧ s ≠ 6) = false ∧ e.eval (fun _ => true) = false := by
  obtain ⟨e, he, hval⟩ := buildTableSelectTruthTableExpr_exact ⟨2, 3, by decide⟩
    [.var 2, .var 3, .var 4] [.var 5, .var 6] rfl rfl
  refine ⟨e, he, ?_, (hval _).2 (by decide)⟩
  have h := (hval fun s => decide (s ≠ 4 ∧ s ≠ 6)).1 (by decide)
  rw [h]
  decide

end KeplerFormal
