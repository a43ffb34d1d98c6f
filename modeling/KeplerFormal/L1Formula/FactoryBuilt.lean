import KeplerFormal.L1Formula.OperandOrder
import KeplerFormal.L1Formula.Remapping

/-!
# Expressions made by the factories (`src/formal/BoolExpr.cpp`)

The constructor of a node is private: every expression is made by the factories. A factory
gives back a node that it made when it is called on the operands of this node, so that a
renaming which keeps unchanged nodes and one which rebuilds them give the same expression.

* `Built`: an expression made by the factories; `Built.rebuilds`: its nodes are given back.
* `strict_of_remap`: the two strict renamings agree on such expressions.
* `mem_support_remap`: a renamed expression reads renamed variables only.
-/
namespace KeplerFormal

open Core

namespace BoolExpr

inductive Built : BoolExpr → Prop
  | var (id : Nat) : Built (.var id)
  | not {a : BoolExpr} : Built a → Built (Not a)
  | and {a b : BoolExpr} : Built a → Built b → Built (And a b)
  | or {a b : BoolExpr} : Built a → Built b → Built (Or a b)
  | xor {a b : BoolExpr} : Built a → Built b → Built (Xor a b)

/-- Every node is what the factory gives for its operands. -/
def Rebuilds : BoolExpr → Prop
  | .var _ => True
  | .not a => Not a = .not a ∧ a.Rebuilds
  | .and a b => And a b = .and a b ∧ a.Rebuilds ∧ b.Rebuilds
  | .or a b => Or a b = .or a b ∧ a.Rebuilds ∧ b.Rebuilds
  | .xor a b => Xor a b = .xor a b ∧ a.Rebuilds ∧ b.Rebuilds

/-- The order of the operands is settled by the first call. -/
theorem sorted_cases {op : BoolExpr → BoolExpr → BoolExpr} (a b : BoolExpr) :
    sorted op a b = op a b ∨ (sorted op a b = op b a ∧ sorted op b a = op b a) := by
  have hcomm : sorted op b a = sorted op a b := by
    rw [sorted_eq_sortedBy, sorted_eq_sortedBy, sortedBy_comm]
  rcases sortedBy_cases structuralHash op a b with h | h
  · exact .inl (by rw [sorted_eq_sortedBy, h])
  · exact .inr ⟨by rw [sorted_eq_sortedBy, h], by rw [hcomm, sorted_eq_sortedBy, h]⟩

theorem rebuilds_Not {a : BoolExpr} (ha : a.Rebuilds) : (Not a).Rebuilds := by
  unfold Not
  split
  · trivial
  · trivial
  · exact ha.2
  · next h0 h1 hnot =>
    refine ⟨?_, ha⟩
    unfold Not
    split
    · exact absurd rfl h0
    · exact absurd rfl h1
    · next b => exact absurd rfl (hnot b)
    · rfl

theorem rebuilds_And {a b : BoolExpr} (ha : a.Rebuilds) (hb : b.Rebuilds) :
    (And a b).Rebuilds := by
  unfold And
  split
  · trivial
  next hzero =>
  split
  · exact hb
  next hone =>
  split
  · exact ha
  next hone' =>
  split
  · exact ha
  next hne =>
  split
  · trivial
  next hnot =>
  rcases @sorted_cases .and a b with hsorted | ⟨hsorted, hswap⟩
  · rw [hsorted]
    refine ⟨?_, ha, hb⟩
    rw [And, if_neg hzero, if_neg hone, if_neg hone', if_neg hne, if_neg hnot, hsorted]
  · rw [hsorted]
    refine ⟨?_, hb, ha⟩
    rw [And, if_neg fun h => hzero h.symm, if_neg hone', if_neg hone, if_neg (Ne.symm hne),
      if_neg fun h => hnot h.symm, hswap]

theorem rebuilds_Or {a b : BoolExpr} (ha : a.Rebuilds) (hb : b.Rebuilds) :
    (Or a b).Rebuilds := by
  unfold Or
  split
  · trivial
  next hone =>
  split
  · exact hb
  next hzero =>
  split
  · exact ha
  next hzero' =>
  split
  · exact ha
  next hne =>
  split
  · trivial
  next hnot =>
  rcases @sorted_cases .or a b with hsorted | ⟨hsorted, hswap⟩
  · rw [hsorted]
    refine ⟨?_, ha, hb⟩
    rw [Or, if_neg hone, if_neg hzero, if_neg hzero', if_neg hne, if_neg hnot, hsorted]
  · rw [hsorted]
    refine ⟨?_, hb, ha⟩
    rw [Or, if_neg fun h => hone h.symm, if_neg hzero', if_neg hzero, if_neg (Ne.symm hne),
      if_neg fun h => hnot h.symm, hswap]

theorem rebuilds_Xor {a b : BoolExpr} (ha : a.Rebuilds) (hb : b.Rebuilds) :
    (Xor a b).Rebuilds := by
  unfold Xor
  split
  · exact hb
  next hzero =>
  split
  · exact ha
  next hzero' =>
  split
  · exact rebuilds_Not hb
  next hone =>
  split
  · exact rebuilds_Not ha
  next hone' =>
  split
  · trivial
  next hne =>
  rcases @sorted_cases .xor a b with hsorted | ⟨hsorted, hswap⟩
  · rw [hsorted]
    refine ⟨?_, ha, hb⟩
    rw [Xor, if_neg hzero, if_neg hzero', if_neg hone, if_neg hone', if_neg hne, hsorted]
  · rw [hsorted]
    refine ⟨?_, hb, ha⟩
    rw [Xor, if_neg hzero', if_neg hzero, if_neg hone', if_neg hone, if_neg (Ne.symm hne), hswap]

theorem Built.rebuilds {e : BoolExpr} (h : Built e) : e.Rebuilds := by
  induction h with
  | var id => trivial
  | not _ ih => exact rebuilds_Not ih
  | and _ _ iha ihb => exact rebuilds_And iha ihb
  | or _ _ iha ihb => exact rebuilds_Or iha ihb
  | xor _ _ iha ihb => exact rebuilds_Xor iha ihb

end BoolExpr

namespace Remapping
variable {varMap : VarMap}

theorem remapNode_readsOperands : ReadsOperands (remapNode varMap) := by
  intro node memo memo' h
  cases node with
  | var id => rfl
  | not a => simp only [remapNode, h a (List.mem_singleton_self a)]
  | and a b | or a b | xor a b =>
    simp only [remapNode, h a List.mem_cons_self,
      h b (List.mem_cons_of_mem _ (List.mem_singleton_self b))]

theorem strictNode_readsOperands : ReadsOperands (strictNode varMap) := by
  intro node memo memo' h
  cases node with
  | var id => rfl
  | not a => simp only [strictNode, h a (List.mem_singleton_self a)]
  | and a b | or a b | xor a b =>
    simp only [strictNode, h a List.mem_cons_self,
      h b (List.mem_cons_of_mem _ (List.mem_singleton_self b))]

/-- A renamed expression reads renamed variables only. -/
theorem mem_support_remap {e r : BoolExpr} (h : plainly (remapNode varMap) e = .ok r) {x : Nat}
    (hx : x ∈ r.getSupportVars) (h2 : 2 ≤ x) :
    ∃ s ∈ e.getSupportVars, 2 ≤ s ∧ varMap.lookup s = some x := by
  induction e generalizing r with
  | var id =>
    simp only [plainly, remapNode] at h
    split at h
    · rw [← Except.ok.inj h, BoolExpr.getSupportVars, Finset.mem_singleton] at hx
      omega
    · next hid =>
      split at h
      · cases h
      · next mapped hmapped =>
        rw [← Except.ok.inj h] at hx
        rw [Finset.mem_singleton.mp hx]
        exact ⟨id, Finset.mem_singleton_self id, Nat.le_of_not_lt hid, hmapped⟩
  | not a ih =>
    obtain ⟨left, hleft, h⟩ := bind_ok.mp h
    simp only [remapNode, ExprMemo.at, List.lookup_cons, beq_self_eq_true, ok_bind] at h
    rw [← Except.ok.inj h] at hx
    exact ih hleft (BoolExpr.mem_support_rebuiltNot hx h2)
  | and a b iha ihb =>
    obtain ⟨left, right, hleft, hright, hata, hatb, h⟩ := plainly_binary rfl h
    simp only [remapNode, hata, hatb, ok_bind] at h
    rw [← Except.ok.inj h] at hx
    rcases BoolExpr.mem_support_rebuilt_and hx h2 with hx | hx
    · obtain ⟨s, hs, hs2⟩ := iha hleft hx
      exact ⟨s, Finset.mem_union_left _ hs, hs2⟩
    · obtain ⟨s, hs, hs2⟩ := ihb hright hx
      exact ⟨s, Finset.mem_union_right _ hs, hs2⟩
  | or a b iha ihb =>
    obtain ⟨left, right, hleft, hright, hata, hatb, h⟩ := plainly_binary rfl h
    simp only [remapNode, hata, hatb, ok_bind] at h
    rw [← Except.ok.inj h] at hx
    rcases BoolExpr.mem_support_rebuilt_or hx h2 with hx | hx
    · obtain ⟨s, hs, hs2⟩ := iha hleft hx
      exact ⟨s, Finset.mem_union_left _ hs, hs2⟩
    · obtain ⟨s, hs, hs2⟩ := ihb hright hx
      exact ⟨s, Finset.mem_union_right _ hs, hs2⟩
  | xor a b iha ihb =>
    obtain ⟨left, right, hleft, hright, hata, hatb, h⟩ := plainly_binary rfl h
    simp only [remapNode, hata, hatb, ok_bind] at h
    rw [← Except.ok.inj h] at hx
    rcases BoolExpr.mem_support_rebuilt_xor hx h2 with hx | hx
    · obtain ⟨s, hs, hs2⟩ := iha hleft hx
      exact ⟨s, Finset.mem_union_left _ hs, hs2⟩
    · obtain ⟨s, hs, hs2⟩ := ihb hright hx
      exact ⟨s, Finset.mem_union_right _ hs, hs2⟩

theorem rebuilt_eq {node factory : BoolExpr → BoolExpr → BoolExpr} {a b : BoolExpr}
    (h : factory a b = node a b) (left right : BoolExpr) :
    BoolExpr.rebuilt node factory a b left right = factory left right := by
  unfold BoolExpr.rebuilt
  split
  · next hsame => rw [hsame.1, hsame.2, h]
  · rfl

/-- On nodes that the factories give back, keeping and rebuilding come to the same. -/
theorem strict_of_remap {e r : BoolExpr} (hrebuilds : e.Rebuilds)
    (h : plainly (remapNode varMap) e = .ok r) : plainly (strictNode varMap) e = .ok r := by
  induction e generalizing r with
  | var id =>
    simp only [plainly, remapNode, strictNode] at h ⊢
    split at h
    · next hid =>
      split
      · rw [if_neg (by omega), h]
      · rw [if_pos hid, h]
    · next hid =>
      split at h
      · cases h
      · next mapped hmapped =>
        rw [if_neg hid]
        exact h
  | not a ih =>
    obtain ⟨left, hleft, h⟩ := bind_ok.mp h
    simp only [remapNode, ExprMemo.at, List.lookup_cons, beq_self_eq_true, ok_bind] at h
    rw [plainly, ih hrebuilds.2 hleft, ok_bind]
    simp only [strictNode, ExprMemo.at, List.lookup_cons, beq_self_eq_true, ok_bind]
    rw [← h, BoolExpr.rebuiltNot]
    split
    · next hsame => rw [hsame, hrebuilds.1]
    · rfl
  | and a b iha ihb | or a b iha ihb | xor a b iha ihb =>
    obtain ⟨left, right, hleft, hright, hata, hatb, h⟩ := plainly_binary rfl h
    simp only [remapNode, hata, hatb, ok_bind] at h
    rw [plainly, iha hrebuilds.2.1 hleft, ok_bind, ihb hrebuilds.2.2 hright, ok_bind]
    simp only [strictNode, hata, hatb, ok_bind]
    rw [← h, rebuilt_eq hrebuilds.1]

end Remapping
end KeplerFormal
