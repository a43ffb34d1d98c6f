import Mathlib.Data.List.Nodup
import KeplerFormal.Core.Propagation
import KeplerFormal.L1Formula.FrameQuery

/-!
# Three-valued evaluation (`src/sec/pdr/PDREngine.cpp`)

The PDR engine evaluates formulas with an unknown value X, here `none`. Every node of
a formula is entered once into a table with links to its parents, so that a changed
value can be carried upwards.

* `ternaryEval_sound`: a known value is the value under every valuation that agrees
  with the known leaves.
* `ternaryEquations`: the evaluation as equations between a node and its children.
* `TernaryNodes.WellFormed`, `ternaryNodeIndex_entered`: the table lists a node once, with its
  children, and links every child to its parents and to nothing else.
-/
namespace KeplerFormal

open Core

/-- mirrors src/sec/pdr/PDREngine.cpp:5504-5535 -/
def ternaryNot : Option Bool → Option Bool
  | some a => some !a
  | none => none

def ternaryAnd : Option Bool → Option Bool → Option Bool
  | some false, _ => some false
  | _, some false => some false
  | some a, some b => some (a && b)
  | _, _ => none

def ternaryOr : Option Bool → Option Bool → Option Bool
  | some true, _ => some true
  | _, some true => some true
  | some a, some b => some (a || b)
  | _, _ => none

def ternaryXor : Option Bool → Option Bool → Option Bool
  | some a, some b => some (a ^^ b)
  | _, _ => none

namespace BoolExpr

/-- The value from scratch. -/
def ternaryEval (leaf : Nat → Option Bool) : BoolExpr → Option Bool
  | .var id => leaf id
  | .not a => ternaryNot (a.ternaryEval leaf)
  | .and a b => ternaryAnd (a.ternaryEval leaf) (b.ternaryEval leaf)
  | .or a b => ternaryOr (a.ternaryEval leaf) (b.ternaryEval leaf)
  | .xor a b => ternaryXor (a.ternaryEval leaf) (b.ternaryEval leaf)

/-- The value of a node from those of its children. -/
def ternaryStep (leaf : Nat → Option Bool) (value : BoolExpr → Option Bool) :
    BoolExpr → Option Bool
  | .var id => leaf id
  | .not a => ternaryNot (value a)
  | .and a b => ternaryAnd (value a) (value b)
  | .or a b => ternaryOr (value a) (value b)
  | .xor a b => ternaryXor (value a) (value b)

def children : BoolExpr → List BoolExpr
  | .var _ => []
  | .not a => [a]
  | .and a b => [a, b]
  | .or a b => [a, b]
  | .xor a b => [a, b]

/-- The number of operators over the deepest leaf. -/
def height : BoolExpr → Nat
  | .var _ => 0
  | .not a => a.height + 1
  | .and a b => max a.height b.height + 1
  | .or a b => max a.height b.height + 1
  | .xor a b => max a.height b.height + 1

theorem height_lt_of_mem_children {a c : BoolExpr} (h : c ∈ a.children) : c.height < a.height := by
  cases a with
  | var id => cases h
  | not a =>
    rw [List.mem_singleton.mp h]
    exact Nat.lt_succ_self _
  | and a b | or a b | xor a b =>
    simp only [children, List.mem_cons, List.not_mem_nil, or_false] at h
    simp only [height]
    rcases h with rfl | rfl <;> omega

theorem ternaryStep_congr {leaf : Nat → Option Bool} {v w : BoolExpr → Option Bool}
    {a : BoolExpr} (h : ∀ c ∈ a.children, v c = w c) :
    ternaryStep leaf v a = ternaryStep leaf w a := by
  cases a with
  | var id => rfl
  | not a => simp only [ternaryStep, h a (by simp [children])]
  | and a b | or a b | xor a b =>
    simp only [ternaryStep, h a (by simp [children]), h b (by simp [children])]

/-- Three-valued evaluation as equations. -/
def ternaryEquations (leaf : Nat → Option Bool) : Equations BoolExpr (Option Bool) where
  children := children
  rank := height
  step := ternaryStep leaf
  rank_lt _ _ h := height_lt_of_mem_children h
  step_congr _ _ _ h := ternaryStep_congr h

theorem ternaryEval_solves (leaf : Nat → Option Bool) :
    (ternaryEquations leaf).Solves (ternaryEval leaf) := by
  intro a
  cases a <;> rfl

theorem ternaryEval_congr {leaf leaf' : Nat → Option Bool} {e : BoolExpr}
    (h : ∀ s ∈ e.leaves, leaf s = leaf' s) : e.ternaryEval leaf = e.ternaryEval leaf' := by
  induction e with
  | var id => exact h id List.mem_cons_self
  | not a ih => simp only [ternaryEval, ih h]
  | and a b iha ihb | or a b iha ihb | xor a b iha ihb =>
    simp only [ternaryEval, iha fun s hs => h s (List.mem_append_left _ hs),
      ihb fun s hs => h s (List.mem_append_right _ hs)]

/-- A leaf is known to have value `v`; the constants always are. -/
def LeafAgrees (leaf : Nat → Option Bool) (σ : Valuation) (s : Nat) : Prop :=
  ∀ v, leaf s = some v → (BoolExpr.var s).eval σ = v

/-- A known value is the value of every valuation that agrees with the known leaves. -/
theorem ternaryEval_sound {leaf : Nat → Option Bool} {σ : Valuation} {e : BoolExpr} {v : Bool}
    (hleaf : ∀ s ∈ e.leaves, LeafAgrees leaf σ s) (h : e.ternaryEval leaf = some v) :
    e.eval σ = v := by
  induction e generalizing v with
  | var id => exact hleaf id List.mem_cons_self v h
  | not a ih =>
    simp only [ternaryEval] at h
    cases ha : a.ternaryEval leaf with
    | none => simp [ha, ternaryNot] at h
    | some x =>
      simp only [ha, ternaryNot, Option.some.injEq] at h
      simp only [eval, ih hleaf ha, ← h]
  | and a b iha ihb | or a b iha ihb | xor a b iha ihb =>
    have ha := fun x => @iha x fun s hs => hleaf s (List.mem_append_left _ hs)
    have hb := fun x => @ihb x fun s hs => hleaf s (List.mem_append_right _ hs)
    simp only [ternaryEval] at h
    simp only [eval]
    rcases hva : a.ternaryEval leaf with _ | (_ | _) <;>
      rcases hvb : b.ternaryEval leaf with _ | (_ | _) <;>
        simp_all [ternaryAnd, ternaryOr, ternaryXor]

/-! ### Fewer known leaves -/

/-- What is known of `v` is known of `w`. -/
def Below (v w : Option Bool) : Prop := ∀ b, v = some b → w = some b

instance (v w : Option Bool) : Decidable (Below v w) :=
  inferInstanceAs (Decidable (∀ b, v = some b → w = some b))

theorem ternaryNot_mono : ∀ {v w : Option Bool}, Below v w →
    Below (ternaryNot v) (ternaryNot w) := by
  decide

theorem ternaryAnd_mono : ∀ {v w v' w' : Option Bool}, Below v w → Below v' w' →
    Below (ternaryAnd v v') (ternaryAnd w w') := by
  decide

theorem ternaryOr_mono : ∀ {v w v' w' : Option Bool}, Below v w → Below v' w' →
    Below (ternaryOr v v') (ternaryOr w w') := by
  decide

theorem ternaryXor_mono : ∀ {v w v' w' : Option Bool}, Below v w → Below v' w' →
    Below (ternaryXor v v') (ternaryXor w w') := by
  decide

theorem ternaryEval_mono {leaf leaf' : Nat → Option Bool} (hleaf : ∀ s, Below (leaf s) (leaf' s))
    (e : BoolExpr) : Below (e.ternaryEval leaf) (e.ternaryEval leaf') := by
  induction e with
  | var id => exact hleaf id
  | not a ih => exact ternaryNot_mono ih
  | and a b iha ihb => exact ternaryAnd_mono iha ihb
  | or a b iha ihb => exact ternaryOr_mono iha ihb
  | xor a b iha ihb => exact ternaryXor_mono iha ihb

/-! ### Subterms -/

def subterms : BoolExpr → List BoolExpr
  | .var id => [.var id]
  | .not a => .not a :: a.subterms
  | .and a b => .and a b :: (a.subterms ++ b.subterms)
  | .or a b => .or a b :: (a.subterms ++ b.subterms)
  | .xor a b => .xor a b :: (a.subterms ++ b.subterms)

theorem self_mem_subterms (e : BoolExpr) : e ∈ e.subterms := by
  cases e <;> exact List.mem_cons_self

/-- A set of nodes that holds the children of its nodes holds their subterms. -/
theorem subterms_closed {P : BoolExpr → Prop} (hP : ∀ a, P a → ∀ c ∈ a.children, P c)
    {e : BoolExpr} (he : P e) : ∀ a ∈ e.subterms, P a := by
  induction e with
  | var id =>
    intro a ha
    rwa [List.mem_singleton.mp ha]
  | not a ih =>
    intro c hc
    rcases List.mem_cons.mp hc with rfl | hc
    · exact he
    · exact ih (hP _ he a (by simp [children])) c hc
  | and a b iha ihb | or a b iha ihb | xor a b iha ihb =>
    intro c hc
    simp only [subterms, List.mem_cons, List.mem_append] at hc
    rcases hc with rfl | hc | hc
    · exact he
    · exact iha (hP _ he a (by simp [children])) c hc
    · exact ihb (hP _ he b (by simp [children])) c hc

theorem children_mem_subterms {e a c : BoolExpr} (ha : a ∈ e.subterms) (hc : c ∈ a.children) :
    c ∈ e.subterms := by
  induction e with
  | var id =>
    rw [List.mem_singleton.mp ha] at hc
    cases hc
  | not b ih =>
    rcases List.mem_cons.mp ha with rfl | ha
    · rw [List.mem_singleton.mp hc]
      exact List.mem_cons_of_mem _ (self_mem_subterms _)
    · exact List.mem_cons_of_mem _ (ih ha)
  | and b d ihb ihd | or b d ihb ihd | xor b d ihb ihd =>
    simp only [subterms, List.mem_cons, List.mem_append] at ha ⊢
    rcases ha with rfl | ha | ha
    · simp only [children, List.mem_cons, List.not_mem_nil, or_false] at hc
      rcases hc with rfl | rfl
      · exact .inr (.inl (self_mem_subterms _))
      · exact .inr (.inr (self_mem_subterms _))
    · exact .inr (.inl (ihb ha))
    · exact .inr (.inr (ihd ha))

theorem mem_leaves_of_var_mem_subterms {e : BoolExpr} {s : Nat} (h : .var s ∈ e.subterms) :
    s ∈ e.leaves := by
  induction e with
  | var id => simpa [subterms, leaves] using h
  | not a ih => exact ih (by simpa [subterms] using h)
  | and a b iha ihb | or a b iha ihb | xor a b iha ihb =>
    have hor : .var s ∈ a.subterms ∨ .var s ∈ b.subterms := by simpa [subterms] using h
    exact List.mem_append.mpr (hor.imp iha ihb)

theorem var_mem_subterms_of_mem_leaves {e : BoolExpr} {s : Nat} (h : s ∈ e.leaves) :
    .var s ∈ e.subterms := by
  induction e with
  | var id => simpa [subterms, leaves] using h
  | not a ih => exact List.mem_cons_of_mem _ (ih h)
  | and a b iha ihb | or a b iha ihb | xor a b iha ihb =>
    apply List.mem_cons_of_mem
    exact List.mem_append.mpr ((List.mem_append.mp h).imp iha ihb)

end BoolExpr

/-! ## The table of nodes -/

/-- A node is named by its formula; its slot is the position in `exprs`.
mirrors src/sec/pdr/PDREngine.cpp:1775-1826 -/
structure TernaryNodes where
  exprs : List BoolExpr := []
  /-- child and parent, in the order of the pushes -/
  links : List (BoolExpr × BoolExpr) := []
  deriving Repr

namespace TernaryNodes

def slot (t : TernaryNodes) (e : BoolExpr) : Nat := t.exprs.idxOf e

def ternaryParentNodes (t : TernaryNodes) (e : BoolExpr) : List BoolExpr :=
  (t.links.filter fun l => l.1 = e).map Prod.snd

/-- The slot of a node is taken before its children are visited. -/
def enter (t : TernaryNodes) (e : BoolExpr) : TernaryNodes := { t with exprs := t.exprs ++ [e] }

def link (t : TernaryNodes) (child parent : BoolExpr) : TernaryNodes :=
  { t with links := t.links ++ [(child, parent)] }

/-- Two equal operands give one link. -/
def linkBoth (t : TernaryNodes) (left right parent : BoolExpr) : TernaryNodes :=
  if right = left then t.link left parent else (t.link left parent).link right parent

/-- mirrors src/sec/pdr/PDREngine.cpp:1775-1805 (`ternaryNodeIndex`) -/
def ternaryNodeIndex : BoolExpr → TernaryNodes → TernaryNodes
  | .var id, t => if .var id ∈ t.exprs then t else t.enter (.var id)
  | .not a, t =>
    if .not a ∈ t.exprs then t
    else (ternaryNodeIndex a (t.enter (.not a))).link a (.not a)
  | .and a b, t =>
    if .and a b ∈ t.exprs then t
    else (ternaryNodeIndex b (ternaryNodeIndex a (t.enter (.and a b)))).linkBoth a b (.and a b)
  | .or a b, t =>
    if .or a b ∈ t.exprs then t
    else (ternaryNodeIndex b (ternaryNodeIndex a (t.enter (.or a b)))).linkBoth a b (.or a b)
  | .xor a b, t =>
    if .xor a b ∈ t.exprs then t
    else (ternaryNodeIndex b (ternaryNodeIndex a (t.enter (.xor a b)))).linkBoth a b (.xor a b)

/-- The nodes of `unfinished` have a slot, but not yet all their children. -/
structure WellFormedBut (unfinished : List BoolExpr) (t : TernaryNodes) : Prop where
  nodup : t.exprs.Nodup
  children : ∀ e ∈ t.exprs, e ∉ unfinished → ∀ c ∈ e.children, c ∈ t.exprs ∧ (c, e) ∈ t.links
  links : ∀ l ∈ t.links, l.2 ∈ t.exprs ∧ l.1 ∈ l.2.children

abbrev WellFormed (t : TernaryNodes) : Prop := t.WellFormedBut []

variable {t : TernaryNodes} {unfinished : List BoolExpr}

theorem mem_ternaryParentNodes {e p : BoolExpr} :
    p ∈ t.ternaryParentNodes e ↔ (e, p) ∈ t.links := by
  simp [ternaryParentNodes]

theorem slot_of_prefix {t' : TernaryNodes} (h : t.exprs <+: t'.exprs) {e : BoolExpr}
    (he : e ∈ t.exprs) : t'.slot e = t.slot e := by
  obtain ⟨more, hmore⟩ := h
  unfold slot
  rw [← hmore, List.idxOf_append_of_mem he]

theorem WellFormedBut.enter (h : t.WellFormedBut unfinished) {e : BoolExpr} (he : e ∉ t.exprs) :
    (t.enter e).WellFormedBut (e :: unfinished) where
  nodup := by
    apply List.Nodup.append h.nodup (List.nodup_singleton e)
    intro a ha hae
    rw [List.mem_singleton.mp hae] at ha
    exact he ha
  children a ha hfinished c hc := by
    obtain ⟨hne, hfinished⟩ := not_or.mp (fun hor => hfinished (List.mem_cons.mpr hor))
    have ha' : a ∈ t.exprs := by
      rcases List.mem_append.mp ha with ha | ha
      · exact ha
      · exact absurd (List.mem_singleton.mp ha) hne
    obtain ⟨hchild, hlink⟩ := h.children a ha' hfinished c hc
    exact ⟨List.mem_append_left _ hchild, hlink⟩
  links l hl := ⟨List.mem_append_left _ (h.links l hl).1, (h.links l hl).2⟩

/-- A link from an open node to one of its children. -/
theorem WellFormedBut.link (h : t.WellFormedBut unfinished) {child parent : BoolExpr}
    (hparent : parent ∈ t.exprs) (hchild : child ∈ parent.children) :
    (t.link child parent).WellFormedBut unfinished where
  nodup := h.nodup
  children a ha hfinished c hc :=
    ⟨(h.children a ha hfinished c hc).1, List.mem_append_left _ (h.children a ha hfinished c hc).2⟩
  links l hl := by
    rcases List.mem_append.mp hl with hl | hl
    · exact h.links l hl
    · rw [List.mem_singleton.mp hl]
      exact ⟨hparent, hchild⟩

/-- A node whose children are entered and linked is no longer open. -/
theorem WellFormedBut.close {e : BoolExpr} (h : t.WellFormedBut (e :: unfinished))
    (hchildren : ∀ c ∈ e.children, c ∈ t.exprs ∧ (c, e) ∈ t.links) : t.WellFormedBut unfinished where
  nodup := h.nodup
  children a ha hfinished c hc := by
    by_cases hae : a = e
    · subst hae
      exact hchildren c hc
    · refine h.children a ha (fun hmem => ?_) c hc
      rcases List.mem_cons.mp hmem with hmem | hmem
      · exact hae hmem
      · exact hfinished hmem
  links := h.links

/-- What entering a formula leaves. -/
structure Entered (unfinished : List BoolExpr) (e : BoolExpr) (t t' : TernaryNodes) : Prop where
  wellFormed : t'.WellFormedBut unfinished
  mem : e ∈ t'.exprs
  extended : t.exprs <+: t'.exprs

theorem Entered.self (h : t.WellFormedBut unfinished) {e : BoolExpr} (he : e ∈ t.exprs) :
    Entered unfinished e t t := ⟨h, he, List.prefix_refl _⟩

theorem linkBoth_exprs (left right parent : BoolExpr) :
    (t.linkBoth left right parent).exprs = t.exprs := by
  unfold linkBoth
  split <;> rfl

theorem WellFormedBut.linkBoth (h : t.WellFormedBut unfinished) {left right parent : BoolExpr}
    (hparent : parent ∈ t.exprs) (hchildren : parent.children = [left, right]) :
    (t.linkBoth left right parent).WellFormedBut unfinished ∧
      (left, parent) ∈ (t.linkBoth left right parent).links ∧
      (right, parent) ∈ (t.linkBoth left right parent).links := by
  have hleft : left ∈ parent.children := by simp [hchildren]
  have hright : right ∈ parent.children := by simp [hchildren]
  unfold TernaryNodes.linkBoth
  split
  · rename_i hsame
    refine ⟨h.link hparent hleft, ?_, ?_⟩
    · simp [TernaryNodes.link]
    · simp [TernaryNodes.link, hsame]
  · refine ⟨(h.link hparent hleft).link hparent hright, ?_, ?_⟩ <;> simp [TernaryNodes.link]

/-- Entering both operands and linking them closes the node. -/
theorem Entered.binary {e left right : BoolExpr} {t₁ t₂ : TernaryNodes}
    (hleft : Entered (e :: unfinished) left (t.enter e) t₁)
    (hright : Entered (e :: unfinished) right t₁ t₂) (hchildren : e.children = [left, right]) :
    Entered unfinished e t (t₂.linkBoth left right e) := by
  have hext : (t.enter e).exprs <+: t₂.exprs := hleft.extended.trans hright.extended
  have he : e ∈ t₂.exprs := hext.subset (by simp [TernaryNodes.enter])
  obtain ⟨hwf, hlinkLeft, hlinkRight⟩ := hright.wellFormed.linkBoth he hchildren
  refine ⟨hwf.close fun c hc => ?_, ?_, ?_⟩
  · rw [linkBoth_exprs]
    simp only [hchildren, List.mem_cons, List.not_mem_nil, or_false] at hc
    rcases hc with rfl | rfl
    · exact ⟨hright.extended.subset hleft.mem, hlinkLeft⟩
    · exact ⟨hright.mem, hlinkRight⟩
  · rw [linkBoth_exprs]
    exact he
  · rw [linkBoth_exprs]
    exact (List.prefix_append _ _).trans hext

theorem ternaryNodeIndex_entered (e : BoolExpr) (h : t.WellFormedBut unfinished) :
    Entered unfinished e t (ternaryNodeIndex e t) := by
  induction e generalizing t unfinished with
  | var id =>
    unfold ternaryNodeIndex
    split
    · exact .self h ‹_›
    · rename_i hnew
      refine ⟨(h.enter hnew).close fun c hc => ?_, ?_, List.prefix_append _ _⟩
      · cases hc
      · simp [TernaryNodes.enter]
  | not a ih =>
    unfold ternaryNodeIndex
    split
    · exact .self h ‹_›
    · rename_i hnew
      have hoperand := ih (h.enter hnew)
      have he : BoolExpr.not a ∈ (ternaryNodeIndex a (t.enter (.not a))).exprs :=
        hoperand.extended.subset (by simp [TernaryNodes.enter])
      have hchild : a ∈ (BoolExpr.not a).children := List.mem_singleton.mpr rfl
      refine ⟨(hoperand.wellFormed.link he hchild).close fun c hc => ?_, he, ?_⟩
      · rw [List.mem_singleton.mp hc]
        exact ⟨hoperand.mem, by simp [TernaryNodes.link]⟩
      · exact (List.prefix_append _ _).trans hoperand.extended
  | and a b iha ihb | or a b iha ihb | xor a b iha ihb =>
    unfold ternaryNodeIndex
    split
    · exact .self h ‹_›
    · rename_i hnew
      have hleft := iha (h.enter hnew)
      exact hleft.binary (ihb hleft.wellFormed) rfl

end TernaryNodes
end KeplerFormal
