import KeplerFormal.Core.SatQuery

/-!
# Clauses that define literals

A solver under construction labels each variable and clause with the side selected at that
moment; named leaves have literals. `Extends` says what adding to it may do: new variables and
clauses have one label, every model of the larger set meets a condition, and every model of the
smaller one that meets it extends to the new variables.

* `Extends.trans`: steps compose, and their conditions add up.
* `define`, `addLeaf_spec`, `constrain`: a defined variable, a free leaf, clauses over old
  variables.
* `allows_iff`: what an extension allows of the variables it started with.
-/
namespace KeplerFormal.Core

universe u v w

/-- Variables are numbered from 0; their labels stand in a list. -/
structure CnfState (S : Type u) (V : Type v) (C : Type w) where
  labels : List V := []
  clauses : List (C × Clause Nat) := []
  variablePartition : V
  clausePartition : C
  leafLits : List (S × Lit Nat) := []

namespace CnfState
variable {S : Type u} {V : Type v} {C : Type w}

def vars (a : CnfState S V C) : Nat := a.labels.length

def query (a : CnfState S V C) : Query Nat := a.clauses.map Prod.snd

def newVar (a : CnfState S V C) : Lit Nat × CnfState S V C :=
  (⟨a.vars, true⟩, { a with labels := a.labels ++ [a.variablePartition] })

def addClauses (a : CnfState S V C) (q : Query Nat) : CnfState S V C :=
  { a with clauses := a.clauses ++ q.map fun c => (a.clausePartition, c) }

/-- A new variable and the clauses that define it. -/
def define (a : CnfState S V C) (q : Lit Nat → Query Nat) : Lit Nat × CnfState S V C :=
  (a.newVar.1, a.newVar.2.addClauses (q a.newVar.1))

/-- A new variable for a leaf. -/
def addLeaf (a : CnfState S V C) (s : S) : Lit Nat × CnfState S V C :=
  (a.newVar.1, { a.newVar.2 with leafLits := (s, a.newVar.1) :: a.leafLits })

@[simp] theorem vars_newVar (a : CnfState S V C) : a.newVar.2.vars = a.vars + 1 := by
  simp [newVar, vars]

@[simp] theorem vars_addClauses (a : CnfState S V C) (q : Query Nat) :
    (a.addClauses q).vars = a.vars := rfl

@[simp] theorem vars_define (a : CnfState S V C) (q : Lit Nat → Query Nat) :
    (a.define q).2.vars = a.vars + 1 := by
  simp [define]

@[simp] theorem query_addClauses (a : CnfState S V C) (q : Query Nat) :
    (a.addClauses q).query = a.query ++ q := by
  simp [query, addClauses]

@[simp] theorem query_define (a : CnfState S V C) (q : Lit Nat → Query Nat) :
    (a.define q).2.query = a.query ++ q ⟨a.vars, true⟩ := by
  simp [define]
  rfl

/-! ## Models -/

/-- Two values of the variables agree below `n`. -/
def Agree (n : Nat) (ν ν' : Nat → Bool) : Prop := ∀ i < n, ν' i = ν i

/-- All variables of the clauses are below `n`. -/
def Bounded (n : Nat) (q : Query Nat) : Prop := ∀ c ∈ q, ∀ l ∈ c, l.atom < n

theorem Agree.trans {n m : Nat} {ν ν' ν'' : Nat → Bool} (h : Agree n ν ν') (hnm : n ≤ m)
    (h' : Agree m ν' ν'') : Agree n ν ν'' := fun i hi => by
  rw [h' i (by omega), h i hi]

theorem Agree.update (n : Nat) (ν : Nat → Bool) (b : Bool) :
    Agree n ν (Function.update ν n b) := fun i hi => Function.update_of_ne (by omega) _ _

theorem Agree.evalLit {n : Nat} {ν ν' : Nat → Bool} (h : Agree n ν ν') {l : Lit Nat}
    (hl : l.atom < n) : evalLit ν' l = evalLit ν l := evalLit_congr (h l.atom hl)

theorem Agree.evalQuery {n : Nat} {ν ν' : Nat → Bool} (h : Agree n ν ν') {q : Query Nat}
    (hq : Bounded n q) : evalQuery ν' q = evalQuery ν q :=
  evalQuery_congr fun c hc l hl => h l.atom (hq c hc l hl)

theorem Bounded.mono {n m : Nat} {q : Query Nat} (h : Bounded n q) (hnm : n ≤ m) : Bounded m q :=
  fun c hc l hl => lt_of_lt_of_le (h c hc l hl) hnm

theorem Bounded.append {n : Nat} {p q : Query Nat} (hp : Bounded n p) (hq : Bounded n q) :
    Bounded n (p ++ q) := fun c hc => (List.mem_append.mp hc).elim (hp c) (hq c)

variable [DecidableEq S]

/-- The clauses hold, and the leaves have the values `σ`. -/
structure Models (a : CnfState S V C) (σ : S → Bool) (ν : Nat → Bool) : Prop where
  clauses : evalQuery ν a.query = true
  leaves : ∀ s l, a.leafLits.lookup s = some l → evalLit ν l = σ s

/-- The sides `v` and `c` are selected, and only existing variables are used. -/
structure Wf (v : V) (c : C) (a : CnfState S V C) : Prop where
  variablePartition : a.variablePartition = v
  clausePartition : a.clausePartition = c
  clauses : Bounded a.vars a.query
  leaves : ∀ s l, a.leafLits.lookup s = some l → l.atom < a.vars

theorem Models.congr {v : V} {c : C} {a : CnfState S V C} {σ : S → Bool} {ν ν' : Nat → Bool}
    (h : a.Models σ ν) (hwf : Wf v c a) (hagree : Agree a.vars ν ν') : a.Models σ ν' := by
  refine ⟨?_, ?_⟩
  · rw [hagree.evalQuery hwf.clauses]
    exact h.clauses
  · intro s l hl
    rw [hagree.evalLit (hwf.leaves s l hl)]
    exact h.leaves s l hl

/-- What an addition may do. The condition `P` is on the leaves and on the old variables. -/
structure Extends (v : V) (c : C) (a b : CnfState S V C)
    (P : (S → Bool) → (Nat → Bool) → Prop) : Prop where
  wf : Wf v c b
  labels : ∃ k, b.labels = a.labels ++ List.replicate k v
  clauses : ∃ q : Query Nat, b.clauses = a.clauses ++ q.map fun d => (c, d)
  leaves : ∀ s l, a.leafLits.lookup s = some l → b.leafLits.lookup s = some l
  sound : ∀ σ ν, b.Models σ ν → P σ ν
  complete : ∀ σ ν, a.Models σ ν → P σ ν → ∃ ν', Agree a.vars ν ν' ∧ b.Models σ ν'

/-- The literal has the value `f` of the leaves. -/
structure Denotes (a : CnfState S V C) (l : Lit Nat) (f : (S → Bool) → Bool) : Prop where
  lt : l.atom < a.vars
  value : ∀ σ ν, a.Models σ ν → evalLit ν l = f σ

section Extends
variable {v : V} {c : C} {a b d : CnfState S V C} {P Q : (S → Bool) → (Nat → Bool) → Prop}

theorem Extends.vars_le (h : Extends v c a b P) : a.vars ≤ b.vars := by
  obtain ⟨k, hk⟩ := h.labels
  simp [vars, hk]

theorem Extends.models (h : Extends v c a b P) {σ : S → Bool} {ν : Nat → Bool}
    (hb : b.Models σ ν) : a.Models σ ν := by
  obtain ⟨q, hq⟩ := h.clauses
  refine ⟨?_, fun s l hl => hb.leaves s l (h.leaves s l hl)⟩
  have hclauses := hb.clauses
  unfold query at hclauses
  rw [hq, List.map_append, evalQuery_append, Bool.and_eq_true] at hclauses
  exact hclauses.1

theorem Denotes.mono {l : Lit Nat} {f : (S → Bool) → Bool} (hl : a.Denotes l f)
    (h : Extends v c a b P) : b.Denotes l f :=
  ⟨lt_of_lt_of_le hl.lt h.vars_le, fun σ ν hb => hl.value σ ν (h.models hb)⟩

theorem Denotes.neg {l : Lit Nat} {f : (S → Bool) → Bool} (hl : a.Denotes l f) :
    a.Denotes l.neg fun σ => !f σ :=
  ⟨hl.lt, fun σ ν ha => by rw [evalLit_neg, hl.value σ ν ha]⟩

theorem Denotes.congr {l : Lit Nat} {f g : (S → Bool) → Bool} (hl : a.Denotes l f)
    (h : ∀ σ ν, a.Models σ ν → f σ = g σ) : a.Denotes l g :=
  ⟨hl.lt, fun σ ν ha => by rw [hl.value σ ν ha, h σ ν ha]⟩

theorem Extends.refl (hwf : Wf v c a) : Extends v c a a fun _ _ => True where
  wf := hwf
  labels := ⟨0, by simp⟩
  clauses := ⟨[], by simp⟩
  leaves := fun _ _ hl => hl
  sound := fun _ _ _ => trivial
  complete := fun _ ν ha _ => ⟨ν, fun _ _ => rfl, ha⟩

theorem Extends.weaken (h : Extends v c a b P) (hPQ : ∀ σ ν, P σ ν ↔ Q σ ν) :
    Extends v c a b Q :=
  { h with
    sound := fun σ ν hb => (hPQ σ ν).mp (h.sound σ ν hb)
    complete := fun σ ν ha hQ => h.complete σ ν ha ((hPQ σ ν).mpr hQ) }

/-- Two additions in turn; the second condition is on the variables of the start. -/
theorem Extends.trans (hab : Extends v c a b P) (hbd : Extends v c b d Q)
    (hQ : ∀ σ ν ν', Agree a.vars ν ν' → Q σ ν → Q σ ν') :
    Extends v c a d fun σ ν => P σ ν ∧ Q σ ν := by
  obtain ⟨k, hk⟩ := hab.labels
  obtain ⟨m, hm⟩ := hbd.labels
  obtain ⟨p, hp⟩ := hab.clauses
  obtain ⟨q, hq⟩ := hbd.clauses
  refine ⟨hbd.wf, ⟨k + m, ?_⟩, ⟨p ++ q, ?_⟩, ?_, ?_, ?_⟩
  · rw [hm, hk, List.append_assoc, List.replicate_add]
  · rw [hq, hp, List.append_assoc, List.map_append]
  · exact fun s l hl => hbd.leaves s l (hab.leaves s l hl)
  · exact fun σ ν hd => ⟨hab.sound σ ν (hbd.models hd), hbd.sound σ ν hd⟩
  · intro σ ν ha hPQ
    obtain ⟨ν', hagree, hb⟩ := hab.complete σ ν ha hPQ.1
    obtain ⟨ν'', hagree', hd⟩ := hbd.complete σ ν' hb (hQ σ ν ν' hagree hPQ.2)
    exact ⟨ν'', hagree.trans hab.vars_le hagree', hd⟩

/-- Additions without a condition of their own. -/
theorem Extends.trans_true (hab : Extends v c a b fun _ _ => True)
    (hbd : Extends v c b d fun _ _ => True) : Extends v c a d fun _ _ => True :=
  (hab.trans hbd fun _ _ _ _ _ => trivial).weaken fun _ _ => and_iff_left trivial

end Extends

/-! ## The three additions -/

section Additions
variable {v : V} {c : C} {a : CnfState S V C}

/-- Clauses over existing variables. -/
theorem constrain (hwf : Wf v c a) {q : Query Nat} {P : (S → Bool) → (Nat → Bool) → Prop}
    (hbound : Bounded a.vars q)
    (hq : ∀ σ ν, a.Models σ ν → (evalQuery ν q = true ↔ P σ ν)) :
    Extends v c a (a.addClauses q) P := by
  have hmodels : ∀ σ ν, (a.addClauses q).Models σ ν ↔
      a.Models σ ν ∧ evalQuery ν q = true := by
    intro σ ν
    constructor
    · intro h
      have hclauses := h.clauses
      rw [query_addClauses, evalQuery_append, Bool.and_eq_true] at hclauses
      exact ⟨⟨hclauses.1, h.leaves⟩, hclauses.2⟩
    · intro h
      refine ⟨?_, h.1.leaves⟩
      rw [query_addClauses, evalQuery_append, h.1.clauses, h.2]
      rfl
  refine ⟨⟨hwf.variablePartition, hwf.clausePartition, ?_, hwf.leaves⟩, ⟨0, by simp [addClauses]⟩,
    ⟨q, by simp [addClauses, hwf.clausePartition]⟩, fun _ _ hl => hl, ?_, ?_⟩
  · rw [query_addClauses]
    exact hwf.clauses.append hbound
  · intro σ ν h
    rw [hmodels] at h
    exact (hq σ ν h.1).mp h.2
  · intro σ ν ha hP
    exact ⟨ν, fun _ _ => rfl, (hmodels σ ν).mpr ⟨ha, (hq σ ν ha).mpr hP⟩⟩

/-- A new variable whose clauses give it the value `f`. -/
theorem define_spec (hwf : Wf v c a) {q : Lit Nat → Query Nat} {f : (S → Bool) → Bool}
    (hbound : Bounded (a.vars + 1) (q ⟨a.vars, true⟩))
    (hq : ∀ σ ν, a.Models σ ν → (evalQuery ν (q ⟨a.vars, true⟩) = true ↔ ν a.vars = f σ)) :
    Extends v c a (a.define q).2 (fun _ _ => True) ∧ (a.define q).2.Denotes (a.define q).1 f := by
  have hmodels : ∀ σ ν, (a.define q).2.Models σ ν ↔ a.Models σ ν ∧ ν a.vars = f σ := by
    intro σ ν
    constructor
    · intro h
      have hclauses := h.clauses
      rw [query_define, evalQuery_append, Bool.and_eq_true] at hclauses
      have ha : a.Models σ ν := ⟨hclauses.1, h.leaves⟩
      exact ⟨ha, (hq σ ν ha).mp hclauses.2⟩
    · intro h
      refine ⟨?_, h.1.leaves⟩
      rw [query_define, evalQuery_append, h.1.clauses, (hq σ ν h.1).mpr h.2]
      rfl
  refine ⟨⟨⟨hwf.variablePartition, hwf.clausePartition, ?_, ?_⟩, ⟨1, ?_⟩, ⟨q ⟨a.vars, true⟩, ?_⟩,
    fun _ _ hl => hl, fun _ _ _ => trivial, ?_⟩, ⟨?_, ?_⟩⟩
  · rw [query_define, vars_define]
    exact (hwf.clauses.mono (Nat.le_succ _)).append hbound
  · intro s l hl
    rw [vars_define]
    exact Nat.lt_succ_of_lt (hwf.leaves s l hl)
  · simp [define, newVar, addClauses, hwf.variablePartition]
  · simp [define, newVar, addClauses, hwf.clausePartition]
  · intro σ ν ha _
    have hagree := Agree.update a.vars ν (f σ)
    refine ⟨_, hagree, (hmodels σ _).mpr ⟨ha.congr hwf hagree, ?_⟩⟩
    exact Function.update_self ..
  · rw [vars_define]
    exact Nat.lt_succ_self _
  · intro σ ν h
    exact (evalLit_mk_true ν a.vars).trans ((hmodels σ ν).mp h).2

/-- A new leaf is free. -/
theorem addLeaf_spec (hwf : Wf v c a) {s : S} (hs : a.leafLits.lookup s = none) :
    Extends v c a (a.addLeaf s).2 (fun _ _ => True) ∧
      (a.addLeaf s).2.Denotes (a.addLeaf s).1 fun σ => σ s := by
  have hlookup : ∀ t l, (a.addLeaf s).2.leafLits.lookup t = some l ↔
      (t = s ∧ l = ⟨a.vars, true⟩) ∨ a.leafLits.lookup t = some l := by
    intro t l
    unfold addLeaf newVar
    dsimp only
    rw [List.lookup_cons]
    by_cases hsame : t = s
    · subst hsame
      simp [hs, eq_comm]
    · simp [beq_false_of_ne hsame, hsame]
  have hquery : (a.addLeaf s).2.query = a.query := rfl
  have hvars : (a.addLeaf s).2.vars = a.vars + 1 := by simp [addLeaf, newVar, vars]
  refine ⟨⟨⟨hwf.variablePartition, hwf.clausePartition, ?_, ?_⟩, ⟨1, ?_⟩, ⟨[], ?_⟩, ?_,
    fun _ _ _ => trivial, ?_⟩, ⟨?_, ?_⟩⟩
  · rw [hquery, hvars]
    exact hwf.clauses.mono (Nat.le_succ _)
  · intro t l hl
    rw [hvars]
    obtain ⟨-, rfl⟩ | hold := (hlookup t l).mp hl
    · exact Nat.lt_succ_self _
    · exact Nat.lt_succ_of_lt (hwf.leaves t l hold)
  · simp [addLeaf, newVar, hwf.variablePartition]
  · simp [addLeaf, newVar]
  · exact fun t l hl => (hlookup t l).mpr (.inr hl)
  · intro σ ν ha _
    have hagree := Agree.update a.vars ν (σ s)
    refine ⟨_, hagree, ⟨by rw [hquery, hagree.evalQuery hwf.clauses]; exact ha.clauses, ?_⟩⟩
    intro t l hl
    obtain ⟨rfl, rfl⟩ | hold := (hlookup t l).mp hl
    · rw [evalLit_mk_true]
      exact Function.update_self ..
    · rw [hagree.evalLit (hwf.leaves t l hold)]
      exact ha.leaves t l hold
  · rw [hvars]
    exact Nat.lt_succ_self _
  · intro σ ν h
    exact h.leaves s _ ((hlookup s _).mpr (.inl ⟨rfl, rfl⟩))

end Additions

/-! ## The variables of the start -/

/-- The clauses leave the values `ν` of the first variables possible. -/
def Allows (n : Nat) (b : CnfState S V C) (ν : Nat → Bool) : Prop :=
  ∃ ν', Agree n ν ν' ∧ evalQuery ν' b.query = true

/-- An extension allows the models of the start that meet its condition. -/
theorem allows_iff {v : V} {c : C} {a b : CnfState S V C}
    {P : (S → Bool) → (Nat → Bool) → Prop} (hwf : Wf v c a) (h : Extends v c a b P)
    (hP : ∀ σ ν ν', Agree a.vars ν ν' → P σ ν' → P σ ν) (ν : Nat → Bool) :
    b.Allows a.vars ν ↔ ∃ σ, a.Models σ ν ∧ P σ ν := by
  constructor
  · intro hallows
    obtain ⟨ν', hagree, hclauses⟩ := hallows
    -- the leaves take the values of their literals
    have hb : b.Models (fun s => ((b.leafLits.lookup s).map (evalLit ν')).getD false) ν' :=
      ⟨hclauses, fun s l hl => by rw [hl]; rfl⟩
    have hback : Agree a.vars ν' ν := fun i hi => (hagree i hi).symm
    exact ⟨_, (h.models hb).congr hwf hback, hP _ ν ν' hagree (h.sound _ ν' hb)⟩
  · intro hmodels
    obtain ⟨σ, ha, hPσ⟩ := hmodels
    obtain ⟨ν', hagree, hb⟩ := h.complete σ ν ha hPσ
    exact ⟨ν', hagree, hb.clauses⟩

end CnfState
end KeplerFormal.Core
