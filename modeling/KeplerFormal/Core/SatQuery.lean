import Mathlib.Data.List.Basic
import Mathlib.Data.List.Dedup
import Mathlib.Data.List.Sublists
import Mathlib.Logic.Function.Basic

/-!
# Clause sets and solvers

Literals over an arbitrary type `A` of atoms, clauses as disjunctions of
literals and queries as conjunctions of clauses. A model `m : M` gives every
atom a truth value through `ev : M → A → Bool`.

* `evalQuery_append`, `evalQuery_congr`: how queries compose, and that a query
  depends only on the atoms it mentions.
* `eval_litEquivalence`: the two clauses of an equivalence.
* `satisfiable_guarded`: an activation literal switches the rest of its clause on.
* `SatSolver`: an incremental solver whose `sat` and `unsat` answers carry their
  soundness; `unknown` promises nothing.
* `evalQuery_filter`: implied clauses do not matter.
* `renameQuery`: a query over other atoms, valued through the renaming.
* `exhaustive`, `exhaustiveOver`: the solver that tries every model of a finite cover,
  and the one for models that are functions of finitely many variables.
-/
namespace KeplerFormal.Core

universe u v w

structure Lit (A : Type u) where
  atom : A
  positive : Bool
  deriving DecidableEq, Repr

abbrev Clause (A : Type u) := List (Lit A)

abbrev Query (A : Type u) := List (Clause A)

section Eval
variable {A : Type u} (val : A → Bool)

def Lit.neg (l : Lit A) : Lit A := { l with positive := !l.positive }

def evalLit (l : Lit A) : Bool := val l.atom == l.positive

def evalClause (c : Clause A) : Bool := c.any (evalLit val)

def evalQuery (q : Query A) : Bool := q.all (evalClause val)

@[simp] theorem evalLit_mk_true (a : A) : evalLit val ⟨a, true⟩ = val a := by
  simp [evalLit]

@[simp] theorem evalLit_mk_false (a : A) : evalLit val ⟨a, false⟩ = !val a := by
  simp [evalLit]

@[simp] theorem evalLit_neg (l : Lit A) : evalLit val l.neg = !evalLit val l := by
  cases l with
  | mk a p => cases p <;> cases h : val a <;> simp [evalLit, Lit.neg, h]

theorem evalClause_iff {c : Clause A} :
    evalClause val c = true ↔ ∃ l ∈ c, evalLit val l = true := by
  simp [evalClause]

@[simp] theorem evalClause_singleton (l : Lit A) : evalClause val [l] = evalLit val l := by
  simp [evalClause]

@[simp] theorem evalClause_pair (l r : Lit A) :
    evalClause val [l, r] = (evalLit val l || evalLit val r) := by
  simp [evalClause]

theorem evalQuery_iff {q : Query A} :
    evalQuery val q = true ↔ ∀ c ∈ q, evalClause val c = true := by
  simp [evalQuery]

@[simp] theorem evalQuery_nil : evalQuery val [] = true := rfl

@[simp] theorem evalQuery_cons (c : Clause A) (q : Query A) :
    evalQuery val (c :: q) = (evalClause val c && evalQuery val q) := rfl

@[simp] theorem evalQuery_append (p q : Query A) :
    evalQuery val (p ++ q) = (evalQuery val p && evalQuery val q) := by
  simp [evalQuery]

theorem evalQuery_flatMap {B : Type v} (xs : List B) (f : B → Query A) :
    evalQuery val (xs.flatMap f) = true ↔ ∀ x ∈ xs, evalQuery val (f x) = true := by
  simp [evalQuery, List.all_flatMap]

theorem evalQuery_map {B : Type v} (xs : List B) (f : B → Clause A) :
    evalQuery val (xs.map f) = true ↔ ∀ x ∈ xs, evalClause val (f x) = true := by
  simp [evalQuery]

/-- Two clauses that force two literals to one value. -/
def litEquivalence (l r : Lit A) : Query A := [[l.neg, r], [l, r.neg]]

@[simp] theorem eval_litEquivalence (l r : Lit A) :
    evalQuery val (litEquivalence l r) = (evalLit val l == evalLit val r) := by
  simp only [litEquivalence, evalQuery_cons, evalClause_pair, evalLit_neg, evalQuery_nil]
  cases evalLit val l <;> cases evalLit val r <;> rfl

end Eval

theorem evalLit_congr {A : Type u} {val val' : A → Bool} {l : Lit A}
    (h : val l.atom = val' l.atom) : evalLit val l = evalLit val' l := by
  simp only [evalLit, h]

theorem evalClause_congr {A : Type u} {val val' : A → Bool} {c : Clause A}
    (h : ∀ l ∈ c, val l.atom = val' l.atom) : evalClause val c = evalClause val' c := by
  induction c with
  | nil => rfl
  | cons l c ih =>
    have hl := evalLit_congr (h l (by simp))
    have hc := ih fun l' hl' => h l' (by simp [hl'])
    simp only [evalClause] at hc
    simp only [evalClause, List.any_cons, hl, hc]

theorem evalQuery_congr {A : Type u} {val val' : A → Bool} {q : Query A}
    (h : ∀ c ∈ q, ∀ l ∈ c, val l.atom = val' l.atom) : evalQuery val q = evalQuery val' q := by
  induction q with
  | nil => rfl
  | cons c q ih =>
    rw [evalQuery_cons, evalQuery_cons, evalClause_congr (h c (by simp)),
      ih fun c' hc' => h c' (by simp [hc'])]

/-! ## Order and repetition do not count -/

theorem evalClause_of_mem_iff {A : Type u} (val : A → Bool) {c d : Clause A}
    (h : ∀ l, l ∈ c ↔ l ∈ d) : evalClause val c = evalClause val d := by
  rw [Bool.eq_iff_iff, evalClause_iff, evalClause_iff]
  exact exists_congr fun l => and_congr_left' (h l)

/-- Clauses that follow from the ones that stay can go. -/
theorem evalQuery_filter {A : Type u} (val : A → Bool) {q : Query A} {keep : Clause A → Bool}
    (h : evalQuery val (q.filter keep) = true →
      ∀ c ∈ q, keep c = false → evalClause val c = true) :
    evalQuery val (q.filter keep) = evalQuery val q := by
  rw [Bool.eq_iff_iff]
  constructor
  · intro hkept
    rw [evalQuery_iff]
    intro c hc
    cases hkeep : keep c with
    | true => exact (evalQuery_iff val).mp hkept c (List.mem_filter.mpr ⟨hc, hkeep⟩)
    | false => exact h hkept c hc hkeep
  · intro hall
    rw [evalQuery_iff]
    intro c hc
    exact (evalQuery_iff val).mp hall c (List.mem_of_mem_filter hc)

/-! ## Renaming atoms -/

section Rename
variable {A : Type u} {B : Type v} (f : A → B)

def Lit.rename (l : Lit A) : Lit B := ⟨f l.atom, l.positive⟩

def renameQuery (q : Query A) : Query B := q.map fun c => c.map (Lit.rename f)

@[simp] theorem evalLit_rename (val : B → Bool) (l : Lit A) :
    evalLit val (l.rename f) = evalLit (val ∘ f) l := rfl

@[simp] theorem evalQuery_renameQuery (val : B → Bool) (q : Query A) :
    evalQuery val (renameQuery f q) = evalQuery (val ∘ f) q := by
  simp only [evalQuery, renameQuery, List.all_map]
  congr 1
  funext c
  simp only [Function.comp_apply, evalClause, List.any_map]
  rfl

end Rename

/-! ## Activation literals -/

section Guarded
variable {A : Type u} [DecidableEq A] {q : Query A} {c : Clause A} {sel : Lit A}

/-- A literal that occurs in one clause only, negated, turns the rest of that clause
on: assuming the literal is adding the rest. -/
theorem satisfiable_guarded (hguard : sel.neg :: c ∈ q) (hfresh : ∀ l ∈ c, l.atom ≠ sel.atom)
    (honly : ∀ d ∈ q, (∃ l ∈ d, l.atom = sel.atom) → d = sel.neg :: c) :
    (∃ val, evalQuery val q = true ∧ evalLit val sel = true) ↔
      ∃ val, evalQuery val (c :: q) = true := by
  constructor
  · rintro ⟨val, hq, hsel⟩
    refine ⟨val, ?_⟩
    have hc := (evalQuery_iff val).mp hq _ hguard
    obtain ⟨l, hl, hval⟩ := (evalClause_iff val).mp hc
    rw [evalQuery_cons, hq, Bool.and_true, evalClause_iff]
    rcases List.mem_cons.mp hl with rfl | hl
    · rw [evalLit_neg, hsel] at hval
      cases hval
    · exact ⟨l, hl, hval⟩
  · rintro ⟨val, hval⟩
    rw [evalQuery_cons, Bool.and_eq_true] at hval
    -- set the literal and keep everything else
    refine ⟨Function.update val sel.atom sel.positive, ?_, by simp [evalLit]⟩
    have hkept : ∀ l : Lit A, l.atom ≠ sel.atom →
        evalLit (Function.update val sel.atom sel.positive) l = evalLit val l :=
      fun l hl => evalLit_congr (Function.update_of_ne hl _ _)
    rw [evalQuery_iff]
    intro d hd
    rw [evalClause_iff]
    by_cases hmem : ∃ l ∈ d, l.atom = sel.atom
    · obtain ⟨l, hl, hval'⟩ := (evalClause_iff val).mp hval.1
      rw [honly d hd hmem]
      exact ⟨l, List.mem_cons_of_mem _ hl, by rw [hkept l (hfresh l hl), hval']⟩
    · obtain ⟨l, hl, hval'⟩ := (evalClause_iff val).mp ((evalQuery_iff val).mp hval.2 d hd)
      exact ⟨l, hl, by rw [hkept l fun h => hmem ⟨l, hl, h⟩, hval']⟩

end Guarded

/-! ## Solvers -/

inductive Answer (M : Type v) where
  | sat (model : M)
  | unsat
  | unknown

/-- `none` is an unlimited resource. -/
structure SolveLimits where
  conflict : Option Nat
  decision : Option Nat
  tick : Option Nat
  deriving DecidableEq, Repr

def SolveLimits.unlimited : SolveLimits := ⟨none, none, none⟩

/-- A solver with internal state `σ`: learned clauses, heuristics, spent budget
and whatever else may make two equal queries end differently. -/
structure SatSolver (σ : Type w) {A : Type u} {M : Type v} (ev : M → A → Bool) where
  solve : σ → Query A → List (Lit A) → SolveLimits → Answer M × σ
  sat_sound : ∀ s q as lim m, (solve s q as lim).1 = .sat m →
    evalQuery (ev m) q = true ∧ ∀ a ∈ as, evalLit (ev m) a = true
  unsat_sound : ∀ s q as lim, (solve s q as lim).1 = .unsat →
    ∀ m, evalQuery (ev m) q = true → ∃ a ∈ as, evalLit (ev m) a = false

/-- No answer is limited by a resource. -/
def SatSolver.Decides {σ : Type w} {A : Type u} {M : Type v} {ev : M → A → Bool}
    (S : SatSolver σ ev) : Prop :=
  ∀ s q as lim, (S.solve s q as lim).1 ≠ .unknown

/-- Only a limit makes the solver give up. -/
def SatSolver.DecidesUnlimited {σ : Type w} {A : Type u} {M : Type v} {ev : M → A → Bool}
    (S : SatSolver σ ev) : Prop := ∀ s q as, (S.solve s q as .unlimited).1 ≠ .unknown

theorem SatSolver.Decides.unlimited {σ : Type w} {A : Type u} {M : Type v} {ev : M → A → Bool}
    {S : SatSolver σ ev} (h : S.Decides) : S.DecidesUnlimited := fun s q as => h s q as .unlimited

def Satisfiable {A : Type u} {M : Type v} (ev : M → A → Bool) (q : Query A) : Prop :=
  ∃ m, evalQuery (ev m) q = true

section Solver
variable {σ : Type w} {A : Type u} {M : Type v} {ev : M → A → Bool}

theorem SatSolver.not_satisfiable (S : SatSolver σ ev) {s : σ} {q : Query A} {lim : SolveLimits}
    (h : (S.solve s q [] lim).1 = .unsat) : ¬ Satisfiable ev q := by
  rintro ⟨m, hm⟩
  obtain ⟨a, ha, _⟩ := S.unsat_sound s q [] lim h m hm
  simp at ha

theorem SatSolver.satisfiable (S : SatSolver σ ev) {s : σ} {q : Query A} {lim : SolveLimits}
    {m : M} (h : (S.solve s q [] lim).1 = .sat m) : Satisfiable ev q :=
  ⟨m, (S.sat_sound s q [] lim m h).1⟩

/-- Tries the models of `cover q as` in order. Every model has to agree with one
of them on the atoms of the query and of the assumptions. -/
def exhaustive (cover : Query A → List (Lit A) → List M)
    (covers : ∀ q as m, ∃ m' ∈ cover q as,
      evalQuery (ev m') q = evalQuery (ev m) q ∧
        ∀ a ∈ as, evalLit (ev m') a = evalLit (ev m) a) :
    SatSolver Unit ev where
  solve s q as _ :=
    match (cover q as).find? fun m => evalQuery (ev m) q && as.all (evalLit (ev m)) with
    | some m => (.sat m, s)
    | none => (.unsat, s)
  sat_sound := by
    intro s q as lim m h
    split at h
    · rename_i m' hm'
      have hfound := List.find?_some hm'
      simp only [Answer.sat.injEq] at h
      subst h
      simpa using hfound
    · simp at h
  unsat_sound := by
    intro s q as lim h m hm
    split at h
    · simp at h
    · rename_i hnone
      obtain ⟨m', hmem, hq, ha⟩ := covers q as m
      have hno := List.find?_eq_none.mp hnone m' hmem
      rw [hq, hm, Bool.true_and] at hno
      simp only [List.all_eq_true, not_forall, Bool.not_eq_true] at hno
      obtain ⟨a, hmemA, hval⟩ := hno
      exact ⟨a, hmemA, by rw [← ha a hmemA, hval]⟩

theorem exhaustive_decides (cover : Query A → List (Lit A) → List M)
    (covers : ∀ q as m, ∃ m' ∈ cover q as,
      evalQuery (ev m') q = evalQuery (ev m) q ∧
        ∀ a ∈ as, evalLit (ev m') a = evalLit (ev m) a) :
    (exhaustive cover covers).Decides := by
  intro s q as lim h
  simp only [exhaustive] at h
  split at h <;> cases h

/-- The solver for models that are functions of the variables: it tries the finite sets
of variables that occur. -/
def exhaustiveOver {V : Type v} [DecidableEq V] (ev : (V → Bool) → A → Bool)
    (leaves : A → List V)
    (depends : ∀ a m m', (∀ x ∈ leaves a, m x = m' x) → ev m a = ev m' a) :
    SatSolver Unit ev :=
  exhaustive
    (fun q as => ((q.flatten ++ as).flatMap (leaves ·.atom)).dedup.sublists.map
      fun xs x => decide (x ∈ xs))
    (by
      intro q as m
      let kept := ((q.flatten ++ as).flatMap (leaves ·.atom)).dedup.filter m
      have hatom : ∀ l ∈ q.flatten ++ as, ev (fun x => decide (x ∈ kept)) l.atom = ev m l.atom := by
        intro l hl
        refine depends _ _ _ fun x hx => ?_
        have hmem : x ∈ ((q.flatten ++ as).flatMap (leaves ·.atom)).dedup :=
          List.mem_dedup.mpr (List.mem_flatMap.mpr ⟨l, hl, hx⟩)
        have hkept : x ∈ kept ↔ m x = true := List.mem_filter.trans (and_iff_right hmem)
        cases hm : m x with
        | true => exact decide_eq_true (hkept.mpr hm)
        | false => exact decide_eq_false fun h => by simp [hm] at hkept; exact hkept h
      refine ⟨fun x => decide (x ∈ kept), ?_, ?_, ?_⟩
      · exact List.mem_map.mpr ⟨kept, List.mem_sublists.mpr List.filter_sublist, rfl⟩
      · refine evalQuery_congr fun c hc l hl => hatom l ?_
        exact List.mem_append_left _ (List.mem_flatten.mpr ⟨c, hc, hl⟩)
      · intro a ha
        exact evalLit_congr (hatom a (List.mem_append_right _ ha)))

theorem exhaustiveOver_decides {V : Type v} [DecidableEq V] (ev : (V → Bool) → A → Bool)
    (leaves : A → List V)
    (depends : ∀ a m m', (∀ x ∈ leaves a, m x = m' x) → ev m a = ev m' a) :
    (exhaustiveOver ev leaves depends).Decides := exhaustive_decides _ _

end Solver

end KeplerFormal.Core
