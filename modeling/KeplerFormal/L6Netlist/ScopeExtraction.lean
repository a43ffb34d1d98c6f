import Mathlib

/-!
# Verification scopes (`src/scope/ScopeExtraction.cpp`)

Two hierarchies are compared from the top down. A pair of designs that compares equal is
skipped and its children are compared, any other pair is a scope to verify. The pass looks
at the number and ids of the instances, and at the ids of the terms on the nets.

* `Netlist`: designs, the bit terms `τ` of which only `getID` is read, the primitive
  cells `π` and the instance parameters `ρ`.
* `collectVerificationScopes`: the pass; `none` stands for reading an instance list past
  its end.
* `visit_spec`: what the pass selects.
* `Identical`: the same after flattening.
* `scopes_sound_iff`: a skipped pair is identical exactly where the attributes that the
  pass does not read agree.
-/
namespace KeplerFormal

structure SNLBitNet (τ : Type) where
  bitTerms : List τ
  /-- instance id and bit term of the instance's model -/
  instTerms : List (Nat × τ)
  deriving DecidableEq, Repr

structure SNLInstance (ρ : Type) where
  id : Nat
  model : Nat
  parameters : ρ
  deriving DecidableEq, Repr

/-- `cell` is the library cell of a primitive. -/
structure SNLDesign (τ π ρ : Type) where
  bitTerms : List τ
  bitNets : List (SNLBitNet τ)
  instances : List (SNLInstance ρ)
  cell : Option π
  deriving DecidableEq, Repr

/-- All designs of a database; an instance is of an earlier design. -/
structure Netlist (τ π ρ : Type) where
  design : Nat → SNLDesign τ π ρ
  acyclic : ∀ d, ∀ i ∈ (design d).instances, i.model < d

namespace Netlist
variable {τ π ρ : Type} (N : Netlist τ π ρ) (getID : τ → Nat)

def isPrimitive (i : SNLInstance ρ) : Bool := (N.design i.model).cell.isSome

/-- mirrors src/scope/ScopeExtraction.cpp:67-121 -/
def netsAreEqual (net0 net1 : SNLBitNet τ) : Bool :=
  net0.bitTerms.map getID == net1.bitTerms.map getID &&
    net0.instTerms.map (fun t => (t.1, getID t.2)) == net1.instTerms.map fun t => (t.1, getID t.2)

/-- mirrors src/scope/ScopeExtraction.cpp:34-128 -/
def modelsAreEqual (d : Nat × Nat) : Bool :=
  let design0 := N.design d.1
  let design1 := N.design d.2
  design0.instances.map (·.id) == design1.instances.map (·.id) &&
    design0.bitNets.length == design1.bitNets.length &&
    (design0.bitNets.zip design1.bitNets).all fun nets => netsAreEqual getID nets.1 nets.2

/-- The models of the instances that are not primitive. -/
def hierarchical (d : Nat) : List Nat :=
  ((N.design d).instances.filter fun i => !N.isPrimitive i).map (·.model)

/-- The pairs that the children of an equal pair are compared in. -/
def childPairs (d : Nat × Nat) : List (Nat × Nat) := (N.hierarchical d.1).zip (N.hierarchical d.2)

/-- The loop over the second list reads past the end of the first. -/
def overruns (d : Nat × Nat) : Bool :=
  decide ((N.hierarchical d.1).length < (N.hierarchical d.2).length)

/-- The designs of a hierarchy, each as often as it is instantiated. -/
def sizeWithin : Nat → Nat → Nat
  | 0, _ => 1
  | depth + 1, d => 1 + ((N.design d).instances.map fun i => sizeWithin depth i.model).sum

def size (d : Nat) : Nat := N.sizeWithin d d

/-- The loop over the stack; the last child pushed is popped first. A pop takes a design
of the first hierarchy, so `fuel` is their number. -/
def visit : Nat → List (Nat × Nat) → List (Nat × Nat) → Option (List (Nat × Nat))
  | 0, _, designsToVerify => some designsToVerify
  | _ + 1, [], designsToVerify => some designsToVerify
  | fuel + 1, d :: stack, designsToVerify =>
    if !N.modelsAreEqual getID d then visit fuel stack (d :: designsToVerify)
    else if N.overruns d then none
    else visit fuel ((N.childPairs d).reverse ++ stack) designsToVerify

/-- mirrors src/scope/ScopeExtraction.cpp:23-156 -/
def collectVerificationScopes (top0 top1 : Nat) : Option (List (Nat × Nat)) :=
  N.visit getID (N.size top0) [(top0, top1)] []

/-! ## What the pass selects -/

/-- One step down from a pair that compares equal. -/
def Descends (d e : Nat × Nat) : Prop := N.modelsAreEqual getID d = true ∧ e ∈ N.childPairs d

def Visited (top d : Nat × Nat) : Prop := Relation.ReflTransGen (N.Descends getID) top d

variable {N getID}

theorem hierarchical_model_lt {d c : Nat} (h : c ∈ N.hierarchical d) : c < d := by
  obtain ⟨i, hi, rfl⟩ := List.mem_map.mp h
  exact N.acyclic d i (List.mem_filter.mp hi).1

theorem childPairs_fst_lt {d e : Nat × Nat} (h : e ∈ N.childPairs d) : e.1 < d.1 :=
  hierarchical_model_lt (List.of_mem_zip h).1

theorem sizeWithin_mono {m n : Nat} (h : m ≤ n) (d : Nat) : N.sizeWithin m d ≤ N.sizeWithin n d := by
  induction m generalizing n d with
  | zero =>
    cases n with
    | zero => exact Nat.le_refl _
    | succ n => exact Nat.le_add_right 1 _
  | succ m ih =>
    obtain ⟨n, rfl⟩ : ∃ k, n = k + 1 := ⟨n - 1, by omega⟩
    exact Nat.add_le_add_left (List.sum_le_sum fun i _ => ih (by omega) i.model) 1

/-- A hierarchy has its top, and the hierarchies of its instances. -/
theorem sum_size_lt (d : Nat) : ((N.hierarchical d).map N.size).sum < N.size d := by
  have hfilter : ((N.hierarchical d).map N.size).sum ≤
      ((N.design d).instances.map fun i => N.size i.model).sum := by
    unfold hierarchical
    rw [List.map_map]
    exact List.Sublist.sum_le_sum (List.filter_sublist.map _) fun _ _ => Nat.zero_le _
  refine Nat.lt_of_le_of_lt hfilter ?_
  cases d with
  | zero =>
    have hnone : (N.design 0).instances = [] := by
      cases hinst : (N.design 0).instances with
      | nil => rfl
      | cons i rest =>
        have hlt := N.acyclic 0 i (by rw [hinst]; exact List.mem_cons_self)
        omega
    rw [hnone]
    exact Nat.lt_of_lt_of_le Nat.zero_lt_one (sizeWithin_mono (Nat.zero_le _) 0)
  | succ d =>
    have hsum : ((N.design (d + 1)).instances.map fun i => N.size i.model).sum ≤
        ((N.design (d + 1)).instances.map fun i => N.sizeWithin d i.model).sum :=
      List.sum_le_sum fun i hi => sizeWithin_mono (Nat.lt_succ_iff.mp (N.acyclic _ i hi)) _
    exact Nat.lt_of_le_of_lt hsum (Nat.lt_add_of_pos_left Nat.zero_lt_one)

def stackSize (N : Netlist τ π ρ) (stack : List (Nat × Nat)) : Nat :=
  (stack.map fun d => N.size d.1).sum

theorem map_fst_zip_sublist {α β : Type} (xs : List α) (ys : List β) :
    ((xs.zip ys).map Prod.fst).Sublist xs := by
  induction xs generalizing ys with
  | nil => exact List.Sublist.slnil
  | cons x xs ih =>
    cases ys with
    | nil => exact List.nil_sublist _
    | cons y ys => exact (ih ys).cons_cons x

theorem stackSize_children (d : Nat × Nat) (stack : List (Nat × Nat)) :
    N.stackSize ((N.childPairs d).reverse ++ stack) < N.size d.1 + N.stackSize stack := by
  have hzip : ((N.childPairs d).map fun e => N.size e.1).sum ≤
      ((N.hierarchical d.1).map N.size).sum := by
    have hsub : ((N.childPairs d).map Prod.fst).Sublist (N.hierarchical d.1) :=
      map_fst_zip_sublist _ _
    have hmap := List.Sublist.sum_le_sum (hsub.map N.size) fun _ _ => Nat.zero_le _
    rwa [List.map_map] at hmap
  have hlt := Nat.lt_of_le_of_lt hzip (sum_size_lt d.1)
  unfold stackSize
  rw [List.map_append, List.sum_append, List.map_reverse, List.sum_reverse]
  omega

/-- From a stack the pass visits what can be reached from its pairs: it stops at a list
that is overrun, or selects the pairs that do not compare equal. -/
theorem visit_spec {fuel : Nat} {stack designsToVerify : List (Nat × Nat)}
    (hfuel : N.stackSize stack ≤ fuel) :
    (N.visit getID fuel stack designsToVerify = none ∧
      ∃ d ∈ stack, ∃ e, N.Visited getID d e ∧ N.modelsAreEqual getID e = true ∧
        N.overruns e = true) ∨
    (∃ selected, N.visit getID fuel stack designsToVerify = some selected ∧
      (∀ d ∈ stack, ∀ e, N.Visited getID d e → N.modelsAreEqual getID e = true →
        N.overruns e = false) ∧
      ∀ e, e ∈ selected ↔ e ∈ designsToVerify ∨
        ∃ d ∈ stack, N.Visited getID d e ∧ N.modelsAreEqual getID e = false) := by
  induction fuel generalizing stack designsToVerify with
  | zero =>
    have hnil : stack = [] := by
      cases stack with
      | nil => rfl
      | cons d stack =>
        have hlt := sum_size_lt (N := N) d.1
        simp only [stackSize, List.map_cons, List.sum_cons] at hfuel
        omega
    subst hnil
    exact .inr ⟨designsToVerify, rfl, by simp, by simp⟩
  | succ fuel ih =>
    cases stack with
    | nil => exact .inr ⟨designsToVerify, rfl, by simp, by simp⟩
    | cons d stack =>
      have hsize : N.size d.1 + N.stackSize stack ≤ fuel + 1 := by
        simpa [stackSize] using hfuel
      have hpos := sum_size_lt (N := N) d.1
      unfold visit
      cases hequal : N.modelsAreEqual getID d with
      | false =>
        -- a selected pair is not descended from
        have honly : ∀ e, N.Visited getID d e → e = d := by
          intro e he
          rcases Relation.ReflTransGen.cases_head he with rfl | ⟨c, hc, _⟩
          · rfl
          · rw [hc.1] at hequal
            cases hequal
        simp only [Bool.not_false, if_true]
        rcases @ih stack (d :: designsToVerify) (by omega) with
          ⟨hrun, c, hc, hreach⟩ | ⟨selected, hrun, hsafe, hmem⟩
        · exact .inl ⟨hrun, c, List.mem_cons_of_mem _ hc, hreach⟩
        · refine .inr ⟨selected, hrun, fun c hc e he heq => ?_, fun e => ?_⟩
          · rcases List.mem_cons.mp hc with rfl | hc
            · rw [honly e he, hequal] at heq
              cases heq
            · exact hsafe c hc e he heq
          · rw [hmem e, List.mem_cons]
            constructor
            · rintro ((rfl | hold) | ⟨c, hc, hreach⟩)
              · exact .inr ⟨e, List.mem_cons_self, .refl, hequal⟩
              · exact .inl hold
              · exact .inr ⟨c, List.mem_cons_of_mem _ hc, hreach⟩
            · rintro (hold | ⟨c, hc, hreach, hne⟩)
              · exact .inl (.inr hold)
              · rcases List.mem_cons.mp hc with rfl | hc
                · exact .inl (.inl (honly e hreach))
                · exact .inr ⟨c, hc, hreach, hne⟩
      | true =>
        simp only [Bool.not_true, Bool.false_eq_true, if_false]
        cases hover : N.overruns d with
        | true => exact .inl ⟨rfl, d, List.mem_cons_self, d, .refl, hequal, hover⟩
        | false =>
          simp only [Bool.false_eq_true, if_false]
          have hchildren := stackSize_children (N := N) d stack
          -- what `d` reaches is `d` and what its children reach
          have hhead : ∀ e, N.Visited getID d e ↔
              e = d ∨ ∃ c ∈ N.childPairs d, N.Visited getID c e := by
            intro e
            constructor
            · intro he
              rcases Relation.ReflTransGen.cases_head he with rfl | ⟨c, hc, hreach⟩
              · exact .inl rfl
              · exact .inr ⟨c, hc.2, hreach⟩
            · rintro (rfl | ⟨c, hc, hreach⟩)
              · exact .refl
              · exact .head ⟨hequal, hc⟩ hreach
          rcases @ih ((N.childPairs d).reverse ++ stack) designsToVerify (by omega) with
            ⟨hrun, c, hc, e, he, hrest⟩ | ⟨selected, hrun, hsafe, hmem⟩
          · rcases List.mem_append.mp hc with hc | hc
            · exact .inl ⟨hrun, d, List.mem_cons_self, e,
                (hhead e).mpr (.inr ⟨c, List.mem_reverse.mp hc, he⟩), hrest⟩
            · exact .inl ⟨hrun, c, List.mem_cons_of_mem _ hc, e, he, hrest⟩
          · refine .inr ⟨selected, hrun, fun c hc e he heq => ?_, fun e => ?_⟩
            · rcases List.mem_cons.mp hc with rfl | hc
              · rcases (hhead e).mp he with rfl | ⟨c, hc, hreach⟩
                · exact hover
                · exact hsafe c (List.mem_append_left _ (List.mem_reverse.mpr hc)) e hreach heq
              · exact hsafe c (List.mem_append_right _ hc) e he heq
            · rw [hmem e]
              constructor
              · rintro (hold | ⟨c, hc, hreach, hne⟩)
                · exact .inl hold
                · rcases List.mem_append.mp hc with hc | hc
                  · exact .inr ⟨d, List.mem_cons_self,
                      (hhead e).mpr (.inr ⟨c, List.mem_reverse.mp hc, hreach⟩), hne⟩
                  · exact .inr ⟨c, List.mem_cons_of_mem _ hc, hreach, hne⟩
              · rintro (hold | ⟨c, hc, hreach, hne⟩)
                · exact .inl hold
                · rcases List.mem_cons.mp hc with rfl | hc
                  · rcases (hhead e).mp hreach with rfl | ⟨c, hc, hreach⟩
                    · rw [hequal] at hne
                      cases hne
                    · exact .inr ⟨c, List.mem_append_left _ (List.mem_reverse.mpr hc), hreach, hne⟩
                  · exact .inr ⟨c, List.mem_append_right _ hc, hreach, hne⟩

theorem collectVerificationScopes_spec (top0 top1 : Nat) :
    (N.collectVerificationScopes getID top0 top1 = none ∧
      ∃ e, N.Visited getID (top0, top1) e ∧ N.modelsAreEqual getID e = true ∧
        N.overruns e = true) ∨
    (∃ selected, N.collectVerificationScopes getID top0 top1 = some selected ∧
      (∀ e, N.Visited getID (top0, top1) e → N.modelsAreEqual getID e = true →
        N.overruns e = false) ∧
      ∀ e, e ∈ selected ↔
        N.Visited getID (top0, top1) e ∧ N.modelsAreEqual getID e = false) := by
  have hfuel : N.stackSize [(top0, top1)] ≤ N.size top0 := by simp [stackSize]
  rcases @visit_spec _ _ _ _ getID _ _ [] hfuel with
    ⟨hrun, d, hd, hreach⟩ | ⟨selected, hrun, hsafe, hmem⟩
  · rw [List.mem_singleton.mp hd] at hreach
    exact .inl ⟨hrun, hreach⟩
  · refine .inr ⟨selected, hrun, hsafe _ List.mem_cons_self, fun e => ?_⟩
    simpa using hmem e

/-! ## What a skipped pair should have in common -/

variable (N getID)

/-- The attributes of a pair that `modelsAreEqual` does not read. -/
structure UncheckedAgree (d : Nat × Nat) : Prop where
  bitTerms : (N.design d.1).bitTerms = (N.design d.2).bitTerms
  bitNets : (N.design d.1).bitNets = (N.design d.2).bitNets
  parameters :
    (N.design d.1).instances.map (·.parameters) = (N.design d.2).instances.map (·.parameters)
  cells : (N.design d.1).instances.map (fun i => (N.design i.model).cell) =
    (N.design d.2).instances.map fun i => (N.design i.model).cell

/-- The same after flattening: the terms, nets, instances and library cells of both designs
are the same, and so are those of the designs that they instantiate. -/
inductive Identical : Nat × Nat → Prop
  | intro {d : Nat × Nat}
      (ids : (N.design d.1).instances.map (·.id) = (N.design d.2).instances.map (·.id))
      (rest : N.UncheckedAgree d) (children : ∀ e ∈ N.childPairs d, Identical e) : Identical d

/-- `d` is at the same place of both hierarchies, and no scope is above, at or below it. -/
def Skipped (selected : List (Nat × Nat)) (top d : Nat × Nat) : Prop :=
  top ∉ selected ∧
    Relation.ReflTransGen (fun c e => e ∈ N.childPairs c ∧ e ∉ selected) top d ∧
    ∀ e, Relation.ReflTransGen (fun b c => c ∈ N.childPairs b) d e → e ∉ selected

/-- The pass stays inside the instance lists, and what it skips is identical. -/
def ScopesSound (top0 top1 : Nat) : Prop :=
  ∃ selected, N.collectVerificationScopes getID top0 top1 = some selected ∧
    ∀ d, N.Skipped selected (top0, top1) d → N.Identical d

variable {N getID}

theorem modelsAreEqual_ids {d : Nat × Nat} (h : N.modelsAreEqual getID d = true) :
    (N.design d.1).instances.map (·.id) = (N.design d.2).instances.map (·.id) := by
  unfold modelsAreEqual at h
  simp only [Bool.and_eq_true, beq_iff_eq] at h
  exact h.1.1

section
variable {selected : List (Nat × Nat)} {top : Nat × Nat}
  (hselected : ∀ e, e ∈ selected ↔ N.Visited getID top e ∧ N.modelsAreEqual getID e = false)
include hselected

/-- A visited pair that is not selected compares equal. -/
theorem equal_of_not_selected {d : Nat × Nat} (hvisited : N.Visited getID top d)
    (hnot : d ∉ selected) : N.modelsAreEqual getID d = true := by
  cases hequal : N.modelsAreEqual getID d with
  | true => rfl
  | false => exact absurd ((hselected d).mpr ⟨hvisited, hequal⟩) hnot

theorem not_selected_of_equal {d : Nat × Nat} (hequal : N.modelsAreEqual getID d = true) :
    d ∉ selected := by
  intro hmem
  rw [((hselected d).mp hmem).2] at hequal
  cases hequal

theorem visited_of_unselected_path {d : Nat × Nat} (htop : top ∉ selected)
    (hpath : Relation.ReflTransGen (fun c e => e ∈ N.childPairs c ∧ e ∉ selected) top d) :
    N.Visited getID top d ∧ d ∉ selected := by
  induction hpath with
  | refl => exact ⟨.refl, htop⟩
  | tail _ hstep ih =>
    have hequal := equal_of_not_selected hselected ih.1 ih.2
    exact ⟨ih.1.tail ⟨hequal, hstep.1⟩, hstep.2⟩

theorem unselected_path_of_visited {d : Nat × Nat} (hvisited : N.Visited getID top d)
    (hequal : N.modelsAreEqual getID d = true) :
    Relation.ReflTransGen (fun c e => e ∈ N.childPairs c ∧ e ∉ selected) top d := by
  induction hvisited with
  | refl => exact .refl
  | tail _ hstep ih =>
    exact (ih hstep.1).tail ⟨hstep.2, not_selected_of_equal hselected hequal⟩

/-- Below a visited pair whose descendants all compare equal nothing is selected. -/
theorem below_not_selected {d e : Nat × Nat}
    (hbelow : ∀ c, N.Visited getID d c → N.modelsAreEqual getID c = true)
    (hpath : Relation.ReflTransGen (fun b c => c ∈ N.childPairs b) d e) :
    N.Visited getID d e ∧ e ∉ selected := by
  induction hpath with
  | refl => exact ⟨.refl, not_selected_of_equal hselected (hbelow d .refl)⟩
  | tail _ hstep ih =>
    have hvisited := ih.1.tail ⟨hbelow _ ih.1, hstep⟩
    exact ⟨hvisited, not_selected_of_equal hselected (hbelow _ hvisited)⟩

/-- A visited pair is skipped exactly when it and all pairs below it compare equal. -/
theorem skipped_iff {d : Nat × Nat} :
    N.Skipped selected top d ↔ N.Visited getID top d ∧
      ∀ e, N.Visited getID d e → N.modelsAreEqual getID e = true := by
  constructor
  · rintro ⟨htop, hpath, hbelow⟩
    obtain ⟨hvisited, _⟩ := visited_of_unselected_path hselected htop hpath
    refine ⟨hvisited, fun e he => ?_⟩
    exact equal_of_not_selected hselected (hvisited.trans he)
      (hbelow e (Relation.ReflTransGen.mono (fun _ _ hstep => hstep.2) _ _ he))
  · rintro ⟨hvisited, hbelow⟩
    refine ⟨?_, unselected_path_of_visited hselected hvisited (hbelow d .refl),
      fun e he => (below_not_selected hselected hbelow he).2⟩
    rcases Relation.ReflTransGen.cases_head hvisited with rfl | ⟨c, hc, _⟩
    · exact not_selected_of_equal hselected (hbelow top .refl)
    · exact not_selected_of_equal hselected hc.1

end

/-- Where every pair below agrees in the attributes that are not read, it is identical. -/
theorem identical_of_agree {d : Nat × Nat}
    (hbelow : ∀ e, N.Visited getID d e → N.modelsAreEqual getID e = true)
    (hagree : ∀ e, N.Visited getID d e → N.UncheckedAgree e) : N.Identical d := by
  induction hn : d.1 using Nat.strong_induction_on generalizing d with
  | _ n ih =>
    subst hn
    refine .intro (modelsAreEqual_ids (hbelow d .refl)) (hagree d .refl) fun e he => ?_
    have hstep : N.Descends getID d e := ⟨hbelow d .refl, he⟩
    exact ih e.1 (childPairs_fst_lt he) (fun c hc => hbelow c (hc.head hstep))
      (fun c hc => hagree c (hc.head hstep)) rfl

/-- Skipping is sound exactly where no visited pair of equal designs has fewer hierarchical
instances on the left, and the attributes that are not read agree in those that are equal
all the way down. -/
theorem scopes_sound_iff (N : Netlist τ π ρ) (getID : τ → Nat) (top0 top1 : Nat) :
    N.ScopesSound getID top0 top1 ↔
      ∀ d, N.Visited getID (top0, top1) d → N.modelsAreEqual getID d = true →
        N.overruns d = false ∧
          ((∀ e, N.Visited getID d e → N.modelsAreEqual getID e = true) → N.UncheckedAgree d) := by
  constructor
  · rintro ⟨selected, hrun, hsound⟩ d hvisited hequal
    rcases @collectVerificationScopes_spec _ _ _ N getID top0 top1 with
      ⟨hnone, _⟩ | ⟨selected', hrun', hsafe, hselected⟩
    · rw [hnone] at hrun
      cases hrun
    · obtain rfl : selected = selected' := Option.some.inj (hrun.symm.trans hrun')
      refine ⟨hsafe d hvisited hequal, fun hbelow => ?_⟩
      cases hsound d ((skipped_iff hselected).mpr ⟨hvisited, hbelow⟩) with
      | intro _ hagree _ => exact hagree
  · intro hcond
    rcases @collectVerificationScopes_spec _ _ _ N getID top0 top1 with
      ⟨_, e, hvisited, hequal, hover⟩ | ⟨selected, hrun, _, hselected⟩
    · rw [(hcond e hvisited hequal).1] at hover
      cases hover
    · refine ⟨selected, hrun, fun d hskipped => ?_⟩
      obtain ⟨hvisited, hbelow⟩ := (skipped_iff hselected).mp hskipped
      refine identical_of_agree hbelow fun e he => ?_
      exact (hcond e (hvisited.trans he) (hbelow e he)).2 fun c hc => hbelow c (he.trans hc)

/-! ## An AND cell against an OR cell -/

/-- The table of the cells `0` and `1` is their truth table; `2` and `3` are tops that
instantiate them. -/
def swappedCells : Netlist Nat (BitVec 4) Unit where
  design
    | 0 => ⟨[0, 1, 2], [], [], some 0b1000⟩
    | 1 => ⟨[0, 1, 2], [], [], some 0b1110⟩
    | 2 => ⟨[0, 1, 2], [⟨[0], [(0, 0)]⟩, ⟨[1], [(0, 1)]⟩, ⟨[2], [(0, 2)]⟩], [⟨0, 0, ()⟩], none⟩
    | 3 => ⟨[0, 1, 2], [⟨[0], [(0, 0)]⟩, ⟨[1], [(0, 1)]⟩, ⟨[2], [(0, 2)]⟩], [⟨0, 1, ()⟩], none⟩
    | _ => ⟨[], [], [], none⟩
  acyclic d := by
    match d with
    | 0 => simp
    | 1 => simp
    | 2 => simp
    | 3 => simp
    | _ + 4 => simp

/-- Nothing is selected for the tops, and they are not identical. -/
theorem scopes_unsound : ¬ swappedCells.ScopesSound id 2 3 := by
  rintro ⟨selected, hrun, hsound⟩
  have hnone : swappedCells.collectVerificationScopes id 2 3 = some [] := by decide
  obtain rfl : [] = selected := Option.some.inj (hnone.symm.trans hrun)
  cases hsound (2, 3) ⟨by simp, .refl, by simp⟩ with
  | intro _ hagree _ =>
    have hcells := hagree.cells
    revert hcells
    decide

/-- A primitive against a design with the same pins: the second list is longer. -/
example :
    (Netlist.collectVerificationScopes (τ := Nat) (π := Unit) (ρ := Unit)
      ⟨fun
        | 0 => ⟨[], [], [], some ()⟩
        | 1 => ⟨[], [], [], none⟩
        | 2 => ⟨[], [], [⟨0, 0, ()⟩], none⟩
        | 3 => ⟨[], [], [⟨0, 1, ()⟩], none⟩
        | _ => ⟨[], [], [], none⟩,
      fun d => by
        match d with
        | 0 => simp
        | 1 => simp
        | 2 => simp
        | 3 => simp
        | _ + 4 => simp⟩ id 2 3) = none := by
  decide

end Netlist
end KeplerFormal
