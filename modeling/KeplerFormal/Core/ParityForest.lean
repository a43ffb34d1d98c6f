import Mathlib.Data.List.Nodup
import Mathlib.Data.List.Perm.Subperm
import Mathlib.Logic.Function.Basic

/-!
# Union-find with parities

A forest of parent pointers in which each pointer says whether its two ends have equal or
opposite values.

* `find`, `mutableFind`, `unite`: the operations, with path compression.
* `Finds`: the root and the parity that the pointers of an element lead to.
* `find_eq_some_iff`: as much fuel as there are elements is enough.
* `WellFormed`: every element leads to a root; kept by all operations.
* `Respects`: a valuation that agrees with every pointer. `unite_spec`: uniting two elements adds
  exactly the new relation, or nothing where both already have one root.
* `uniteAll_spec`: the same for a list of relations.
-/
namespace KeplerFormal.Core

universe u
variable {α : Type u}

/-- The elements with their parent pointers; a root is its own parent. -/
structure ParityForest (α : Type u) where
  symbols : List α := []
  parent : α → α := id
  parity : α → Bool := fun _ => false

namespace ParityForest

/-! ## Roots -/

variable {f g : ParityForest α}

/-- The pointers of an element lead to a root in that many steps, with that parity. -/
inductive FindsIn (f : ParityForest α) : Nat → α → α → Bool → Prop
  | root {x : α} (hx : x ∈ f.symbols) (hroot : f.parent x = x) : FindsIn f 0 x x false
  | step {n : Nat} {x r : α} {b : Bool} (hx : x ∈ f.symbols) (hne : f.parent x ≠ x)
      (h : FindsIn f n (f.parent x) r b) : FindsIn f (n + 1) x r (f.parity x ^^ b)

def Finds (f : ParityForest α) (x r : α) (b : Bool) : Prop := ∃ n, f.FindsIn n x r b

theorem FindsIn.unique {n n' : Nat} {x r r' : α} {b b' : Bool} (h : f.FindsIn n x r b)
    (h' : f.FindsIn n' x r' b') : n = n' ∧ r = r' ∧ b = b' := by
  induction h generalizing n' r' b' with
  | root _ hroot =>
    cases h' with
    | root => exact ⟨rfl, rfl, rfl⟩
    | step _ hne => exact absurd hroot hne
  | step _ hne _ ih =>
    cases h' with
    | root _ hroot => exact absurd hroot hne
    | step _ _ hrest =>
      obtain ⟨rfl, rfl, rfl⟩ := ih hrest
      exact ⟨rfl, rfl, rfl⟩

theorem Finds.unique {x r r' : α} {b b' : Bool} (h : f.Finds x r b) (h' : f.Finds x r' b') :
    r = r' ∧ b = b' := by
  obtain ⟨_, hn⟩ := h
  obtain ⟨_, hn'⟩ := h'
  exact (hn.unique hn').2

theorem FindsIn.mem {n : Nat} {x r : α} {b : Bool} (h : f.FindsIn n x r b) : x ∈ f.symbols := by
  cases h with
  | root hx => exact hx
  | step hx => exact hx

theorem FindsIn.root_finds {n : Nat} {x r : α} {b : Bool} (h : f.FindsIn n x r b) :
    f.FindsIn 0 r r false := by
  induction h with
  | root hx hroot => exact .root hx hroot
  | step _ _ _ ih => exact ih

theorem FindsIn.parent_root {n : Nat} {x r : α} {b : Bool} (h : f.FindsIn n x r b) :
    f.parent r = r := by
  cases h.root_finds with
  | root _ hroot => exact hroot

/-- The elements on the way are different, as each has fewer steps to go. -/
theorem FindsIn.exists_path {n : Nat} {x r : α} {b : Bool} (h : f.FindsIn n x r b) :
    ∃ path : List α, path.Nodup ∧ path.length = n + 1 ∧
      ∀ y ∈ path, y ∈ f.symbols ∧ ∃ m ≤ n, ∃ s c, f.FindsIn m y s c := by
  induction h with
  | @root x hx hroot =>
    exact ⟨[x], List.nodup_singleton x, rfl, fun y hy =>
      List.mem_singleton.mp hy ▸ ⟨hx, 0, Nat.le_refl 0, x, false, .root hx hroot⟩⟩
  | @step n x r b hx hne h ih =>
    obtain ⟨path, hnodup, hlength, hpath⟩ := ih
    have hx' := FindsIn.step hx hne h
    refine ⟨x :: path, List.nodup_cons.mpr ⟨fun hmem => ?_, hnodup⟩, by simp [hlength], ?_⟩
    · obtain ⟨-, m, hm, s, c, hs⟩ := hpath x hmem
      have := (hs.unique hx').1
      omega
    · intro y hy
      obtain rfl | hy := List.mem_cons.mp hy
      · exact ⟨hx, n + 1, Nat.le_refl _, r, _, hx'⟩
      · obtain ⟨hmem, m, hm, hs⟩ := hpath y hy
        exact ⟨hmem, m, by omega, hs⟩

theorem FindsIn.lt_length {n : Nat} {x r : α} {b : Bool} (h : f.FindsIn n x r b) :
    n < f.symbols.length := by
  obtain ⟨path, hnodup, hlength, hpath⟩ := h.exists_path
  have hle := (List.subperm_of_subset hnodup fun y hy => (hpath y hy).1).length_le
  omega

/-- Every element leads to a root. -/
def WellFormed (f : ParityForest α) : Prop := ∀ x ∈ f.symbols, ∃ r b, f.Finds x r b

/-- The elements of `f` keep their roots and parities in `g`. -/
def Keeps (f g : ParityForest α) : Prop := ∀ x r b, f.Finds x r b → g.Finds x r b

theorem Keeps.refl (f : ParityForest α) : Keeps f f := fun _ _ _ h => h

theorem Keeps.trans {h : ParityForest α} (hfg : Keeps f g) (hgh : Keeps g h) : Keeps f h :=
  fun x r b hx => hgh x r b (hfg x r b hx)

theorem wellFormed_empty : WellFormed ({} : ParityForest α) :=
  fun _ hx => absurd hx List.not_mem_nil

theorem Keeps.wellFormed (h : Keeps f g) (hf : f.WellFormed) (hsame : g.symbols ⊆ f.symbols) :
    g.WellFormed := by
  intro x hx
  obtain ⟨r, b, hfinds⟩ := hf x (hsame hx)
  exact ⟨r, b, h x r b hfinds⟩

/-! ## Relations -/

/-- A valuation that agrees with every pointer. -/
def Respects (f : ParityForest α) (v : α → Bool) : Prop :=
  ∀ x r b, f.Finds x r b → v x = (v r ^^ b)

theorem Keeps.respects (h : Keeps f g) {v : α → Bool} (hv : g.Respects v) : f.Respects v :=
  fun x r b hx => hv x r b (h x r b hx)

theorem respects_empty (v : α → Bool) : Respects ({} : ParityForest α) v := by
  intro x r b ⟨_, hn⟩
  exact absurd hn.mem List.not_mem_nil

/-- Two elements with known roots are related by `inverted` exactly when the roots are by the
parity that `unite` stores. -/
theorem Respects.roots_iff {v : α → Bool} (hv : f.Respects v) {x y a b : α} {pa pb : Bool}
    (hx : f.Finds x a pa) (hy : f.Finds y b pb) (inverted : Bool) :
    (v x ^^ v y) = inverted ↔ v a = (v b ^^ ((pa ^^ pb) ^^ inverted)) := by
  rw [hv x a pa hx, hv y b pb hy]
  cases v a <;> cases v b <;> cases pa <;> cases pb <;> cases inverted <;> decide

/-- Old elements keep their roots, new ones are roots. -/
structure Grows (f g : ParityForest α) : Prop where
  keeps : Keeps f g
  new : ∀ x ∈ g.symbols, x ∈ f.symbols ∨ g.Finds x x false

theorem Grows.trans {h : ParityForest α} (hfg : Grows f g) (hgh : Grows g h) : Grows f h := by
  refine ⟨hfg.keeps.trans hgh.keeps, fun x hx => ?_⟩
  obtain hx | hx := hgh.new x hx
  · obtain hx | hx := hfg.new x hx
    · exact .inl hx
    · exact .inr (hgh.keeps x x false hx)
  · exact .inr hx

/-- New elements are unrelated to the others. -/
theorem Grows.respects_iff (h : Grows f g) (hf : f.WellFormed) {v : α → Bool} :
    g.Respects v ↔ f.Respects v := by
  refine ⟨h.keeps.respects, fun hv x r b hx => ?_⟩
  obtain ⟨n, hn⟩ := hx
  obtain hold | hroot := h.new x hn.mem
  · obtain ⟨r', b', hfinds⟩ := hf x hold
    obtain ⟨rfl, rfl⟩ := (h.keeps x r' b' hfinds).unique ⟨n, hn⟩
    exact hv x r' b' hfinds
  · obtain ⟨rfl, rfl⟩ := hroot.unique ⟨n, hn⟩
    simp

theorem Grows.mem (h : Grows f g) (hf : f.WellFormed) {x : α} (hx : x ∈ f.symbols) :
    x ∈ g.symbols := by
  obtain ⟨r, b, hfinds⟩ := hf x hx
  obtain ⟨_, hn⟩ := h.keeps x r b hfinds
  exact hn.mem

/-! ## Operations -/

variable [DecidableEq α]

def ensure (f : ParityForest α) (x : α) : ParityForest α :=
  if x ∈ f.symbols then f
  else
    { symbols := f.symbols ++ [x]
      parent := Function.update f.parent x x
      parity := Function.update f.parity x false }

def set (f : ParityForest α) (x y : α) (b : Bool) : ParityForest α :=
  { f with parent := Function.update f.parent x y, parity := Function.update f.parity x b }

def findIn (f : ParityForest α) : Nat → α → Option (α × Bool)
  | 0, _ => none
  | fuel + 1, x =>
    if x ∉ f.symbols then none
    else if f.parent x = x then some (x, false)
    else (f.findIn fuel (f.parent x)).map fun root => (root.1, f.parity x ^^ root.2)

/-- The root of an element and the parity between the two. -/
def find (f : ParityForest α) (x : α) : Option (α × Bool) := f.findIn f.symbols.length x

def mutableFindIn : Nat → ParityForest α → α → (α × Bool) × ParityForest α
  | 0, f, x => ((x, false), f)
  | fuel + 1, f, x =>
    let f := f.ensure x
    if f.parent x = x then ((x, false), f)
    else
      let out := mutableFindIn fuel f (f.parent x)
      let parity := f.parity x ^^ out.1.2
      ((out.1.1, parity), out.2.set x out.1.1 parity)

/-- The same for an element that may be new; the elements on the way point at the root
afterwards. -/
def mutableFind (f : ParityForest α) (x : α) : (α × Bool) × ParityForest α :=
  mutableFindIn (f.symbols.length + 1) f x

/-- Relates two elements, unless they have one root already. -/
def unite (f : ParityForest α) (x y : α) (inverted : Bool) : ParityForest α :=
  let left := f.mutableFind x
  let right := left.2.mutableFind y
  if left.1.1 = right.1.1 then right.2
  else right.2.set left.1.1 right.1.1 ((left.1.2 ^^ right.1.2) ^^ inverted)

theorem FindsIn.findIn {n fuel : Nat} {x r : α} {b : Bool} (h : f.FindsIn n x r b)
    (hfuel : n < fuel) : f.findIn fuel x = some (r, b) := by
  induction h generalizing fuel with
  | root hx hroot =>
    obtain ⟨fuel, rfl⟩ := Nat.exists_eq_add_of_lt hfuel
    simp [ParityForest.findIn, hx, hroot]
  | step hx hne _ ih =>
    obtain ⟨fuel, rfl⟩ := Nat.exists_eq_add_of_lt hfuel
    rw [ParityForest.findIn, if_neg (not_not.mpr hx), if_neg hne, ih (by omega)]
    rfl

theorem finds_of_findIn {fuel : Nat} {x r : α} {b : Bool} (h : f.findIn fuel x = some (r, b)) :
    f.Finds x r b := by
  induction fuel generalizing x r b with
  | zero => cases h
  | succ fuel ih =>
    rw [findIn] at h
    split_ifs at h with hx hroot
    · cases h
      exact ⟨0, .root hx hroot⟩
    · obtain ⟨⟨r', b'⟩, hrest, heq⟩ := Option.map_eq_some_iff.mp h
      cases heq
      obtain ⟨n, hn⟩ := ih hrest
      exact ⟨n + 1, .step hx hroot hn⟩

theorem find_eq_some_iff {x r : α} {b : Bool} : f.find x = some (r, b) ↔ f.Finds x r b :=
  ⟨finds_of_findIn, fun ⟨_, hn⟩ => hn.findIn hn.lt_length⟩

theorem find_eq_none_iff (hf : f.WellFormed) {x : α} : f.find x = none ↔ x ∉ f.symbols := by
  constructor
  · intro h hx
    obtain ⟨r, b, hfinds⟩ := hf x hx
    rw [find_eq_some_iff.mpr hfinds] at h
    cases h
  · intro hx
    cases h : f.find x with
    | none => rfl
    | some root =>
      obtain ⟨_, hn⟩ := find_eq_some_iff.mp h
      exact absurd hn.mem hx

theorem mem_ensure {x y : α} : y ∈ (f.ensure x).symbols ↔ y ∈ f.symbols ∨ y = x := by
  unfold ensure
  split
  · rename_i hx
    exact ⟨.inl, fun h => h.elim id fun heq => heq ▸ hx⟩
  · simp

theorem ensure_eq {x : α} (hx : x ∈ f.symbols) : f.ensure x = f := if_pos hx

theorem ensure_new {x : α} (hx : x ∉ f.symbols) : (f.ensure x).FindsIn 0 x x false := by
  refine .root (mem_ensure.mpr (.inr rfl)) ?_
  simp [ensure, hx]

theorem keeps_ensure (f : ParityForest α) (x : α) : Keeps f (f.ensure x) := by
  by_cases hx : x ∈ f.symbols
  · rw [ensure_eq hx]
    exact .refl f
  intro y r b ⟨n, hn⟩
  refine ⟨n, ?_⟩
  have hother {y : α} (hy : y ∈ f.symbols) :
      (f.ensure x).parent y = f.parent y ∧ (f.ensure x).parity y = f.parity y := by
    have hne : y ≠ x := fun h => hx (h ▸ hy)
    simp [ensure, hx, hne]
  induction hn with
  | root hy hroot => exact .root (mem_ensure.mpr (.inl hy)) (by rw [(hother hy).1, hroot])
  | step hy hne _ ih =>
    rw [← (hother hy).2]
    exact .step (mem_ensure.mpr (.inl hy)) (by rwa [(hother hy).1]) (by rwa [(hother hy).1])

theorem WellFormed.ensure (hf : f.WellFormed) (x : α) : (f.ensure x).WellFormed := by
  intro y hy
  by_cases hx : y ∈ f.symbols
  · obtain ⟨r, b, h⟩ := hf y hx
    exact ⟨r, b, keeps_ensure f x y r b h⟩
  · obtain rfl := (mem_ensure.mp hy).resolve_left hx
    exact ⟨y, false, 0, ensure_new hx⟩

theorem grows_ensure (f : ParityForest α) (x : α) : Grows f (f.ensure x) := by
  refine ⟨keeps_ensure f x, fun y hy => ?_⟩
  by_cases hx : x ∈ f.symbols
  · exact .inl (ensure_eq hx ▸ hy)
  · obtain hy | rfl := mem_ensure.mp hy
    · exact .inl hy
    · exact .inr ⟨0, ensure_new hx⟩

/-- An element may point at its root directly. -/
theorem keeps_set {x r : α} {b : Bool} (hx : f.Finds x r b) (hne : x ≠ r) :
    Keeps f (f.set x r b) := by
  obtain ⟨k, hk⟩ := hx
  have hroot := hk.parent_root
  have hr : (f.set x r b).FindsIn 0 r r false :=
    .root hk.root_finds.mem (by simp [set, Function.update_of_ne hne.symm, hroot])
  intro y s c ⟨n, hn⟩
  induction hn with
  | @root y hy hyroot =>
    have hyx : y ≠ x := by
      intro h
      subst h
      exact hne (hk.unique (.root hy hyroot)).2.1.symm
    exact ⟨0, .root hy (by simp [set, Function.update_of_ne hyx, hyroot])⟩
  | @step n y s c hy hyne h ih =>
    by_cases hyx : y = x
    · subst hyx
      obtain ⟨-, rfl, rfl⟩ := hk.unique (.step hy hyne h)
      have hstep : (f.set y r (f.parity y ^^ c)).FindsIn 1 y r
          ((f.set y r (f.parity y ^^ c)).parity y ^^ false) :=
        .step hy (by simp [set, hne.symm]) (by simpa [set] using hr)
      exact ⟨1, by simpa [set] using hstep⟩
    · obtain ⟨m, hm⟩ := ih
      have hstep : (f.set x r b).FindsIn (m + 1) y s ((f.set x r b).parity y ^^ c) :=
        .step hy (by simpa [set, Function.update_of_ne hyx] using hyne)
          (by simpa [set, Function.update_of_ne hyx] using hm)
      exact ⟨m + 1, by simpa [set, Function.update_of_ne hyx] using hstep⟩

/-- Compression returns the root and the parity, and keeps those of all elements. -/
theorem mutableFindIn_spec {n fuel : Nat} {x r : α} {b : Bool} (h : f.FindsIn n x r b)
    (hfuel : n < fuel) :
    (mutableFindIn fuel f x).1 = (r, b) ∧ Keeps f (mutableFindIn fuel f x).2 ∧
      (mutableFindIn fuel f x).2.symbols = f.symbols := by
  induction h generalizing fuel with
  | @root x hx hroot =>
    obtain ⟨fuel, rfl⟩ := Nat.exists_eq_add_of_lt hfuel
    rw [mutableFindIn, ensure_eq hx, if_pos hroot]
    exact ⟨rfl, .refl f, rfl⟩
  | @step n x r b hx hne h ih =>
    obtain ⟨fuel, rfl⟩ := Nat.exists_eq_add_of_lt hfuel
    have hsmaller : n < n + 1 + fuel := by omega
    obtain ⟨hout, hkeeps, hsame⟩ := ih hsmaller
    rw [mutableFindIn, ensure_eq hx, if_neg hne]
    simp only [hout]
    have hfinds : f.Finds x r (f.parity x ^^ b) := ⟨n + 1, .step hx hne h⟩
    have hxr : x ≠ r := by
      intro heq
      subst heq
      exact hne h.parent_root
    exact ⟨trivial, hkeeps.trans (keeps_set (hkeeps x r _ hfinds) hxr), hsame⟩

theorem mutableFind_spec (hf : f.WellFormed) (x : α) :
    (f.mutableFind x).2.Finds x (f.mutableFind x).1.1 (f.mutableFind x).1.2 ∧
      Grows f (f.mutableFind x).2 ∧ (f.mutableFind x).2.WellFormed := by
  by_cases hx : x ∈ f.symbols
  · obtain ⟨r, b, n, hn⟩ := hf x hx
    obtain ⟨hout, hkeeps, hsame⟩ := mutableFindIn_spec hn (Nat.lt_succ_of_lt hn.lt_length)
    rw [← mutableFind] at hout hkeeps hsame
    have hsub : (f.mutableFind x).2.symbols ⊆ f.symbols := by rw [hsame]; exact List.Subset.refl _
    refine ⟨?_, ⟨hkeeps, fun y hy => .inl (hsub hy)⟩, hkeeps.wellFormed hf hsub⟩
    rw [hout]
    exact hkeeps x r b ⟨n, hn⟩
  · have hnew := ensure_new hx
    have hout : f.mutableFind x = ((x, false), f.ensure x) := by
      rw [mutableFind, mutableFindIn, if_pos hnew.parent_root]
    rw [hout]
    exact ⟨⟨0, hnew⟩, grows_ensure f x, hf.ensure x⟩

/-- A root that is linked below another one takes its elements along. -/
theorem finds_link {a r : α} {c : Bool} (ha : f.FindsIn 0 a a false) (hr : f.FindsIn 0 r r false)
    (hne : a ≠ r) {n : Nat} {x s : α} {b : Bool} (h : f.FindsIn n x s b) :
    (s ≠ a → (f.set a r c).Finds x s b) ∧ (s = a → (f.set a r c).Finds x r (b ^^ c)) := by
  have hr' : (f.set a r c).FindsIn 0 r r false :=
    .root hr.mem (by simp [set, Function.update_of_ne hne.symm, hr.parent_root])
  induction h with
  | @root x hx hroot =>
    constructor
    · intro hxa
      exact ⟨0, .root hx (by simp [set, Function.update_of_ne hxa, hroot])⟩
    · intro hxa
      subst hxa
      have hstep : (f.set x r c).FindsIn 1 x r ((f.set x r c).parity x ^^ false) :=
        .step hx (by simp [set, hne.symm]) (by simpa [set] using hr')
      exact ⟨1, by simpa [set] using hstep⟩
  | @step n x s b hx hxne h ih =>
    have hxa : x ≠ a := fun heq => hxne (heq ▸ ha.parent_root)
    have hlift {t : α} {d : Bool} (hrest : (f.set a r c).Finds (f.parent x) t d) :
        (f.set a r c).Finds x t (f.parity x ^^ d) := by
      obtain ⟨m, hm⟩ := hrest
      have hstep : (f.set a r c).FindsIn (m + 1) x t ((f.set a r c).parity x ^^ d) :=
        .step hx (by simpa [set, Function.update_of_ne hxa] using hxne)
          (by simpa [set, Function.update_of_ne hxa] using hm)
      exact ⟨m + 1, by simpa [set, Function.update_of_ne hxa] using hstep⟩
    refine ⟨fun hs => hlift (ih.1 hs), fun hs => ?_⟩
    rw [Bool.xor_assoc]
    exact hlift (ih.2 hs)

/-- What `unite` does to the forest, when the roots of its arguments are known. -/
theorem unite_cases (hf : f.WellFormed) (x y : α) (inverted : Bool) :
    ∃ g a pa b pb, Grows f g ∧ g.WellFormed ∧ g.Finds x a pa ∧ g.Finds y b pb ∧
      f.unite x y inverted = if a = b then g else g.set a b ((pa ^^ pb) ^^ inverted) := by
  obtain ⟨hx, hgrows, hwf⟩ := mutableFind_spec hf x
  obtain ⟨hy, hgrows', hwf'⟩ := mutableFind_spec hwf y
  exact ⟨_, _, _, _, _, hgrows.trans hgrows', hwf', hgrows'.keeps _ _ _ hx, hy, rfl⟩

theorem finds_of_link {a r x : α} {c : Bool} (hf : f.WellFormed)
    (ha : f.FindsIn 0 a a false) (hr : f.FindsIn 0 r r false) (hne : a ≠ r) {s : α} {b : Bool}
    (h : (f.set a r c).Finds x s b) :
    f.Finds x s b ∨ (s = r ∧ ∃ d, f.Finds x a d ∧ b = (d ^^ c)) := by
  obtain ⟨_, hn⟩ := h
  obtain ⟨t, d, m, hm⟩ := hf x hn.mem
  obtain ⟨hother, hmoved⟩ := finds_link (c := c) ha hr hne hm
  by_cases hta : t = a
  · obtain ⟨rfl, rfl⟩ := (hmoved hta).unique ⟨_, hn⟩
    exact .inr ⟨rfl, d, hta ▸ ⟨m, hm⟩, rfl⟩
  · obtain ⟨rfl, rfl⟩ := (hother hta).unique ⟨_, hn⟩
    exact .inl ⟨m, hm⟩

/-- The valuations that a link keeps are those with the linked roots in that relation. -/
theorem respects_link {a r : α} {c : Bool} (hf : f.WellFormed) (ha : f.FindsIn 0 a a false)
    (hr : f.FindsIn 0 r r false) (hne : a ≠ r) (v : α → Bool) :
    (f.set a r c).Respects v ↔ f.Respects v ∧ v a = (v r ^^ c) := by
  have hlink {n : Nat} {x s : α} {b : Bool} (h : f.FindsIn n x s b) :=
    finds_link (c := c) ha hr hne h
  constructor
  · intro hv
    have hroots : v a = (v r ^^ c) := by
      simpa using hv a r _ ((hlink ha).2 rfl)
    refine ⟨fun x s b ⟨n, hn⟩ => ?_, hroots⟩
    by_cases hs : s = a
    · have hx := hv x r _ ((hlink hn).2 hs)
      rw [hx, hs, hroots, Bool.xor_assoc, Bool.xor_comm c b]
    · exact hv x s b ((hlink hn).1 hs)
  · intro ⟨hv, hroots⟩ x s b hx
    obtain hold | ⟨rfl, d, hd, rfl⟩ := finds_of_link hf ha hr hne hx
    · exact hv x s b hold
    · rw [hv x a d hd, hroots, Bool.xor_assoc, Bool.xor_comm c d]

theorem WellFormed.link {a r : α} {c : Bool} (hf : f.WellFormed) (ha : f.FindsIn 0 a a false)
    (hr : f.FindsIn 0 r r false) (hne : a ≠ r) : (f.set a r c).WellFormed := by
  intro x hx
  obtain ⟨s, b, n, hn⟩ := hf x hx
  obtain ⟨hother, hmoved⟩ := finds_link (c := c) ha hr hne hn
  by_cases hs : s = a
  · exact ⟨r, _, hmoved hs⟩
  · exact ⟨s, b, hother hs⟩

/-- Uniting adds the relation to those the forest has, or nothing where its arguments have one
root: then the relation holds in all valuations of the forest or in none. -/
theorem unite_spec (hf : f.WellFormed) (x y : α) (inverted : Bool) :
    (f.unite x y inverted).WellFormed ∧ f.symbols ⊆ (f.unite x y inverted).symbols ∧
      (x ∈ (f.unite x y inverted).symbols ∧ y ∈ (f.unite x y inverted).symbols) ∧
      (∀ v, (f.unite x y inverted).Respects v → f.Respects v) ∧
      (∀ v, f.Respects v → (v x ^^ v y) = inverted → (f.unite x y inverted).Respects v) ∧
      ∀ v v', (f.unite x y inverted).Respects v → (v x ^^ v y) = inverted →
        (f.unite x y inverted).Respects v' → (v' x ^^ v' y) = inverted := by
  obtain ⟨g, a, pa, b, pb, hgrows, hwf, hx, hy, heq⟩ := unite_cases hf x y inverted
  have hmemx : x ∈ g.symbols := hx.choose_spec.mem
  have hmemy : y ∈ g.symbols := hy.choose_spec.mem
  rw [heq]
  split_ifs with hab
  · refine ⟨hwf, fun z hz => hgrows.mem hf hz, ⟨hmemx, hmemy⟩, fun v => (hgrows.respects_iff hf).mp,
      fun v hv _ => (hgrows.respects_iff hf).mpr hv, fun v v' hv hrel hv' => ?_⟩
    subst hab
    rw [hv.roots_iff hx hy] at hrel
    rw [hv'.roots_iff hx hy]
    generalize ((pa ^^ pb) ^^ inverted) = parity at hrel ⊢
    cases parity <;> simp_all
  · have ha := hx.choose_spec.root_finds
    have hb := hy.choose_spec.root_finds
    have hlink := fun v => respects_link (c := (pa ^^ pb) ^^ inverted) hwf ha hb hab v
    refine ⟨hwf.link ha hb hab, fun z hz => hgrows.mem hf hz, ⟨hmemx, hmemy⟩, fun v hv => ?_,
      fun v hv hrel => ?_, fun v v' _ _ hv' => ?_⟩
    · exact (hgrows.respects_iff hf).mp ((hlink v).mp hv).1
    · have hv' := (hgrows.respects_iff hf).mpr hv
      exact (hlink v).mpr ⟨hv', (hv'.roots_iff hx hy inverted).mp hrel⟩
    · obtain ⟨hold, hroots⟩ := (hlink v').mp hv'
      exact (hold.roots_iff hx hy inverted).mpr hroots

/-! ## Many relations -/

def uniteAll (f : ParityForest α) (relations : List (α × α × Bool)) : ParityForest α :=
  relations.foldl (fun f relation => f.unite relation.1 relation.2.1 relation.2.2) f

/-- The valuation satisfies the relations. -/
def Satisfies (relations : List (α × α × Bool)) (v : α → Bool) : Prop :=
  ∀ relation ∈ relations, (v relation.1 ^^ v relation.2.1) = relation.2.2

/-- A forest of consistent relations has no other valuations than theirs. -/
theorem uniteAll_spec (hf : f.WellFormed) (relations : List (α × α × Bool)) :
    (f.uniteAll relations).WellFormed ∧ f.symbols ⊆ (f.uniteAll relations).symbols ∧
      (∀ v, (f.uniteAll relations).Respects v → f.Respects v) ∧
      (∀ v, f.Respects v → Satisfies relations v → (f.uniteAll relations).Respects v) ∧
      ∀ v v', (f.uniteAll relations).Respects v → Satisfies relations v →
        (f.uniteAll relations).Respects v' → Satisfies relations v' := by
  induction relations generalizing f with
  | nil =>
    exact ⟨hf, List.Subset.refl _, fun v hv => hv, fun v hv _ => hv,
      fun v v' _ _ _ _ h => absurd h List.not_mem_nil⟩
  | cons relation relations ih =>
    obtain ⟨hwf, hsub, -, hback, hkeep, hsame⟩ :=
      unite_spec hf relation.1 relation.2.1 relation.2.2
    obtain ⟨hwf', hsub', hback', hkeep', hsame'⟩ := ih hwf
    rw [uniteAll, List.foldl_cons, ← uniteAll]
    refine ⟨hwf', List.Subset.trans hsub hsub', fun v hv => hback v (hback' v hv), fun v hv hall => ?_,
      fun v v' hv hall hv' => ?_⟩
    · obtain ⟨hfirst, hrest⟩ := List.forall_mem_cons.mp hall
      exact hkeep' v (hkeep v hv hfirst) hrest
    · obtain ⟨hfirst, hrest⟩ := List.forall_mem_cons.mp hall
      exact List.forall_mem_cons.mpr
        ⟨hsame v v' (hback' v hv) hfirst (hback' v' hv'), hsame' v v' hv hrest hv'⟩

end ParityForest
end KeplerFormal.Core
