import Mathlib.Data.List.Basic

/-!
# Computations that may fail

* `bind_ok`, `map_ok`: a sequence succeeds where each step does.
* `SameOutcome`: two computations that agree; it composes, and a common next step keeps it.
* `mapM_ok`, `forM_ok`: a list of computations succeeds where each does.
* `foldlM_keeps`, `foldlM_appends`: what holds of the result of a fold that succeeded.
* `foldlM_flatMap`: a fold over concatenated lists.
* `mapM_forall`, `mapM_map_eq`, `mapM_holds`, `mapM_some_holds`: what the results of a list of
  computations satisfy.
-/
namespace KeplerFormal.Core

variable {ε α β : Type}

theorem bind_ok {x : Except ε α} {f : α → Except ε β} {b : β} :
    (x >>= f) = .ok b ↔ ∃ a, x = .ok a ∧ f a = .ok b := by
  cases x with
  | error e => exact ⟨nofun, nofun⟩
  | ok a => exact ⟨fun h => ⟨a, rfl, h⟩, fun ⟨_, ha, h⟩ => Except.ok.inj ha ▸ h⟩

theorem map_ok {x : Except ε α} {f : α → β} {b : β} :
    x.map f = .ok b ↔ ∃ a, x = .ok a ∧ f a = b := by
  cases x with
  | error e => exact ⟨nofun, nofun⟩
  | ok a => exact ⟨fun h => ⟨a, rfl, Except.ok.inj h⟩, fun ⟨_, ha, h⟩ =>
      congrArg Except.ok (Except.ok.inj ha ▸ h)⟩

theorem ok_bind (a : α) (f : α → Except ε β) : (Except.ok a >>= f) = f a := rfl

/-- Both succeed, with results that `R` relates, or both fail. -/
def SameOutcome {ε' : Type} (R : α → β → Prop) (x : Except ε α) (y : Except ε' β) : Prop :=
  (∃ a b, x = .ok a ∧ y = .ok b ∧ R a b) ∨ ∃ e e', x = .error e ∧ y = .error e'

theorem SameOutcome.bind {x y : Except ε α} (h : SameOutcome (· = ·) x y)
    (f : α → Except ε β) : SameOutcome (· = ·) (x.bind f) (y.bind f) := by
  rcases h with ⟨a, _, rfl, rfl, rfl⟩ | ⟨e, e', rfl, rfl⟩
  · show SameOutcome (· = ·) (f a) (f a)
    cases f a with
    | ok b => exact .inl ⟨b, b, rfl, rfl, rfl⟩
    | error e => exact .inr ⟨e, e, rfl, rfl⟩
  · exact .inr ⟨e, e', rfl, rfl⟩

theorem SameOutcome.trans {γ : Type} {R : α → β → Prop} {R' : β → γ → Prop}
    {x : Except ε α} {y : Except ε β} {z : Except ε γ}
    (h : SameOutcome R x y) (h' : SameOutcome R' y z) :
    SameOutcome (fun a c => ∃ b, R a b ∧ R' b c) x z := by
  rcases h with ⟨a, b, ha, hb, hR⟩ | ⟨e, e', he, he'⟩
  · rcases h' with ⟨b', c, hb', hc, hR'⟩ | ⟨_, _, hb', -⟩
    · rw [hb] at hb'
      obtain rfl := Except.ok.inj hb'
      exact .inl ⟨a, c, ha, hc, b, hR, hR'⟩
    · rw [hb] at hb'
      cases hb'
  · rcases h' with ⟨b', _, hb', -⟩ | ⟨_, e'', -, hc⟩
    · rw [he'] at hb'
      cases hb'
    · exact .inr ⟨e, e'', he, hc⟩

theorem SameOutcome.mono {R R' : α → β → Prop} {x : Except ε α}
    {y : Except ε β} (h : SameOutcome R x y) (hR : ∀ a b, R a b → R' a b) :
    SameOutcome R' x y := by
  rcases h with ⟨a, b, ha, hb, hab⟩ | herror
  · exact .inl ⟨a, b, ha, hb, hR a b hab⟩
  · exact .inr herror

theorem SameOutcome.symm {x y : Except ε α} (h : SameOutcome (· = ·) x y) :
    SameOutcome (· = ·) y x := by
  rcases h with ⟨a, b, ha, hb, hab⟩ | ⟨e, e', he, he'⟩
  · exact .inl ⟨b, a, hb, ha, hab.symm⟩
  · exact .inr ⟨e', e, he', he⟩

theorem mapM_cons_ok {f : α → Except ε β} {a : α} {as : List α} {bs : List β} :
    (a :: as).mapM f = .ok bs ↔
      ∃ b, f a = .ok b ∧ ∃ rest, as.mapM f = .ok rest ∧ bs = b :: rest := by
  rw [List.mapM_cons, bind_ok]
  refine exists_congr fun b => and_congr_right fun _ => ?_
  rw [bind_ok]
  refine exists_congr fun rest => and_congr_right fun _ => ?_
  exact ⟨fun h => (Except.ok.inj h).symm, fun h => congrArg _ h.symm⟩

theorem mapM_forall {f : α → Except ε β} {P : β → Prop} {as : List α} {bs : List β}
    (h : as.mapM f = .ok bs) (hf : ∀ a b, f a = .ok b → P b) : ∀ b ∈ bs, P b := by
  induction as generalizing bs with
  | nil =>
    rw [List.mapM_nil] at h
    obtain rfl := Except.ok.inj h
    exact fun b hb => absurd hb List.not_mem_nil
  | cons a as ih =>
    obtain ⟨b, hb, rest, hrest, rfl⟩ := mapM_cons_ok.mp h
    exact List.forall_mem_cons.mpr ⟨hf a b hb, ih hrest⟩

/-- The results are those of the list's elements. -/
theorem mem_mapM {f : α → Except ε β} {as : List α} {bs : List β} (h : as.mapM f = .ok bs)
    (b : β) : b ∈ bs ↔ ∃ a ∈ as, f a = .ok b := by
  induction as generalizing bs with
  | nil =>
    rw [List.mapM_nil] at h
    obtain rfl := Except.ok.inj h
    simp
  | cons a as ih =>
    obtain ⟨c, hc, rest, hrest, rfl⟩ := mapM_cons_ok.mp h
    rw [List.mem_cons, ih hrest]
    simp [hc, eq_comm]

/-- Results that depend on their arguments only through `k`. -/
theorem mapM_map_eq {γ : Type} {f : α → Except ε β} {g : β → γ} {k : α → γ} {as : List α}
    {bs : List β} (h : as.mapM f = .ok bs) (hf : ∀ a ∈ as, ∀ b, f a = .ok b → g b = k a) :
    bs.map g = as.map k := by
  induction as generalizing bs with
  | nil =>
    rw [List.mapM_nil] at h
    obtain rfl := Except.ok.inj h
    rfl
  | cons a as ih =>
    obtain ⟨b, hb, rest, hrest, rfl⟩ := mapM_cons_ok.mp h
    rw [List.map_cons, List.map_cons, hf a List.mem_cons_self b hb,
      ih hrest fun a' ha' => hf a' (List.mem_cons_of_mem _ ha')]

theorem mapM_length {f : α → Except ε β} {as : List α} {bs : List β}
    (h : as.mapM f = .ok bs) : bs.length = as.length := by
  have hmap := mapM_map_eq (g := fun _ => ()) (k := fun _ => ()) h fun _ _ _ _ => rfl
  rw [← List.length_map (f := fun _ : β => ()), hmap, List.length_map]

/-- The result at an index is that of the element there. -/
theorem mapM_getElem? {f : α → Except ε β} {as : List α} {bs : List β} (h : as.mapM f = .ok bs)
    {i : Nat} {a : α} (ha : as[i]? = some a) : ∃ b, f a = .ok b ∧ bs[i]? = some b := by
  induction as generalizing bs i with
  | nil => cases ha
  | cons first as ih =>
    obtain ⟨b, hb, rest, hrest, rfl⟩ := mapM_cons_ok.mp h
    cases i with
    | zero => exact ⟨b, Option.some.inj ha ▸ hb, rfl⟩
    | succ i => exact ih hrest ha

/-- A list of computations succeeds where each does. -/
theorem mapM_ok {f : α → Except ε β} {as : List α} (hf : ∀ a ∈ as, ∃ b, f a = .ok b) :
    ∃ bs, as.mapM f = .ok bs := by
  induction as with
  | nil => exact ⟨[], List.mapM_nil⟩
  | cons a as ih =>
    obtain ⟨b, hb⟩ := hf a List.mem_cons_self
    obtain ⟨rest, hrest⟩ := ih fun a' ha' => hf a' (List.mem_cons_of_mem _ ha')
    exact ⟨b :: rest, mapM_cons_ok.mpr ⟨b, hb, rest, hrest, rfl⟩⟩

/-- It fails where one of them does. -/
theorem mapM_error {f : α → Except ε β} {as : List α} {e : ε} (h : as.mapM f = .error e) :
    ∃ a ∈ as, ∃ e', f a = .error e' := by
  by_contra hnone
  obtain ⟨bs, hbs⟩ := @mapM_ok _ _ _ f as fun a ha => by
    cases hfa : f a with
    | ok b => exact ⟨b, rfl⟩
    | error e' => exact absurd ⟨a, ha, e', hfa⟩ hnone
  rw [h] at hbs
  cases hbs

theorem ok_of_mapM {f : α → Except ε β} {as : List α} {bs : List β} (h : as.mapM f = .ok bs)
    {a : α} (ha : a ∈ as) : ∃ b, f a = .ok b := by
  obtain ⟨i, hi⟩ := List.getElem?_of_mem ha
  obtain ⟨b, hb, -⟩ := mapM_getElem? h hi
  exact ⟨b, hb⟩

/-- What each step keeps holds of the result. -/
theorem foldlM_keeps {f : β → α → Except ε β} {I : β → Prop} {as : List α}
    {b b' : β} (hstep : ∀ a ∈ as, ∀ b b', I b → f b a = .ok b' → I b') (hb : I b)
    (h : as.foldlM f b = .ok b') : I b' := by
  induction as generalizing b with
  | nil => exact Except.ok.inj h ▸ hb
  | cons a as ih =>
    rw [List.foldlM_cons, bind_ok] at h
    obtain ⟨c, hc, hrest⟩ := h
    exact ih (fun a' ha' => hstep a' (List.mem_cons_of_mem _ ha'))
      (hstep a List.mem_cons_self b c hb hc) hrest

/-- A fold whose steps append. -/
theorem foldlM_appends {γ : Type} {f : β → α → Except ε β} {g : β → List γ}
    {k : α → List γ} (hstep : ∀ a b b', f b a = .ok b' → g b' = g b ++ k a) {as : List α}
    {b b' : β} (h : as.foldlM f b = .ok b') : g b' = g b ++ as.flatMap k := by
  induction as generalizing b with
  | nil =>
    obtain rfl := Except.ok.inj h
    rw [List.flatMap_nil, List.append_nil]
  | cons a as ih =>
    rw [List.foldlM_cons, bind_ok] at h
    obtain ⟨c, hc, hrest⟩ := h
    rw [ih hrest, hstep a b c hc, List.append_assoc, List.flatMap_cons]

/-- A fold over concatenated lists folds each in turn. -/
theorem foldlM_flatMap {γ : Type} {f : β → γ → Except ε β} {g : α → List γ} (as : List α) (b : β) :
    (as.flatMap g).foldlM f b = as.foldlM (fun b a => (g a).foldlM f b) b := by
  induction as generalizing b with
  | nil => rfl
  | cons a as ih =>
    rw [List.flatMap_cons, List.foldlM_append, List.foldlM_cons]
    exact bind_congr fun c => ih c

theorem forM_ok {f : α → Except ε Unit} {as : List α} :
    as.forM f = .ok () ↔ ∀ a ∈ as, f a = .ok () := by
  induction as with
  | nil => exact ⟨fun _ _ ha => absurd ha List.not_mem_nil, fun _ => rfl⟩
  | cons a as ih =>
    show (f a >>= fun _ => as.forM f) = .ok () ↔ _
    rw [bind_ok, List.forall_mem_cons, ← ih]
    exact ⟨fun ⟨_, hfa, hrest⟩ => ⟨hfa, hrest⟩, fun ⟨hfa, hrest⟩ => ⟨(), hfa, hrest⟩⟩

/-- All results satisfy `P` where all arguments satisfy `Q`. -/
theorem mapM_holds {f : α → Except ε β} {P : β → Prop} {Q : α → Prop} {as : List α}
    {bs : List β} (h : as.mapM f = .ok bs)
    (hf : ∀ a ∈ as, ∀ b, f a = .ok b → (P b ↔ Q a)) : (∀ b ∈ bs, P b) ↔ ∀ a ∈ as, Q a := by
  induction as generalizing bs with
  | nil =>
    rw [List.mapM_nil] at h
    obtain rfl := Except.ok.inj h
    simp
  | cons a as ih =>
    obtain ⟨b, hb, rest, hrest, rfl⟩ := mapM_cons_ok.mp h
    rw [List.forall_mem_cons, List.forall_mem_cons, hf a List.mem_cons_self b hb,
      ih hrest fun a' ha' => hf a' (List.mem_cons_of_mem _ ha')]

/-- The same for computations that may only fail without a message. -/
theorem mapM_some_holds {f : α → Option β} {P : β → Prop} {Q : α → Prop} {as : List α}
    {bs : List β} (h : as.mapM f = some bs)
    (hf : ∀ a ∈ as, ∀ b, f a = some b → (P b ↔ Q a)) : (∀ b ∈ bs, P b) ↔ ∀ a ∈ as, Q a := by
  induction as generalizing bs with
  | nil =>
    rw [List.mapM_nil] at h
    obtain rfl := Option.some.inj h
    simp
  | cons a as ih =>
    simp only [List.mapM_cons, Option.bind_eq_bind, Option.bind_eq_some_iff, Option.pure_def,
      Option.some.injEq] at h
    obtain ⟨b, hb, rest, hrest, rfl⟩ := h
    rw [List.forall_mem_cons, List.forall_mem_cons, hf a List.mem_cons_self b hb,
      ih hrest fun a' ha' => hf a' (List.mem_cons_of_mem _ ha')]

end KeplerFormal.Core
