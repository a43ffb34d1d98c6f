import Mathlib.Data.List.Basic
import Mathlib.Logic.Function.Basic

/-!
# Clauses over numbered variables and their DIMACS text

A literal is a non-zero integer: a variable, counted from 1, or its negation.

* `Determined`: constraints that fix every variable up to `n`, whatever a parameter is;
  `Determined.fresh` adds a variable that is defined by the others.
* `printDimacs`, `parseDimacs`: the text of a clause set and its reading;
  `parseDimacs_printDimacs` is the round trip.
-/
namespace KeplerFormal.Core.Dimacs

abbrev Clauses := List (List Int)

abbrev Assignment := Nat → Bool

/-! ## Values -/

def holds (ν : Assignment) (l : Int) : Bool := if 0 < l then ν l.natAbs else !ν l.natAbs

def satisfies (ν : Assignment) (clauses : Clauses) : Bool := clauses.all fun c => c.any (holds ν)

/-- A literal of one of the variables up to `n`. -/
def Within (n : Nat) (l : Int) : Prop := l ≠ 0 ∧ l.natAbs ≤ n

instance (n : Nat) (l : Int) : Decidable (Within n l) := by
  unfold Within
  infer_instance

def Bounded (n : Nat) (clauses : Clauses) : Prop := ∀ c ∈ clauses, ∀ l ∈ c, Within n l

instance (n : Nat) (clauses : Clauses) : Decidable (Bounded n clauses) := by
  unfold Bounded
  infer_instance

def SameUpTo (n : Nat) (ν ν' : Assignment) : Prop := ∀ i, 1 ≤ i → i ≤ n → ν' i = ν i

theorem Within.mono {n m : Nat} {l : Int} (h : Within n l) (hnm : n ≤ m) : Within m l :=
  ⟨h.1, Nat.le_trans h.2 hnm⟩

theorem Bounded.mono {n m : Nat} {clauses : Clauses} (h : Bounded n clauses) (hnm : n ≤ m) :
    Bounded m clauses := fun c hc l hl => (h c hc l hl).mono hnm

theorem Bounded.append {n : Nat} {p q : Clauses} (hp : Bounded n p) (hq : Bounded n q) :
    Bounded n (p ++ q) := fun c hc => (List.mem_append.mp hc).elim (hp c) (hq c)

theorem SameUpTo.mono {n m : Nat} {ν ν' : Assignment} (h : SameUpTo m ν ν') (hnm : n ≤ m) :
    SameUpTo n ν ν' := fun i h1 hn => h i h1 (Nat.le_trans hn hnm)

theorem holds_ofNat (ν : Assignment) {v : Nat} (hv : 1 ≤ v) : holds ν (v : Int) = ν v := by
  rw [holds, if_pos (by omega), Int.natAbs_natCast]

theorem holds_neg (ν : Assignment) {l : Int} (hl : l ≠ 0) : holds ν (-l) = !holds ν l := by
  unfold holds
  rw [Int.natAbs_neg]
  split <;> split
  · omega
  · simp
  · rfl
  · omega

theorem satisfies_append (ν : Assignment) (p q : Clauses) :
    satisfies ν (p ++ q) = (satisfies ν p && satisfies ν q) := List.all_append

/-! ## Defined variables -/

/-- For every parameter there is one assignment of the variables up to `n`. -/
structure Determined {P : Type} (n : Nat) (M : P → Assignment → Prop) : Prop where
  stable : ∀ p ν ν', SameUpTo n ν ν' → M p ν → M p ν'
  exist : ∀ p, ∃ ν, M p ν
  unique : ∀ p ν ν', M p ν → M p ν' → SameUpTo n ν ν'

theorem Determined.fresh {P : Type} {n : Nat} {M M' : P → Assignment → Prop} {f : P → Bool}
    (h : Determined n M) (hM : ∀ p ν, M' p ν ↔ M p ν ∧ ν (n + 1) = f p) :
    Determined (n + 1) M' := by
  refine ⟨fun p ν ν' hsame hν => ?_, fun p => ?_, fun p ν ν' hν hν' i h1 hi => ?_⟩
  · obtain ⟨hold, hnew⟩ := (hM p ν).mp hν
    refine (hM p ν').mpr ⟨h.stable p ν ν' (hsame.mono (Nat.le_succ n)) hold, ?_⟩
    rw [hsame (n + 1) (Nat.le_add_left 1 n) (Nat.le_refl _), hnew]
  · obtain ⟨ν, hν⟩ := h.exist p
    have hsame : SameUpTo n ν (Function.update ν (n + 1) (f p)) := fun i _ hi =>
      Function.update_of_ne (by omega) _ _
    exact ⟨_, (hM p _).mpr ⟨h.stable p ν _ hsame hν, Function.update_self ..⟩⟩
  · obtain ⟨hold, hnew⟩ := (hM p ν).mp hν
    obtain ⟨hold', hnew'⟩ := (hM p ν').mp hν'
    rcases Nat.lt_or_ge n i with hlt | hle
    · have hlast : i = n + 1 := by omega
      rw [hlast, hnew, hnew']
    · exact h.unique p ν ν' hold hold' i h1 hle

/-! ## Text -/

def printInt (l : Int) : List Char :=
  if l < 0 then '-' :: Nat.toDigits 10 l.natAbs else Nat.toDigits 10 l.natAbs

/-- Each literal is followed by a blank, each clause by a zero. -/
def printClause (c : List Int) : List Char :=
  c.flatMap (fun l => printInt l ++ [' ']) ++ ['0', '\n']

def printDimacs (n : Nat) (clauses : Clauses) : List Char :=
  ['p', ' ', 'c', 'n', 'f', ' '] ++ Nat.toDigits 10 n ++ [' '] ++
    Nat.toDigits 10 clauses.length ++ ['\n'] ++ clauses.flatMap printClause

def isBlank (c : Char) : Bool := c = ' ' ∨ c = '\n'

/-- The words between blanks, after the beginning of one. -/
def wordsFrom : List Char → List Char → List (List Char)
  | word, [] => if word.isEmpty then [] else [word]
  | word, c :: cs =>
    if isBlank c then
      if word.isEmpty then wordsFrom [] cs else word :: wordsFrom [] cs
    else wordsFrom (word ++ [c]) cs

def readNat (word : List Char) : Option Nat :=
  if word.all Char.isDigit ∧ word ≠ [] then some (Nat.ofDigitChars 10 word 0) else none

def readInt : List Char → Option Int
  | '-' :: word => (readNat word).map fun n : Nat => -(n : Int)
  | word => (readNat word).map fun n : Nat => (n : Int)

/-- Literals up to the next zero. -/
def groupClauses : List Int → List Int → Option Clauses
  | clause, [] => if clause.isEmpty then some [] else none
  | clause, l :: ls =>
    if l = 0 then (groupClauses [] ls).map (clause :: ·) else groupClauses (clause ++ [l]) ls

/-- A header whose numbers fit the clauses that follow. -/
def parseDimacs (text : List Char) : Option (Nat × Clauses) :=
  match wordsFrom [] text with
  | ['p'] :: ['c', 'n', 'f'] :: n :: m :: rest => do
    let n ← readNat n
    let m ← readNat m
    let clauses ← groupClauses [] (← rest.mapM readInt)
    if clauses.length = m ∧ Bounded n clauses then some (n, clauses) else none
  | _ => none

/-- Some assignment satisfies the clauses that the text lists. -/
def TextSatisfiable (text : List Char) : Prop :=
  ∃ n clauses, parseDimacs text = some (n, clauses) ∧ ∃ ν, satisfies ν clauses = true

/-! ### Round trip -/

theorem wordsFrom_append {word chars rest : List Char} (h : ∀ c ∈ chars, isBlank c = false) :
    wordsFrom word (chars ++ rest) = wordsFrom (word ++ chars) rest := by
  induction chars generalizing word with
  | nil => simp
  | cons c chars ih =>
    rw [List.cons_append, wordsFrom, h c List.mem_cons_self]
    simp only [Bool.false_eq_true, if_false]
    rw [ih fun d hd => h d (List.mem_cons_of_mem _ hd), List.append_assoc]
    rfl

/-- One word and the blank after it. -/
theorem wordsFrom_word {word rest : List Char} {blank : Char} (hne : word ≠ [])
    (h : ∀ c ∈ word, isBlank c = false) (hblank : isBlank blank = true) :
    wordsFrom [] (word ++ blank :: rest) = word :: wordsFrom [] rest := by
  rw [wordsFrom_append h, List.nil_append, wordsFrom, if_pos hblank, if_neg]
  simpa using hne

theorem digits_not_blank (n : Nat) : ∀ c ∈ Nat.toDigits 10 n, isBlank c = false := by
  intro c hc
  have hdigit := Nat.isDigit_of_mem_toDigits (by decide) (by decide) hc
  have hspace : c ≠ ' ' := fun h => absurd (h ▸ hdigit) (by decide)
  have hline : c ≠ '\n' := fun h => absurd (h ▸ hdigit) (by decide)
  simp [isBlank, hspace, hline]

theorem readNat_digits (n : Nat) : readNat (Nat.toDigits 10 n) = some n := by
  have hall : (Nat.toDigits 10 n).all Char.isDigit = true := List.all_eq_true.mpr fun c hc =>
    Nat.isDigit_of_mem_toDigits (by decide) (by decide) hc
  rw [readNat, if_pos ⟨hall, Nat.toDigits_ne_nil⟩, Nat.ofDigitChars_ten_toDigits]

theorem printInt_ne_nil (l : Int) : printInt l ≠ [] := by
  unfold printInt
  split
  · exact List.cons_ne_nil _ _
  · exact Nat.toDigits_ne_nil

theorem printInt_not_blank (l : Int) : ∀ c ∈ printInt l, isBlank c = false := by
  intro c hc
  unfold printInt at hc
  split at hc
  · rcases List.mem_cons.mp hc with rfl | hdigit
    · decide
    · exact digits_not_blank _ c hdigit
  · exact digits_not_blank _ c hc

theorem readInt_printInt (l : Int) : readInt (printInt l) = some l := by
  unfold printInt
  split
  · next h =>
    rw [readInt, readNat_digits, Option.map_some]
    congr 1
    omega
  · next h =>
    have hfirst : ∀ word, Nat.toDigits 10 l.natAbs = '-' :: word → False := by
      intro word hword
      have hdigit := Nat.isDigit_of_mem_toDigits (b := 10) (n := l.natAbs) (c := '-')
        (by decide) (by decide) (by rw [hword]; exact List.mem_cons_self)
      exact absurd hdigit (by decide)
    rw [readInt, readNat_digits, Option.map_some]
    · congr 1
      omega
    · exact hfirst

/-- The words of a clause: its literals and the zero. -/
theorem wordsFrom_printClause (c : List Int) (rest : List Char) :
    wordsFrom [] (printClause c ++ rest) = c.map printInt ++ ['0'] :: wordsFrom [] rest := by
  unfold printClause
  induction c with
  | nil =>
    exact @wordsFrom_word ['0'] _ _ (List.cons_ne_nil _ _) (by simp [isBlank]) (by decide)
  | cons l c ih =>
    rw [List.flatMap_cons, List.append_assoc, List.append_assoc, List.append_assoc,
      List.singleton_append, wordsFrom_word (printInt_ne_nil l) (printInt_not_blank l) (by decide),
      ← List.append_assoc, ih]
    rfl

theorem wordsFrom_clauses (clauses : Clauses) :
    wordsFrom [] (clauses.flatMap printClause) =
      clauses.flatMap fun c => c.map printInt ++ [['0']] := by
  induction clauses with
  | nil => rfl
  | cons c clauses ih =>
    rw [List.flatMap_cons, wordsFrom_printClause, ih, List.flatMap_cons, List.append_assoc]
    rfl

theorem readInts_clauses (clauses : Clauses) :
    (clauses.flatMap fun c => c.map printInt ++ [['0']]).mapM readInt =
      some (clauses.flatMap fun c => c ++ [0]) := by
  have hwords : (clauses.flatMap fun c => c.map printInt ++ [['0']]) =
      (clauses.flatMap fun c => c ++ [0]).map printInt := by
    rw [List.map_flatMap]
    simp only [List.map_append]
    rfl
  have hread : ∀ ls : List Int, (ls.map printInt).mapM readInt = some ls := by
    intro ls
    induction ls with
    | nil => rfl
    | cons l ls ih => simp [List.mapM_cons, readInt_printInt, ih]
  rw [hwords, hread]

theorem groupClauses_append {n : Nat} {c : List Int} (hc : ∀ l ∈ c, Within n l)
    (before rest : List Int) :
    groupClauses before (c ++ 0 :: rest) = (groupClauses [] rest).map ((before ++ c) :: ·) := by
  induction c generalizing before with
  | nil => rw [List.nil_append, groupClauses, if_pos rfl, List.append_nil]
  | cons l c ih =>
    rw [List.cons_append, groupClauses, if_neg (hc l List.mem_cons_self).1,
      ih fun k hk => hc k (List.mem_cons_of_mem _ hk), List.append_assoc]
    rfl

theorem groupClauses_clauses {n : Nat} {clauses : Clauses} (h : Bounded n clauses) :
    groupClauses [] (clauses.flatMap fun c => c ++ [0]) = some clauses := by
  induction clauses with
  | nil => rfl
  | cons c clauses ih =>
    rw [List.flatMap_cons, List.append_assoc, List.singleton_append,
      groupClauses_append (h c List.mem_cons_self), ih fun d hd => h d (List.mem_cons_of_mem _ hd)]
    rfl

/-- Reading what was printed. -/
theorem parseDimacs_printDimacs {n : Nat} {clauses : Clauses} (h : Bounded n clauses) :
    parseDimacs (printDimacs n clauses) = some (n, clauses) := by
  have hwords : wordsFrom [] (printDimacs n clauses) =
      ['p'] :: ['c', 'n', 'f'] :: Nat.toDigits 10 n :: Nat.toDigits 10 clauses.length ::
        clauses.flatMap fun c => c.map printInt ++ [['0']] := by
    unfold printDimacs
    simp only [List.append_assoc, List.singleton_append]
    have hp := @wordsFrom_word ['p'] (['c', 'n', 'f', ' '] ++ (Nat.toDigits 10 n ++ ' ' ::
        (Nat.toDigits 10 clauses.length ++ '\n' :: clauses.flatMap printClause))) (' ')
      (List.cons_ne_nil _ _) (by simp [isBlank]) (by decide)
    have hcnf := @wordsFrom_word ['c', 'n', 'f'] (Nat.toDigits 10 n ++ ' ' ::
        (Nat.toDigits 10 clauses.length ++ '\n' :: clauses.flatMap printClause)) (' ')
      (List.cons_ne_nil _ _) (by simp [isBlank]) (by decide)
    have hn := @wordsFrom_word _ (Nat.toDigits 10 clauses.length ++ '\n' ::
      clauses.flatMap printClause) _ Nat.toDigits_ne_nil (digits_not_blank n)
      (by decide : isBlank ' ' = true)
    have hm := @wordsFrom_word _ (clauses.flatMap printClause) _ Nat.toDigits_ne_nil
      (digits_not_blank clauses.length) (by decide : isBlank '\n' = true)
    rw [wordsFrom_clauses] at hm
    exact hp.trans (congrArg _ (hcnf.trans (congrArg _ (hn.trans (congrArg _ hm)))))
  unfold parseDimacs
  rw [hwords]
  simp [readNat_digits, readInts_clauses, groupClauses_clauses h, h]

end KeplerFormal.Core.Dimacs
