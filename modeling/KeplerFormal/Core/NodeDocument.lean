import Mathlib.Data.List.Range
import Mathlib.Logic.Function.Basic
import Mathlib.Logic.Relation

/-!
# Documents of numbered nodes

A document lists nodes; each has a number and refers to others by theirs. Values are computed
from the first node to the last.

* `values`: the value of every number; `values_append`: later nodes with other numbers do
  not change it, `values_last`: the last node.
* `Reaches`: the cone of a node; `flagged_of_reaches`: a mark that is passed on to every node
  which refers to a marked one finds all nodes with a marked one in their cone.
-/
namespace KeplerFormal.Core.NodeDocument

variable {B V : Type}

abbrev Document (B : Type) := List (Nat × B)

section Values
variable (value : Nat → B → (Nat → V) → V) (default : V)

def values (doc : Document B) : Nat → V :=
  doc.foldl (fun vals node => Function.update vals node.1 (value node.1 node.2 vals))
    fun _ => default

theorem values_snoc (doc : Document B) (node : Nat × B) :
    values value default (doc ++ [node]) =
      Function.update (values value default doc) node.1
        (value node.1 node.2 (values value default doc)) := by
  simp [values, List.foldl_append]

theorem values_last (doc : Document B) (n : Nat) (body : B) :
    values value default (doc ++ [(n, body)]) n =
      value n body (values value default doc) := by
  rw [values_snoc, Function.update_self]

theorem values_append (doc later : Document B) {n : Nat} (h : ∀ node ∈ later, node.1 ≠ n) :
    values value default (doc ++ later) n = values value default doc n := by
  induction later using List.reverseRecOn with
  | nil => rw [List.append_nil]
  | append_singleton later node ih =>
    rw [← List.append_assoc, values_snoc, Function.update_of_ne]
    · exact ih fun other hother => h other (List.mem_append_left _ hother)
    · exact (h node (List.mem_append_right _ (List.mem_singleton_self node))).symm

end Values

section Cone
variable (refs : B → List Nat)

/-- `n` is a node that refers to `m`. -/
def RefersTo (doc : Document B) (n m : Nat) : Prop := ∃ body, (n, body) ∈ doc ∧ m ∈ refs body

def Reaches (doc : Document B) : Nat → Nat → Prop :=
  Relation.ReflTransGen (RefersTo refs doc)

theorem flagged_of_reaches {doc : Document B} {flagged : Nat → Prop}
    (hpass : ∀ n m, RefersTo refs doc n m → flagged m → flagged n) {n m : Nat}
    (h : Reaches refs doc n m) (hm : flagged m) : flagged n := by
  induction h using Relation.ReflTransGen.head_induction_on with
  | refl => exact hm
  | head hstep _ ih => exact hpass _ _ hstep ih

end Cone

end KeplerFormal.Core.NodeDocument
