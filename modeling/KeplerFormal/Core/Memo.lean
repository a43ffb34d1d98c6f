import Mathlib.Data.List.Basic

/-!
# Remembered results of a recursion

A recursion over shared nodes keeps a table of the results it has computed. `Memo.Valid f`
says that every entry is what the plain recursion `f` gives; a node that is looked up, or
computed from such a table, then gives `f` of that node and leaves such a table.
-/
namespace KeplerFormal.Core

universe u v

/-- A table of results, the newest entry first. -/
abbrev Memo (α : Type u) (β : Type v) := List (α × β)

namespace Memo
variable {α : Type u} {β : Type v} [BEq α]

/-- The node's entry, or a new one. -/
def remember (memo : Memo α β) (node : α) (compute : Memo α β → β × Memo α β) : β × Memo α β :=
  match memo.lookup node with
  | some result => (result, memo)
  | none => ((compute memo).1, (node, (compute memo).1) :: (compute memo).2)

def Valid (f : α → β) (memo : Memo α β) : Prop :=
  ∀ node result, memo.lookup node = some result → result = f node

/-- What a run of the remembered recursion on `node` has to give. -/
def Computes (f : α → β) (node : α) (run : β × Memo α β) : Prop :=
  run.1 = f node ∧ run.2.Valid f

theorem valid_nil (f : α → β) : Valid f ([] : Memo α β) := by
  intro node result h
  cases h

theorem Valid.cons [LawfulBEq α] {f : α → β} {memo : Memo α β} (h : memo.Valid f) (node : α) :
    Valid f ((node, f node) :: memo) := by
  intro other result hlookup
  rw [List.lookup_cons] at hlookup
  split at hlookup
  · rename_i hsame
    have hnode : other = node := eq_of_beq hsame
    cases hlookup
    rw [hnode]
  · exact h other result hlookup

/-- A remembered node, or a new entry. -/
theorem Valid.remember [LawfulBEq α] {f : α → β} {memo : Memo α β} (h : memo.Valid f)
    {node : α} {compute : Memo α β → β × Memo α β} (hcompute : Computes f node (compute memo)) :
    Computes f node (memo.remember node compute) := by
  unfold Memo.remember
  split
  · rename_i result hfound
    exact ⟨h node result hfound, h⟩
  · refine ⟨hcompute.1, ?_⟩
    rw [hcompute.1]
    exact hcompute.2.cons node

end Memo
end KeplerFormal.Core
