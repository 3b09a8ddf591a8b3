import Mathlib

/-!
# Ledgers

What is held, as the log of takes and gives says it: an id is held if the last entry about it is a
take. An allocator is right about an id if its own state says the same.
-/

namespace FastLinQ.Ledger

variable {κ : Type*}

inductive Event (κ : Type*)
  | take (x : κ)
  | give (x : κ)
  deriving DecidableEq, Repr

variable [DecidableEq κ]

def note (h : κ → Bool) : Event κ → κ → Bool
  | .take x => Function.update h x true
  | .give x => Function.update h x false

/-- What is held after the events of a log. -/
def held (l : List (Event κ)) : κ → Bool := l.foldl note fun _ => false

@[simp] theorem held_nil (x : κ) : held [] x = false := rfl

theorem held_append (l : List (Event κ)) (e : Event κ) : held (l ++ [e]) = note (held l) e := by
  rw [held, List.foldl_append]
  rfl

theorem held_take {l : List (Event κ)} {x y : κ} :
    held (l ++ [.take x]) y = true ↔ y = x ∨ held l y = true := by
  rw [held_append]
  by_cases h : y = x <;> simp [note, h]

theorem held_give {l : List (Event κ)} {x y : κ} :
    held (l ++ [.give x]) y = true ↔ held l y = true ∧ y ≠ x := by
  rw [held_append]
  by_cases h : y = x <;> simp [note, h]

end FastLinQ.Ledger
