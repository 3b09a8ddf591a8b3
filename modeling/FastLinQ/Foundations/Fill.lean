import Mathlib

/-!
# Filling a table entry by entry

The loop `for (i = i0; i < i0 + n; i++)` that stores `f i` in entry `i` of a table and is left at
the first entry that has no value. `fillTable_spec` says what a table looks like that was filled to
the end, `fillTable_isSome` that the loop gets there if every entry has a value.
-/

namespace FastLinQ

open Function

variable {β : Type*}

def fillTable (f : ℕ → Option β) : ℕ → ℕ → (ℕ → β) → Option (ℕ → β)
  | 0, _, tbl => some tbl
  | n + 1, i, tbl =>
    match f i with
    | none => none
    | some b => fillTable f n (i + 1) (update tbl i b)

variable {f : ℕ → Option β}

theorem fillTable_spec {n i : ℕ} {tbl t : ℕ → β} (h : fillTable f n i tbl = some t) :
    (∀ j, i ≤ j → j < i + n → f j = some (t j)) ∧ (∀ j, j < i ∨ i + n ≤ j → t j = tbl j) := by
  induction n generalizing i tbl with
  | zero =>
    obtain rfl : tbl = t := by simpa [fillTable] using h
    exact ⟨fun j h₁ h₂ => absurd h₂ (by omega), fun j _ => rfl⟩
  | succ n ih =>
    unfold fillTable at h
    split at h
    · nomatch h
    case h_2 b hb =>
      obtain ⟨hin, hout⟩ := ih h
      refine ⟨fun j h₁ h₂ => ?_, fun j hj => ?_⟩
      · rcases Nat.eq_or_lt_of_le h₁ with rfl | hlt
        · rw [hb, hout i (by omega), update_self]
        · exact hin j hlt (by omega)
      · rw [hout j (by omega), update_of_ne (by omega)]

theorem fillTable_isSome {n i : ℕ} (tbl : ℕ → β)
    (h : ∀ j, i ≤ j → j < i + n → (f j).isSome) : ∃ t, fillTable f n i tbl = some t := by
  induction n generalizing i tbl with
  | zero => exact ⟨tbl, rfl⟩
  | succ n ih =>
    obtain ⟨b, hb⟩ := Option.isSome_iff_exists.mp (h i (Nat.le_refl i) (by omega))
    obtain ⟨t, ht⟩ := ih (i := i + 1) (update tbl i b) (fun j h₁ h₂ => h j (by omega) (by omega))
    exact ⟨t, by rw [fillTable, hb]; exact ht⟩

end FastLinQ
