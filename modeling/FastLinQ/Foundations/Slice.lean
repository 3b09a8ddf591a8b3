import Mathlib

/-!
# Slices of a memory

`slice m k n` is the list of the `n` cells of the memory `m` from `k` on. `Laid m k ls` says that
the lists `ls` are slices that follow one another from `k` on.
-/

namespace FastLinQ

open List

variable {β : Type*}

def slice (m : ℕ → β) (k n : ℕ) : List β := (List.range n).map fun i => m (k + i)

variable {m m' : ℕ → β} {k k' n : ℕ}

@[simp] theorem length_slice (m : ℕ → β) (k n : ℕ) : (slice m k n).length = n := by
  simp [slice]

@[simp] theorem slice_zero (m : ℕ → β) (k : ℕ) : slice m k 0 = [] := rfl

theorem slice_add (m : ℕ → β) (k a b : ℕ) :
    slice m k (a + b) = slice m k a ++ slice m (k + a) b := by
  simp only [slice, range_add, map_append, map_map]
  congr 1
  exact map_congr_left fun i _ => congrArg m (by simp only; omega)

theorem slice_succ (m : ℕ → β) (k n : ℕ) : slice m k (n + 1) = m k :: slice m (k + 1) n := by
  rw [Nat.add_comm, slice_add]
  rfl

theorem slice_congr (h : ∀ i < n, m (k + i) = m' (k' + i)) : slice m k n = slice m' k' n :=
  map_congr_left fun i hi => h i (mem_range.1 hi)

/-- What is left of a slice behind its first cells. -/
theorem drop_slice {a : ℕ} (ha : a ≤ n) : (slice m k n).drop a = slice m (k + a) (n - a) := by
  obtain ⟨b, rfl⟩ := Nat.exists_eq_add_of_le ha
  rw [slice_add, drop_left' (length_slice m k a), Nat.add_sub_cancel_left]

theorem take_slice {a : ℕ} (ha : a ≤ n) : (slice m k n).take a = slice m k a := by
  obtain ⟨b, rfl⟩ := Nat.exists_eq_add_of_le ha
  rw [slice_add, take_left' (length_slice m k a)]

theorem getD_slice {i : ℕ} (hi : i < n) (d : β) : (slice m k n).getD i d = m (k + i) := by
  simp [slice, hi]

/-! ## Slices one behind the other -/

def Laid (m : ℕ → β) : ℕ → List (List β) → Prop
  | _, [] => True
  | k, l :: ls => l = slice m k l.length ∧ Laid m (k + l.length) ls

variable {ls : List (List β)}

theorem Laid.flatten (h : Laid m k ls) : ls.flatten = slice m k ls.flatten.length := by
  induction ls generalizing k with
  | nil => rfl
  | cons l ls ih =>
    rw [flatten_cons, length_append, slice_add, ← h.1, ← ih h.2]

theorem Laid.append (h : Laid m k ls) {l : List β}
    (hl : l = slice m (k + ls.flatten.length) l.length) : Laid m k (ls ++ [l]) := by
  induction ls generalizing k with
  | nil => exact ⟨hl, trivial⟩
  | cons l' ls ih =>
    refine ⟨h.1, ih h.2 ?_⟩
    rwa [Nat.add_assoc, ← length_append]

theorem Laid.drop (h : Laid m k ls) (n : ℕ) :
    Laid m (k + (ls.take n).flatten.length) (ls.drop n) := by
  induction n generalizing k ls with
  | zero => exact h
  | succ n ih =>
    cases ls with
    | nil => trivial
    | cons l ls =>
      rw [take_succ_cons, flatten_cons, length_append, ← Nat.add_assoc]
      exact ih h.2

end FastLinQ
