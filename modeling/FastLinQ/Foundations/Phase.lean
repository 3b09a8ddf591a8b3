import FastLinQ.Foundations.Cells

/-!
# A ring whose items carry a phase bit

A writer fills the cells of a ring one after the other, round and round, and a reader follows. They
share no counters: each item has a bit, its phase, which the writer changes with every turn of the
ring. The reader knows the phase to expect, and takes the item in its cell for a new one if it has
that phase.

The first turn of the ring is what the memory holds at the start, in phase 0. So the `j`-th item
that is written is number `j + n`. `Phased` says what the cells hold after `w` items, and
`Phased.fresh_iff` that the reader's test is right as long as it is at most one turn behind.
-/

namespace FastLinQ.Phase

open Function Nat

variable {β : Type*} {cell : ℕ → ℕ} {n : ℕ} {bit : β → Bool} {m : ℕ → β} {item : ℕ → β} {w r : ℕ}

/-- The phase of number `k` in a ring of `n` cells. -/
def phase (n k : ℕ) : Bool := k / n % 2 = 1

theorem phase_add_self (hn : 0 < n) (k : ℕ) : phase n (k + n) = !phase n k := by
  unfold phase
  rw [add_div_right k hn, ← decide_not, decide_eq_decide]
  omega

/-- The phase of the next number is another one at the end of a turn only. -/
theorem phase_succ (hn : 0 < n) (k : ℕ) :
    phase n (k + 1) = if k % n = n - 1 then !phase n k else phase n k := by
  have hmod := mod_lt k hn
  have hdiv := div_add_mod k n
  unfold phase
  split
  · next hlast =>
    have hsucc : k + 1 = n * (k / n + 1) := by
      rw [mul_succ]
      omega
    rw [hsucc, Nat.mul_div_cancel_left _ hn, ← decide_not, decide_eq_decide]
    omega
  · next hin =>
    have hsame : (k + 1) / n = k / n := by
      refine Nat.div_eq_of_lt_le ?_ ?_
      · rw [Nat.mul_comm]
        omega
      · rw [succ_mul, Nat.mul_comm]
        omega
    rw [hsame]

/-- The ring after `w` items were written, of which `item j` is the `j`-th. -/
structure Phased (cell : ℕ → ℕ) (n : ℕ) (bit : β → Bool) (m : ℕ → β) (item : ℕ → β) (w : ℕ) :
    Prop where
  bits : ∀ k, w ≤ k → k < w + n → bit (m (cell k)) = phase n k
  items : ∀ j < w, w ≤ j + n → m (cell j) = item j

theorem Phased.write (h : Phased cell n bit m item w) (ha : Cells.Apart cell n)
    (hround : ∀ k, cell (k + n) = cell k) (hbit : bit (item w) = phase n (w + n)) :
    Phased cell n bit (update m (cell w) (item w)) item (w + 1) where
  bits k hk hlt := by
    rcases Nat.lt_or_ge k (w + n) with hin | hend
    · rw [update_of_ne (ha w k (by omega) (by omega)).symm]
      exact h.bits k (by omega) hin
    · obtain rfl : k = w + n := by omega
      rw [hround, update_self]
      exact hbit
  items j hj hle := by
    rcases Nat.lt_succ_iff_lt_or_eq.1 hj with hlt | rfl
    · rw [update_of_ne (ha j w hlt (by omega))]
      exact h.items j hlt (by omega)
    · exact update_self ..

/-- The reader is next at item `r`: the expected phase tells whether the item is there. -/
theorem Phased.fresh_iff (h : Phased cell n bit m item w) (hround : ∀ k, cell (k + n) = cell k)
    (hn : 0 < n) (hr : r ≤ w) (hw : w ≤ r + n) :
    bit (m (cell r)) = phase n (r + n) ↔ r < w := by
  rcases hr.lt_or_eq with hlt | rfl
  · refine iff_of_true ?_ hlt
    rw [← hround r]
    exact h.bits (r + n) hw (by omega)
  · refine iff_of_false ?_ (lt_irrefl r)
    rw [h.bits r le_rfl (by omega), phase_add_self hn]
    exact (Bool.eq_not_self (phase n r)).1

end FastLinQ.Phase
