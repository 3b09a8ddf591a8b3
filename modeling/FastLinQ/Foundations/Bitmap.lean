import Mathlib

/-!
# Bitmaps in words

A bitmap is an array of words of `w` bits. Bit `v` is bit `v % w` of word `v / w`.
-/

namespace FastLinQ.Bitmap

open Function BitVec

variable {w : ℕ}

/-- `m[v / w] & (1 << v % w)` is not zero. -/
def test (m : ℕ → BitVec w) (v : ℕ) : Bool := (m (v / w)).getLsbD (v % w)

/-- `m[v / w] |= 1 << v % w`. -/
def set (m : ℕ → BitVec w) (v : ℕ) : ℕ → BitVec w :=
  update m (v / w) (m (v / w) ||| 1#w <<< (v % w))

/-- `m[v / w] &= ~(1 << v % w)`. -/
def clear (m : ℕ → BitVec w) (v : ℕ) : ℕ → BitVec w :=
  update m (v / w) (m (v / w) &&& ~~~(1#w <<< (v % w)))

/-- A bit of the word `1 << v % w`. -/
theorem getLsbD_one_shiftLeft (hw : 0 < w) {u v : ℕ} (hword : u / w = v / w) :
    (1#w <<< (v % w)).getLsbD (u % w) = decide (u = v) := by
  have hu := Nat.mod_lt u hw
  have heq : u = v ↔ u % w = v % w := by
    constructor
    · rintro rfl
      rfl
    · intro hbit
      rw [← Nat.div_add_mod u w, hword, hbit, Nat.div_add_mod]
  simp only [getLsbD_shiftLeft, getLsbD_one, heq]
  by_cases h : u % w = v % w
  · simp [h, hw, Nat.mod_lt v hw]
  · simp [h, hw, hu]
    omega

theorem test_set (hw : 0 < w) (m : ℕ → BitVec w) (u v : ℕ) :
    test (set m v) u = (test m u || decide (u = v)) := by
  by_cases hword : u / w = v / w
  · rw [test, set, hword, update_self, getLsbD_or, getLsbD_one_shiftLeft hw hword, test, hword]
  · have hne : u ≠ v := fun h => hword (h ▸ rfl)
    rw [test, set, update_of_ne hword, decide_eq_false hne, Bool.or_false, test]

theorem test_clear (hw : 0 < w) (m : ℕ → BitVec w) (u v : ℕ) :
    test (clear m v) u = (test m u && !decide (u = v)) := by
  by_cases hword : u / w = v / w
  · rw [test, clear, hword, update_self, getLsbD_and, getLsbD_not,
      getLsbD_one_shiftLeft hw hword, test, hword, decide_eq_true (Nat.mod_lt u hw), Bool.true_and]
  · have hne : u ≠ v := fun h => hword (h ▸ rfl)
    rw [test, clear, update_of_ne hword, decide_eq_false hne, Bool.not_false, Bool.and_true, test]

end FastLinQ.Bitmap
