import Mathlib

/-!
# Unsigned machine words as natural numbers

A `w`-bit unsigned word is a natural number below `2 ^ w`; sums are reduced by `% 2 ^ w` where
they are written, and the only operation that needs a name of its own is the modular
difference `Word.sub`. The mask
`x & ~(2^e - 1)` is the start of the block of `2^e` that `x` is in (`Word.and_compl_mask`).
-/

namespace FastLinQ.Word

open Nat

/-- The `w`-bit difference `a - b`. -/
def sub (w a b : ℕ) : ℕ := (a + (2 ^ w - b % 2 ^ w)) % 2 ^ w

theorem sub_lt (w a b : ℕ) : sub w a b < 2 ^ w := Nat.mod_lt _ (Nat.two_pow_pos w)

theorem sub_eq_of_add {w a b d k : ℕ} (h : b + d = a + k * 2 ^ w) : sub w a b = d % 2 ^ w := by
  have hb : b % 2 ^ w + 2 ^ w * (b / 2 ^ w) = b := mod_add_div b _
  have e : (a + (2 ^ w - b % 2 ^ w)) + k * 2 ^ w = d + (b / 2 ^ w + 1) * 2 ^ w := by
    rw [Nat.add_mul, Nat.mul_comm (b / 2 ^ w)]
    omega
  have := congrArg (· % 2 ^ w) e
  simpa only [sub, add_mul_mod_self_right] using this

variable {w a b : ℕ}

theorem sub_of_le (hab : b ≤ a) : sub w a b = (a - b) % 2 ^ w := sub_eq_of_add (k := 0) (by omega)

theorem sub_of_le_of_lt (hab : b ≤ a) (ha : a < 2 ^ w) : sub w a b = a - b := by
  rw [sub_of_le hab, mod_eq_of_lt (by omega)]

theorem sub_of_lt (hab : a < b) (hb : b ≤ a + 2 ^ w) : sub w a b = a + 2 ^ w - b := by
  rw [sub_eq_of_add (d := a + 2 ^ w - b) (k := 1) (by omega), mod_eq_of_lt (by omega)]

theorem sub_mod_left (w a b : ℕ) : sub w (a % 2 ^ w) b = sub w a b := by
  simp [sub, mod_add_mod]

theorem sub_mod_right (w a b : ℕ) : sub w a (b % 2 ^ w) = sub w a b := by
  simp [sub]

theorem sub_add_mod (w a b : ℕ) : (sub w a b + b) % 2 ^ w = a % 2 ^ w := by
  have hb := div_add_mod b (2 ^ w)
  rw [sub, mod_add_mod, show a + (2 ^ w - b % 2 ^ w) + b = a + 2 ^ w + 2 ^ w * (b / 2 ^ w) by omega,
    add_mul_mod_self_left, add_mod_right]

theorem sub_unique {w a b x : ℕ} (hx : x < 2 ^ w) (h : (x + b) % 2 ^ w = a % 2 ^ w) :
    sub w a b = x := by
  have hmod : sub w a b + b ≡ x + b [MOD 2 ^ w] := (sub_add_mod w a b).trans h.symm
  exact (hmod.add_right_cancel' b).eq_of_lt_of_lt (sub_lt w a b) hx

theorem sub_sub_sub_cancel_right (w a b c : ℕ) : sub w (sub w a c) (sub w b c) = sub w a b := by
  refine (sub_unique (sub_lt _ _ _) ?_).symm
  calc (sub w (sub w a c) (sub w b c) + b) % 2 ^ w
      = (sub w (sub w a c) (sub w b c) + (sub w b c + c)) % 2 ^ w := by
        rw [add_mod, ← sub_add_mod w b c, ← add_mod]
    _ = (sub w a c + c) % 2 ^ w := by
        rw [← Nat.add_assoc, add_mod, sub_add_mod, ← add_mod]
    _ = a % 2 ^ w := sub_add_mod w a c

/-- Differences of multiples of `2^e`. -/
theorem sub_mul_two_pow (d e a b : ℕ) :
    sub (d + e) (a * 2 ^ e) (b * 2 ^ e) = sub d a b * 2 ^ e := by
  rw [sub, sub, Nat.pow_add, mul_mod_mul_right, ← Nat.sub_mul, ← Nat.add_mul, mul_mod_mul_right]

/-- Masking with the complement of `2^e - 1` in a word of `w` bits rounds down to a multiple of
`2^e`. -/
theorem and_compl_mask {w e x : ℕ} (he : e ≤ w) (hx : x < 2 ^ w) :
    x &&& (2 ^ w - 1 - (2 ^ e - 1)) = x / 2 ^ e * 2 ^ e := by
  apply eq_of_testBit_eq
  intro i
  have hew : 2 ^ e ≤ 2 ^ w := Nat.pow_le_pow_right (by omega) he
  have hm : 2 ^ w - 1 - (2 ^ e - 1) = 2 ^ w - ((2 ^ e - 1) + 1) := by omega
  rw [testBit_and, hm, testBit_two_pow_sub_succ (by omega), testBit_mul_two_pow,
    testBit_div_two_pow]
  by_cases hie : e ≤ i
  · by_cases hiw : i < w
    · simp [hie, hiw]
    · have : x.testBit i = false :=
        Nat.testBit_lt_two_pow (hx.trans_le (Nat.pow_le_pow_right (by omega) (by omega)))
      simp [hie, this]
  · simp [hie, show i < e by omega]

/-- A word is unchanged modulo a divisor of its modulus. -/
theorem mod_two_pow_mod {w e x : ℕ} (he : e ≤ w) : x % 2 ^ w % 2 ^ e = x % 2 ^ e :=
  mod_mod_of_dvd x (pow_dvd_pow 2 he)

/-! ## Two counters

Two counters that only grow are kept modulo `2^w`. Reading the one ahead past the one behind
recovers their distance, if it is less than `2^w`. -/

/-- The residue of `a`, one turn later if it is below the residue of `b`. -/
def ahead (w a b : ℕ) : ℕ := if a % 2 ^ w < b % 2 ^ w then a % 2 ^ w + 2 ^ w else a % 2 ^ w

theorem ahead_add (hle : b ≤ a) (hlt : a < b + 2 ^ w) : 2 ^ w * (b / 2 ^ w) + ahead w a b = a := by
  have ha := div_add_mod a (2 ^ w)
  have hb := div_add_mod b (2 ^ w)
  have h₁ : b / 2 ^ w ≤ a / 2 ^ w := Nat.div_le_div_right hle
  have h₂ : a / 2 ^ w ≤ b / 2 ^ w + 1 := by
    rw [← add_div_right b (Nat.two_pow_pos w)]
    exact Nat.div_le_div_right hlt.le
  unfold ahead
  rcases le_or_eq_of_le_succ h₂ with h | h
  · rw [Nat.le_antisymm h h₁] at ha
    split <;> omega
  · rw [h, mul_succ] at ha
    split <;> omega

theorem mod_le_ahead (w a b : ℕ) : b % 2 ^ w ≤ ahead w a b := by
  unfold ahead
  split <;> omega

theorem ahead_sub (hle : b ≤ a) (hlt : a < b + 2 ^ w) : ahead w a b - b % 2 ^ w = a - b := by
  have ha := ahead_add hle hlt
  have hb := div_add_mod b (2 ^ w)
  omega

theorem ahead_div_sub {w e a b : ℕ} (he : e ≤ w) (hle : b ≤ a) (hlt : a < b + 2 ^ w) :
    ahead w a b / 2 ^ e - b % 2 ^ w / 2 ^ e = a / 2 ^ e - b / 2 ^ e := by
  obtain ⟨d, rfl⟩ := Nat.exists_eq_add_of_le he
  have hdiv : ∀ x, (2 ^ (e + d) * (b / 2 ^ (e + d)) + x) / 2 ^ e =
      2 ^ d * (b / 2 ^ (e + d)) + x / 2 ^ e := fun x => by
    rw [Nat.pow_add, Nat.mul_assoc, mul_add_div (Nat.two_pow_pos e)]
  have h₁ := hdiv (ahead (e + d) a b)
  have h₂ := hdiv (b % 2 ^ (e + d))
  rw [ahead_add hle hlt] at h₁
  rw [div_add_mod] at h₂
  omega

theorem ahead_add_two_pow (w a b : ℕ) : ahead w (a + 2 ^ w) b = ahead w a b := by
  simp [ahead, add_mod_right]

/-- The distance of two counters of any distance, reduced. -/
theorem ahead_sub_mod (hle : b ≤ a) : (ahead w a b - b % 2 ^ w) % 2 ^ w = (a - b) % 2 ^ w := by
  have hmod : ahead w a b % 2 ^ w = a % 2 ^ w := by
    unfold ahead
    split
    · rw [add_mod_right, mod_mod]
    · rw [mod_mod]
  rw [← sub_of_le (mod_le_ahead w a b), sub_mod_right, ← sub_mod_left, hmod, sub_mod_left,
    sub_of_le hle]

end FastLinQ.Word
