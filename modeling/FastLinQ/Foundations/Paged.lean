import Mathlib

/-!
# Positions of a paged ring

A ring of `N` pages of `U` slots each is walked slot by slot and page by page, around and
around. Element `k` of the walk sits in slot `k % U` of page `k / U % N`. Two elements closer
than `U * N` to each other sit in different places (`Paged.place_ne`).

A cursor that has walked over `k` elements is described by the page of the last element,
`lastPage U k`, and by how many elements of that page are behind it, `fill U k`, a number
between `1` and `U` once `k` is positive.
-/

namespace FastLinQ.Paged

open Nat

variable {U N : ℕ}

/-! ## Places -/

/-- The page and slot of element `k`. -/
def place (U N k : ℕ) : ℕ × ℕ := (k / U % N, k % U)

theorem mod_eq_of_place_eq {i j : ℕ} (h : place U N i = place U N j) :
    i % (U * N) = j % (U * N) := by
  obtain ⟨h₁, h₂⟩ := Prod.mk.injEq .. ▸ h
  rw [mod_mul, mod_mul, h₁, h₂]

/-- Elements less than a whole turn apart sit in different places. -/
theorem place_ne {i j : ℕ} (hij : i < j) (hj : j < i + U * N) : place U N i ≠ place U N j := by
  intro h
  have hmod : i ≡ j [MOD U * N] := mod_eq_of_place_eq h
  have hdvd : U * N ∣ j - i := (modEq_iff_dvd' hij.le).1 hmod
  have := le_of_dvd (by omega) hdvd
  omega

theorem place_fst_lt (hN : 0 < N) (k : ℕ) : (place U N k).1 < N := mod_lt _ hN

/-- A cyclic counter that is reset by comparison counts modulo its bound. -/
theorem succ_mod (hN : 0 < N) (q : ℕ) : (q + 1) % N = if q % N + 1 = N then 0 else q % N + 1 := by
  have hlt := mod_lt q hN
  conv_lhs => rw [← mod_add_div q N, Nat.add_right_comm, add_mul_mod_self_left]
  split
  · rename_i h
    rw [h, mod_self]
  · exact mod_eq_of_lt (by omega)

theorem succ_div (hN : 0 < N) (q : ℕ) :
    (q + 1) / N = if q % N + 1 = N then q / N + 1 else q / N := by
  have hmod := succ_mod hN q
  have hdiv : (q + 1) / N = q / N + if N ∣ q + 1 then 1 else 0 := Nat.succ_div
  by_cases h : q % N + 1 = N
  · rw [if_pos h] at hmod ⊢
    rwa [if_pos (dvd_of_mod_eq_zero hmod)] at hdiv
  · rw [if_neg h] at hmod ⊢
    have hnot : ¬N ∣ q + 1 := fun hdvd => by
      rw [mod_eq_zero_of_dvd hdvd] at hmod
      exact nomatch hmod
    rwa [if_neg hnot] at hdiv

/-! ## Cursors -/

def lastPage (U k : ℕ) : ℕ := (k - 1) / U

/-- How many elements of the last page are among `k` elements. -/
def fill (U k : ℕ) : ℕ := k - U * lastPage U k

@[simp] theorem lastPage_zero : lastPage U 0 = 0 := Nat.zero_div U

@[simp] theorem fill_zero : fill U 0 = 0 := Nat.zero_sub _

@[simp] theorem lastPage_one : lastPage U 1 = 0 := Nat.zero_div U

@[simp] theorem fill_one : fill U 1 = 1 := by simp [fill]

theorem lastPage_mul_add_fill (U k : ℕ) : U * lastPage U k + fill U k = k := by
  have := mul_div_le (k - 1) U
  simp only [fill, lastPage]
  omega

variable {k : ℕ}

theorem fill_pos (hk : 0 < k) : 0 < fill U k := by
  have := mul_div_le (k - 1) U
  simp only [fill, lastPage]
  omega

theorem fill_le (hU : 0 < U) (k : ℕ) : fill U k ≤ U := by
  have := lt_mul_div_succ (k - 1) hU
  rw [mul_succ] at this
  simp only [fill, lastPage]
  omega

/-- The page and fill of a cursor are the only numbers with its size and range. -/
theorem lastPage_eq_of {q r k : ℕ} (h : U * q + r = k) (h₁ : 1 ≤ r) (h₂ : r ≤ U) :
    lastPage U k = q := by
  rw [lastPage, show k - 1 = r - 1 + U * q by omega, add_mul_div_left _ _ (by omega),
    div_eq_of_lt (by omega), zero_add]

theorem fill_eq_of {q r k : ℕ} (h : U * q + r = k) (h₁ : 1 ≤ r) (h₂ : r ≤ U) : fill U k = r := by
  rw [fill, lastPage_eq_of h h₁ h₂]
  omega

theorem succ_of_fill_lt (h : fill U k < U) :
    lastPage U (k + 1) = lastPage U k ∧ fill U (k + 1) = fill U k + 1 := by
  have hk := lastPage_mul_add_fill U k
  have e : U * lastPage U k + (fill U k + 1) = k + 1 := by omega
  exact ⟨lastPage_eq_of e (by omega) (by omega), fill_eq_of e (by omega) (by omega)⟩

theorem succ_of_fill_eq (hU : 0 < U) (h : fill U k = U) :
    lastPage U (k + 1) = lastPage U k + 1 ∧ fill U (k + 1) = 1 := by
  have hk := lastPage_mul_add_fill U k
  have e : U * (lastPage U k + 1) + 1 = k + 1 := by rw [mul_succ]; omega
  exact ⟨lastPage_eq_of e le_rfl hU, fill_eq_of e le_rfl hU⟩

theorem div_mod_of_fill_lt (h : fill U k < U) : k / U = lastPage U k ∧ k % U = fill U k := by
  have hk := lastPage_mul_add_fill U k
  have e : k = fill U k + U * lastPage U k := by omega
  constructor
  · rw [e, add_mul_div_left _ _ (by omega), div_eq_of_lt (by omega), zero_add, ← e]
  · rw [e, add_mul_mod_self_left, mod_eq_of_lt (by omega), ← e]

theorem div_mod_of_fill_eq (hU : 0 < U) (h : fill U k = U) :
    k / U = lastPage U k + 1 ∧ k % U = 0 := by
  have hk := lastPage_mul_add_fill U k
  have e : k = U * (lastPage U k + 1) := by rw [mul_succ]; omega
  exact ⟨by rw [e, Nat.mul_div_cancel_left _ hU, ← e], by rw [e, mul_mod_right]⟩

theorem fill_eq_iff (hU : 0 < U) : fill U k = U ↔ U ∣ k ∧ 0 < k := by
  constructor
  · intro h
    refine ⟨dvd_of_mod_eq_zero (div_mod_of_fill_eq hU h).2, Nat.pos_of_ne_zero ?_⟩
    rintro rfl
    rw [fill_zero] at h
    omega
  · rintro ⟨⟨q, rfl⟩, hk⟩
    have hq : 0 < q := Nat.pos_of_mul_pos_left hk
    obtain ⟨q, rfl⟩ := Nat.exists_eq_add_of_lt hq
    refine fill_eq_of (q := 0 + q) ?_ hU le_rfl
    rw [mul_succ]

theorem lastPage_mono (U : ℕ) {j k : ℕ} (h : j ≤ k) : lastPage U j ≤ lastPage U k :=
  Nat.div_le_div_right (by omega)

theorem lastPage_add_mul_le (hU : 0 < U) (k n : ℕ) : lastPage U (k + U * n) ≤ lastPage U k + n := by
  unfold lastPage
  rw [← add_mul_div_left (k - 1) n hU]
  exact Nat.div_le_div_right (by omega)

/-! ## Opened pages -/

/-- How many pages the first `k` elements have opened. -/
def opened (U k : ℕ) : ℕ := (k + U - 1) / U

theorem opened_zero (hU : 0 < U) : opened U 0 = 0 := div_eq_of_lt (by omega)

theorem opened_of_pos (hU : 0 < U) (hk : 0 < k) : opened U k = (k - 1) / U + 1 := by
  rw [opened, show k + U - 1 = k - 1 + U by omega, add_div_right _ hU]

theorem opened_mono (U : ℕ) {j k : ℕ} (h : j ≤ k) : opened U j ≤ opened U k :=
  Nat.div_le_div_right (by omega)

theorem opened_add_mul (hU : 0 < U) (k n : ℕ) : opened U (k + U * n) = opened U k + n := by
  rw [opened, show k + U * n + U - 1 = k + U - 1 + U * n by omega, add_mul_div_left _ _ hU, opened]

/-- An element opens a page if it is the first of it. -/
theorem opened_succ (hU : 0 < U) (k : ℕ) :
    opened U (k + 1) = if k % U = 0 then opened U k + 1 else opened U k := by
  have hk := mod_add_div k U
  have hlt := mod_lt k hU
  rw [← hk, Nat.add_right_comm, opened_add_mul hU, opened_add_mul hU, hk,
    opened_of_pos hU (succ_pos _), succ_sub_one, div_eq_of_lt hlt]
  split
  · rename_i h
    rw [h, opened_zero hU]
    omega
  · rename_i h
    rw [opened_of_pos hU (Nat.pos_of_ne_zero h), div_eq_of_lt (show k % U - 1 < U by omega)]

end FastLinQ.Paged
