import Mathlib

/-!
# Consecutive cells of a cyclic memory

A memory `m : ℕ → β` is used through a numbering `cell : ℕ → ℕ` of its addresses that comes back
to an address after a while: the elements of a ring, or the slots `k % n` of an array. The
numbering is `Apart` over `w` if numbers less than `w` apart have different addresses.

`Holds cell m k l` says that the cells from number `k` on hold the list `l`, and
`write cell m k l` stores `l` there. Inside a window of `w` numbers the two behave as on a memory
without end: what was written is held (`holds_write`), and a write behind a list leaves the
list alone (`Holds.write`).
-/

namespace FastLinQ.Cells

open Function List Nat

variable {β : Type*} {cell : ℕ → ℕ} {w : ℕ} {m : ℕ → β} {j k : ℕ} {b : β} {l r : List β}

/-- Numbers less than `w` apart have different addresses. -/
def Apart (cell : ℕ → ℕ) (w : ℕ) : Prop := ∀ j k, j < k → k < j + w → cell j ≠ cell k

/-- The slots of an array of `n` elements. -/
theorem apart_mod (n : ℕ) : Apart (· % n) n := by
  intro j k hjk hk h
  have hdvd : n ∣ k - j := (modEq_iff_dvd' hjk.le).1 h
  have := le_of_dvd (by omega) hdvd
  omega

/-- The cells from number `k` on hold the list. -/
def Holds (cell : ℕ → ℕ) (m : ℕ → β) : ℕ → List β → Prop
  | _, [] => True
  | k, b :: l => m (cell k) = b ∧ Holds cell m (k + 1) l

/-- Store a list from number `k` on. -/
def write (cell : ℕ → ℕ) (m : ℕ → β) : ℕ → List β → ℕ → β
  | _, [] => m
  | k, b :: l => write cell (update m (cell k) b) (k + 1) l

/-! ## What the cells hold -/

theorem holds_append :
    Holds cell m k (l ++ r) ↔ Holds cell m k l ∧ Holds cell m (k + l.length) r := by
  induction l generalizing k with
  | nil => simp [Holds]
  | cons b l ih =>
    simp only [cons_append, Holds, ih, length_cons, and_assoc]
    rw [add_right_comm k 1, add_assoc k]

/-- A memory that is the same everywhere. -/
theorem holds_replicate (hm : ∀ n, m n = b) (n : ℕ) : Holds cell m k (List.replicate n b) := by
  induction n generalizing k with
  | zero => trivial
  | succ n ih => exact ⟨hm _, ih⟩

theorem holds_getElem (h : Holds cell m k l) {i : ℕ} (hi : i < l.length) :
    m (cell (k + i)) = l[i] := by
  induction l generalizing k i with
  | nil => exact nomatch hi
  | cons b l ih =>
    cases i with
    | zero => exact h.1
    | succ i =>
      have hget := ih h.2 (lt_of_succ_lt_succ hi)
      rwa [add_assoc, add_comm 1] at hget

theorem Holds.congr {m' : ℕ → β} (h : Holds cell m k l)
    (hm : ∀ n, k ≤ n → n < k + l.length → m' (cell n) = m (cell n)) : Holds cell m' k l := by
  induction l generalizing k with
  | nil => trivial
  | cons b l ih =>
    rw [length_cons] at hm
    refine ⟨(hm k le_rfl (by omega)).trans h.1, ih h.2 fun n h₁ h₂ => hm n (by omega) (by omega)⟩

theorem Holds.set {c : β} (h : Holds cell m k (l ++ c :: r)) (ha : Apart cell w)
    (hw : l.length + r.length < w) :
    Holds cell (update m (cell (k + l.length)) b) k (l ++ b :: r) := by
  obtain ⟨hl, -, hr⟩ := holds_append.1 h
  refine holds_append.2 ⟨hl.congr fun n h₁ h₂ => ?_, update_self .., hr.congr
    fun n h₁ h₂ => ?_⟩
  · exact update_of_ne (ha n _ h₂ (by omega)) b m
  · exact update_of_ne (ha (k + l.length) n (by omega) (by omega)).symm b m

/-- The first cell is used again behind the others, where the numbering comes round to it. -/
theorem Holds.rotate {c : β} (h : Holds cell m k (c :: r)) (ha : Apart cell w)
    (hw : r.length < w) (hround : cell (k + 1 + r.length) = cell k) :
    Holds cell (update m (cell k) b) (k + 1) (r ++ [b]) := by
  refine holds_append.2 ⟨h.2.congr fun n h₁ h₂ => ?_, ?_, trivial⟩
  · exact update_of_ne (ha k n (by omega) (by omega)).symm b m
  · rw [hround, update_self]

/-! ## Writing -/

theorem write_append :
    write cell m k (l ++ r) = write cell (write cell m k l) (k + l.length) r := by
  induction l generalizing m k with
  | nil => rfl
  | cons b l ih =>
    simp only [cons_append, write, ih, length_cons]
    rw [add_right_comm k 1, add_assoc k]

theorem write_of_ne {a : ℕ} (h : ∀ n, k ≤ n → n < k + l.length → a ≠ cell n) :
    write cell m k l a = m a := by
  induction l generalizing m k with
  | nil => rfl
  | cons b l ih =>
    rw [length_cons] at h
    rw [write, ih fun n h₁ h₂ => h n (by omega) (by omega)]
    exact update_of_ne (h k le_rfl (by omega)) b m

theorem holds_write (ha : Apart cell w) (hw : l.length ≤ w) :
    Holds cell (write cell m k l) k l := by
  induction l generalizing m k with
  | nil => trivial
  | cons b l ih =>
    rw [length_cons] at hw
    refine ⟨?_, ih (by omega)⟩
    rw [write, write_of_ne fun n h₁ h₂ => ha k n (by omega) (by omega), update_self]

/-- A write behind a list leaves the list alone. -/
theorem Holds.write (h : Holds cell m j l) (ha : Apart cell w) (hk : j + l.length ≤ k)
    (hw : k + r.length ≤ j + w) : Holds cell (write cell m k r) j l :=
  h.congr fun n _ h₂ => write_of_ne fun n' _ h₄ => ha n n' (by omega) (by omega)

/-- What holds of the memory and of the list holds after the write. -/
theorem forall_write {p : β → Prop} (hm : ∀ x, p (m x)) (hl : ∀ b ∈ l, p b) (x : ℕ) :
    p (write cell m k l x) := by
  induction l generalizing m k with
  | nil => exact hm x
  | cons b l ih =>
    obtain ⟨hb, hl⟩ := forall_mem_cons.1 hl
    refine ih (fun y => ?_) hl
    rcases eq_or_ne y (cell k) with rfl | hy
    · rw [update_self]
      exact hb
    · rw [update_of_ne hy]
      exact hm y

theorem write_congr {m' : ℕ → β} {x a : ℕ} (hm : ∀ a ≠ x, m a = m' a) (ha : a ≠ x) :
    write cell m k l a = write cell m' k l a := by
  induction l generalizing m m' k with
  | nil => exact hm a ha
  | cons b l ih =>
    refine ih fun a' ha' => ?_
    by_cases hc : a' = cell k
    · rw [hc, update_self, update_self]
    · rw [update_of_ne hc, update_of_ne hc, hm a' ha']

/-- A store into a cell that was written goes into the list. -/
theorem update_write (ha : Apart cell w) (hw : l.length + r.length < w) {c : β} :
    update (write cell m k (l ++ c :: r)) (cell (k + l.length)) b =
      write cell m k (l ++ b :: r) := by
  rw [write_append, write_append]
  funext a
  by_cases h : a = cell (k + l.length)
  · rw [h, update_self, write, write_of_ne fun n h₁ h₂ => ha _ n (by omega) (by omega), update_self]
  · rw [update_of_ne h, write]
    refine write_congr (fun a' ha' => ?_) h
    rw [update_of_ne ha', update_of_ne ha']

end FastLinQ.Cells
