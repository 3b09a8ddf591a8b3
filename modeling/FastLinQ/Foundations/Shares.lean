import Mathlib

/-!
# Reference counts

Objects are shared by holders; `held` is the multiset of the references, and the counts are
`Exact` if they say how many references there are to each object. Exact counts tell an object that
nobody holds (`Exact.notMem`) and a reference that is the only one (`Exact.sole`).
-/

namespace FastLinQ.Shares

open Function Multiset Finset

variable {κ : Type*} [DecidableEq κ] {refs : κ → ℕ} {held held' : Multiset κ} {x : κ}

/-- The counts say how many references there are. -/
def Exact (refs : κ → ℕ) (held : Multiset κ) : Prop := ∀ x, refs x = held.count x

def get (refs : κ → ℕ) (x : κ) : κ → ℕ := update refs x (refs x + 1)

/-- The references of a list are given back. -/
def put (refs : κ → ℕ) (l : List κ) : κ → ℕ := fun x => refs x - l.count x

theorem Exact.get (h : Exact refs held) (x : κ) : Exact (get refs x) (x ::ₘ held) := by
  intro y
  unfold Shares.get
  rcases eq_or_ne y x with rfl | hy
  · rw [update_self, count_cons_self, h y]
  · rw [update_of_ne hy, count_cons_of_ne hy, h y]

theorem Exact.first (h : Exact refs held) (hx : refs x = 0) :
    Exact (update refs x 1) (x ::ₘ held) := by
  have hget := h.get x
  rwa [Shares.get, hx] at hget

theorem Exact.put {l : List κ} (h : Exact refs (l + held)) : Exact (put refs l) held := by
  intro y
  unfold Shares.put
  rw [h y, count_add, coe_count, Nat.add_sub_cancel_left]

theorem Exact.notMem (h : Exact refs held) (hx : refs x = 0) : x ∉ held := by
  rw [← count_eq_zero, ← h x]
  exact hx

theorem Exact.sole (h : Exact refs (x ::ₘ held)) (hx : refs x = 1) : x ∉ held := by
  have hcount := h x
  rw [count_cons_self, hx] at hcount
  exact count_eq_zero.1 (Nat.succ.inj hcount).symm

theorem put_get (refs : κ → ℕ) (x : κ) : put (get refs x) [x] = refs := by
  funext y
  unfold put get
  rcases eq_or_ne y x with rfl | hy
  · rw [update_self, List.count_singleton_self, Nat.add_sub_cancel]
  · rw [update_of_ne hy, List.count_eq_zero_of_not_mem (by simpa using hy), Nat.sub_zero]

omit [DecidableEq κ] in
theorem sum_update {n i : ℕ} (hi : i < n) (f : ℕ → Multiset κ) (m : Multiset κ) :
    ∑ j ∈ Finset.range n, update f i m j + f i = m + ∑ j ∈ Finset.range n, f j := by
  have hmem := Finset.mem_range.2 hi
  rw [sum_update_of_mem hmem, sum_eq_sum_sdiff_singleton_add hmem f, Multiset.add_assoc]

end FastLinQ.Shares
