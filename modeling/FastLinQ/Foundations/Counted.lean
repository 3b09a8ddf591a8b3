import Mathlib

/-!
# Tables of counted keys

A table of `n` slots, each empty or with a key and how often the key is held: a finite multiset of
keys, with a fixed place for each key while it is held. `count n v k` is how often the table `v`
holds the key `k`; in a table that is `Distinct`, no key has two slots, so that the count is read
off the slot of the key.
-/

namespace FastLinQ.Counted

open Function Finset

variable {κ : Type*} [DecidableEq κ] {n i j c : ℕ} {v : ℕ → Option (κ × ℕ)} {k k' : κ}

/-- How often a slot holds a key. -/
def amount (k : κ) : Option (κ × ℕ) → ℕ
  | none => 0
  | some (k', c) => if k' = k then c else 0

/-- How often the table holds a key. -/
def count (n : ℕ) (v : ℕ → Option (κ × ℕ)) (k : κ) : ℕ := ∑ i ∈ Finset.range n, amount k (v i)

def At (v : ℕ → Option (κ × ℕ)) (i : ℕ) (k : κ) : Prop := ∃ c, v i = some (k, c)

def Distinct (n : ℕ) (v : ℕ → Option (κ × ℕ)) : Prop :=
  ∀ k, ∀ i < n, ∀ j < n, At v i k → At v j k → i = j

theorem count_update (hi : i < n) (x : Option (κ × ℕ)) (k : κ) :
    count n (update v i x) k + amount k (v i) = count n v k + amount k x := by
  have hmem : i ∈ Finset.range n := mem_range.2 hi
  have hcomp : (fun j => amount k (update v i x j)) = update (amount k ∘ v) i (amount k x) :=
    comp_update (amount k) v i x
  rw [count, count, hcomp, sum_update_of_mem hmem, sum_eq_sum_sdiff_singleton_add hmem]
  exact (add_assoc ..).trans (add_comm ..)

/-- The count of a key is that of its slot. -/
theorem Distinct.count_eq (h : Distinct n v) (hi : i < n) (hv : v i = some (k, c)) :
    count n v k = c := by
  rw [count, sum_eq_single i]
  · rw [hv]
    exact if_pos rfl
  · intro j hj hji
    cases hvj : v j with
    | none => rfl
    | some x =>
      obtain ⟨k', c'⟩ := x
      refine if_neg fun hk : k' = k => hji ?_
      exact h k j (mem_range.1 hj) i hi ⟨c', hk ▸ hvj⟩ ⟨c, hv⟩
  · exact fun hni => absurd (mem_range.2 hi) hni

theorem count_eq_zero (h : ∀ i < n, ¬At v i k) : count n v k = 0 := by
  refine sum_eq_zero fun i hi => ?_
  cases hv : v i with
  | none => rfl
  | some x =>
    obtain ⟨k', c⟩ := x
    exact if_neg fun hk : k' = k => h i (mem_range.1 hi) ⟨c, hk ▸ hv⟩

/-- If no slot has a zero count, then the keys that have a slot are those with a positive count. -/
theorem Distinct.count_pos_iff (h : Distinct n v)
    (hpos : ∀ i < n, ∀ k c, v i = some (k, c) → 0 < c) :
    0 < count n v k ↔ ∃ i < n, At v i k := by
  constructor
  · intro hk
    by_contra hnone
    rw [count_eq_zero fun i hi hv => hnone ⟨i, hi, hv⟩] at hk
    exact lt_irrefl 0 hk
  · rintro ⟨i, hi, c, hv⟩
    rw [h.count_eq hi hv]
    exact hpos i hi k c hv

/-! ## Changing one slot -/

omit [DecidableEq κ] in
theorem at_update {x : Option (κ × ℕ)} :
    At (update v i x) j k ↔ if j = i then ∃ c, x = some (k, c) else At v j k := by
  unfold At
  by_cases hj : j = i
  · rw [if_pos hj, hj, update_self]
  · rw [if_neg hj, update_of_ne hj]

omit [DecidableEq κ] in
/-- A slot that gets a key which no other slot has. -/
theorem Distinct.put (h : Distinct n v) (hk : ∀ j < n, j ≠ i → ¬At v j k) :
    Distinct n (update v i (some (k, c))) := by
  intro l a ha b hb hla hlb
  rw [at_update] at hla hlb
  by_cases hai : a = i <;> by_cases hbi : b = i
  · rw [hai, hbi]
  · rw [if_pos hai] at hla
    rw [if_neg hbi] at hlb
    obtain ⟨c', hc⟩ := hla
    cases hc
    exact absurd hlb (hk b hb hbi)
  · rw [if_neg hai] at hla
    rw [if_pos hbi] at hlb
    obtain ⟨c', hc⟩ := hlb
    cases hc
    exact absurd hla (hk a ha hai)
  · rw [if_neg hai] at hla
    rw [if_neg hbi] at hlb
    exact h l a ha b hb hla hlb

omit [DecidableEq κ] in
theorem Distinct.take (h : Distinct n v) (i : ℕ) : Distinct n (update v i none) := by
  intro l a ha b hb hla hlb
  rw [at_update] at hla hlb
  by_cases hai : a = i
  · rw [if_pos hai] at hla
    exact nomatch hla
  · by_cases hbi : b = i
    · rw [if_pos hbi] at hlb
      exact nomatch hlb
    · rw [if_neg hai] at hla
      rw [if_neg hbi] at hlb
      exact h l a ha b hb hla hlb

end FastLinQ.Counted
