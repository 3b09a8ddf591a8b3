import Mathlib

/-!
# A cyclic bitmap

Numbered items are finished in any order and given back in order. The items that were finished too
early are remembered in a bitmap of `n` bits, at their number modulo `n`. `Marks n bits lo done`
says that the bitmap marks the items `lo` and above that are finished, `lo` being the first that
was not given back. It is exact as long as no finished item is `n` or more ahead of `lo`, for then
a bit stands for one item only.
-/

namespace FastLinQ.Window

open Function

/-- The bitmap marks the items from `lo` on that are done. -/
structure Marks (n : ℕ) (bits : ℕ → Bool) (lo : ℕ) (done : ℕ → Prop) : Prop where
  below : ∀ e < lo, done e
  above : ∀ e, done e → e < lo + n
  bit : ∀ b, bits b = true ↔ ∃ e, lo ≤ e ∧ done e ∧ e % n = b

/-- Two numbers of one window with the same bit are equal. -/
theorem eq_of_mod_eq {n lo e e' : ℕ} (h : lo ≤ e) (h' : lo ≤ e') (hlt : e < lo + n)
    (hlt' : e' < lo + n) (hmod : e % n = e' % n) : e = e' := by
  have hsub : e - lo ≡ e' - lo [MOD n] := by
    refine Nat.ModEq.add_right_cancel' lo ?_
    rwa [Nat.sub_add_cancel h, Nat.sub_add_cancel h']
  have := hsub.eq_of_lt_of_lt (by omega) (by omega)
  omega

variable {n lo : ℕ} {bits : ℕ → Bool} {done : ℕ → Prop}

theorem Marks.front_iff (h : Marks n bits lo done) (hn : 0 < n) :
    bits (lo % n) = true ↔ done lo := by
  rw [h.bit]
  constructor
  · rintro ⟨e, hle, hd, hmod⟩
    rwa [eq_of_mod_eq le_rfl hle (by omega) (h.above e hd) hmod.symm]
  · intro hd
    exact ⟨lo, le_rfl, hd, rfl⟩

theorem Marks.mark (h : Marks n bits lo done) {e : ℕ} (he : lo ≤ e) (hlt : e < lo + n)
    {done' : ℕ → Prop} (hdone : ∀ z, done' z ↔ z = e ∨ done z) :
    Marks n (update bits (e % n) true) lo done' := by
  refine ⟨fun z hz => (hdone z).2 (.inr (h.below z hz)), fun z hz => ?_, fun b => ?_⟩
  · rcases (hdone z).1 hz with rfl | hz
    · exact hlt
    · exact h.above z hz
  · by_cases hb : b = e % n
    · subst hb
      rw [update_self]
      exact iff_of_true rfl ⟨e, he, (hdone e).2 (.inl rfl), rfl⟩
    · rw [update_of_ne hb, h.bit]
      refine exists_congr fun z => and_congr_right fun _ => ?_
      rw [hdone]
      constructor
      · exact fun hz => ⟨.inr hz.1, hz.2⟩
      · rintro ⟨rfl | hz, hmod⟩
        · exact absurd hmod.symm hb
        · exact ⟨hz, hmod⟩

theorem Marks.next (h : Marks n bits lo done) (hn : 0 < n) (hd : done lo) :
    Marks n (update bits (lo % n) false) (lo + 1) done := by
  refine ⟨fun z hz => ?_, fun z hz => ?_, fun b => ?_⟩
  · rcases Nat.lt_succ_iff_lt_or_eq.1 hz with hz | rfl
    · exact h.below z hz
    · exact hd
  · have := h.above z hz
    omega
  · by_cases hb : b = lo % n
    · subst hb
      rw [update_self]
      refine iff_of_false nofun ?_
      rintro ⟨e, hle, he, hmod⟩
      have := eq_of_mod_eq le_rfl (show lo ≤ e by omega) (by omega) (h.above e he) hmod.symm
      omega
    · rw [update_of_ne hb, h.bit]
      refine exists_congr fun e => ⟨fun ⟨hle, he, hmod⟩ => ⟨?_, he, hmod⟩,
        fun ⟨hle, he⟩ => ⟨by omega, he⟩⟩
      refine Nat.lt_of_le_of_ne hle ?_
      rintro rfl
      exact hb hmod.symm

end FastLinQ.Window
