import Mathlib

/-!
# Things in places

Objects move between the lists of a system. `Filed list f` says that each object is on the list
of its place `f x` once, and on no other; an object whose place is `none` is on no list. A step
that takes an object from one list to another keeps the lists filed, in whatever order it leaves
them (`Filed.move`), and so does one that brings a new object (`Filed.enter`). A table may hold an
object in each of its entries; `tabled` is the list of them.
-/

namespace FastLinQ.Places

open Function List

variable {α κ : Type*}

/-- The lists hold each object at its place. -/
structure Filed (list : κ → List α) (f : α → Option κ) : Prop where
  nodup : ∀ k, (list k).Nodup
  mem_iff : ∀ k x, x ∈ list k ↔ f x = some k

variable {list list' : κ → List α} {f : α → Option κ} {x : α} {a b : κ}

section

variable (h : Filed list f)

include h

theorem Filed.place (hx : x ∈ list a) : f x = some a := (h.mem_iff a x).1 hx

theorem Filed.head {l : List α} (hl : list a = x :: l) : f x = some a :=
  h.place (by rw [hl]; exact mem_cons_self)

/-- An object is on one list only. -/
theorem Filed.eq_of_mem (ha : x ∈ list a) (hb : x ∈ list b) : a = b :=
  Option.some.inj ((h.place ha).symm.trans (h.place hb))

theorem Filed.ne_of_mem {z : α} (hx : x ∈ list a) (hz : z ∈ list b) (hab : a ≠ b) :
    z ≠ x := fun he => hab (h.eq_of_mem (he ▸ hx) hz)

theorem Filed.not_mem (ha : x ∈ list a) (hab : a ≠ b) : x ∉ list b :=
  fun hb => hab (h.eq_of_mem ha hb)

theorem Filed.perm (hk : ∀ k, (list' k).Perm (list k)) : Filed list' f :=
  ⟨fun k => (hk k).nodup_iff.2 (h.nodup k), fun k z => by rw [(hk k).mem_iff, h.mem_iff]⟩

theorem Filed.nodup_flatMap {ks : List κ} (hks : ks.Nodup) : (ks.flatMap list).Nodup := by
  refine List.nodup_flatMap.2 ⟨fun k _ => h.nodup k, hks.imp fun hab => ?_⟩
  exact fun x ha hb => hab (h.eq_of_mem ha hb)

end

variable [DecidableEq α]

/-- An object is put on a list, and taken off any other one. -/
theorem Filed.put (h : Filed list f) (hnot : x ∉ list b) (hb : (list' b).Perm (x :: list b))
    (hk : ∀ k, k ≠ b → (list' k).Perm ((list k).erase x)) : Filed list' (update f x (some b)) := by
  refine ⟨fun k => ?_, fun k z => ?_⟩
  · by_cases hkb : k = b
    · subst hkb
      exact hb.nodup_iff.2 (nodup_cons.2 ⟨hnot, h.nodup k⟩)
    · exact (hk k hkb).nodup_iff.2 ((h.nodup k).erase x)
  · by_cases hkb : k = b
    · subst hkb
      rw [hb.mem_iff, mem_cons]
      by_cases hz : z = x
      · subst hz
        exact iff_of_true (.inl rfl) (update_self ..)
      · rw [update_of_ne hz, ← h.mem_iff]
        exact or_iff_right hz
    · rw [(hk k hkb).mem_iff, (h.nodup k).mem_erase_iff]
      by_cases hz : z = x
      · subst hz
        rw [update_self, Option.some.injEq]
        exact iff_of_false (fun hmem => hmem.1 rfl) fun he => hkb he.symm
      · rw [update_of_ne hz, ← h.mem_iff]
        exact and_iff_right hz

theorem ne_of_perm_erase (ha : (list' a).Perm ((list a).erase x))
    (hb : (list' b).Perm (x :: list b)) : a ≠ b := by
  rintro rfl
  have hlen := ha.length_eq.symm.trans hb.length_eq
  have hle := (erase_sublist (a := x) (l := list a)).length_le
  rw [length_cons] at hlen
  omega

/-- **Taking an object from one list to another.** -/
theorem Filed.move (h : Filed list f) (hx : x ∈ list a) (ha : (list' a).Perm ((list a).erase x))
    (hb : (list' b).Perm (x :: list b)) (hk : ∀ k, k ≠ a → k ≠ b → list' k = list k) :
    Filed list' (update f x (some b)) := by
  refine h.put (h.not_mem hx (ne_of_perm_erase ha hb)) hb fun k hkb => ?_
  by_cases hka : k = a
  · exact hka ▸ ha
  · rw [hk k hka hkb, erase_of_not_mem (h.not_mem hx (Ne.symm hka))]

theorem Filed.pop {l : List α} (h : Filed list f) (hl : list a = x :: l) (ha : list' a = l)
    (hb : (list' b).Perm (x :: list b)) (hk : ∀ k, k ≠ a → k ≠ b → list' k = list k) :
    Filed list' (update f x (some b)) := by
  refine h.move (by rw [hl]; exact mem_cons_self) ?_ hb hk
  rw [ha, hl, erase_cons_head]

theorem update_eq_none_iff (hx : f x = some a) (z : α) :
    update f x (some b) z = none ↔ f z = none := by
  by_cases hz : z = x
  · subst hz
    rw [update_self, hx]
    exact iff_of_false nofun nofun
  · rw [update_of_ne hz]

/-- Taking an object to another list from whichever of two it is on. -/
theorem Filed.moveEither {c : κ} {l : κ → List α} (h : Filed list f) (hx : x ∈ list a ∨ x ∈ list c)
    (ha : l a = (list a).erase x) (hc : l c = (list c).erase x)
    (hb : (l b).Perm (x :: list b)) (hk : ∀ k, k ≠ a → k ≠ c → k ≠ b → l k = list k) :
    Filed l (update f x (some b)) ∧ ∀ z, update f x (some b) z = none ↔ f z = none := by
  have hnot : ∀ k, k ≠ a → k ≠ c → x ∉ list k := fun k hka hkc hmem =>
    hx.elim (fun hx => hka (h.eq_of_mem hmem hx)) fun hx => hkc (h.eq_of_mem hmem hx)
  have hab := ne_of_perm_erase (.of_eq ha) hb
  have hcb := ne_of_perm_erase (.of_eq hc) hb
  refine ⟨h.put (hnot b hab.symm hcb.symm) hb fun k hkb => ?_, ?_⟩
  · by_cases hka : k = a
    · rw [hka, ha]
    · by_cases hkc : k = c
      · rw [hkc, hc]
      · rw [hk k hka hkc hkb, erase_of_not_mem (hnot k hka hkc)]
  · exact hx.elim (fun hx => update_eq_none_iff (h.place hx)) fun hx =>
      update_eq_none_iff (h.place hx)

/-- **Bringing a new object.** -/
theorem Filed.enter (h : Filed list f) (hx : f x = none) (hb : (list' b).Perm (x :: list b))
    (hk : ∀ k, k ≠ b → list' k = list k) : Filed list' (update f x (some b)) := by
  have hnot : ∀ k, x ∉ list k := fun k hmem => by
    have := h.place hmem
    rw [hx] at this
    cases this
  refine h.put (hnot b) hb fun k hkb => ?_
  rw [hk k hkb, erase_of_not_mem (hnot k)]

/-- Of two different lists an object is on at most one, and there at most once. -/
theorem Filed.count_eq (h : Filed list f) (k : κ) (z : α) [DecidableEq κ] :
    (list k).count z = if f z = some k then 1 else 0 := by
  split
  · rename_i hz
    exact count_eq_one_of_mem (h.nodup k) ((h.mem_iff k z).2 hz)
  · rename_i hz
    exact count_eq_zero_of_not_mem fun hmem => hz (h.place hmem)

/-! ## Tables -/

def tabled (t : ℕ → Option α) (n : ℕ) : List α := (List.range n).filterMap t

omit [DecidableEq α] in
theorem tabled_succ (t : ℕ → Option α) (n : ℕ) : tabled t (n + 1) = tabled t n ++ (t n).toList := by
  rw [tabled, range_succ, filterMap_append]
  congr 1

omit [DecidableEq α] in
theorem mem_tabled {t : ℕ → Option α} {n : ℕ} : x ∈ tabled t n ↔ ∃ i < n, t i = some x := by
  simp [tabled]

/-- An entry of a table is replaced: its object goes, and the new one comes. -/
theorem count_tabled_update (t : ℕ → Option α) {n i : ℕ} (hi : i < n) (o : Option α) (z : α) :
    (tabled (update t i o) n).count z + (t i).toList.count z =
      (tabled t n).count z + o.toList.count z := by
  induction n with
  | zero => omega
  | succ n ih =>
    simp only [tabled_succ, count_append]
    rcases Nat.lt_succ_iff_lt_or_eq.1 hi with hi | rfl
    · rw [update_of_ne (by omega)]
      omega
    · have hsame : tabled (update t i o) i = tabled t i :=
        filterMap_congr fun j hj => update_of_ne (by simp at hj; omega) ..
      rw [update_self, hsame]
      omega

end FastLinQ.Places
