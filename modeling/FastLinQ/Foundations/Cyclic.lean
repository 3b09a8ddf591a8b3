import FastLinQ.Foundations.Cells
import FastLinQ.Foundations.Word

/-!
# A queue in an array

A queue that is kept in an array of `n` slots between two counters that count modulo `N`, a multiple
of `n`. `Cyclic N n mem prod cons l` says that the queue holds the list `l`: an element is added at
`prod` (`Cyclic.push`) and taken from `cons` (`Cyclic.pop`). The counters tell an empty queue
(`Cyclic.empty_iff`), and, if the array and the counters have the same size, a queue with one slot
left (`Cyclic.last_iff`).
-/

namespace FastLinQ

open Cells Function List Nat Word

variable {β : Type*} {N n prod cons : ℕ} {mem : ℕ → β} {b c : β} {l : List β}

/-- The slots between the counters hold the list. -/
def Cyclic (N n : ℕ) (mem : ℕ → β) (prod cons : ℕ) (l : List β) : Prop :=
  ∃ k, cons = k % N ∧ prod = (k + l.length) % N ∧ Holds (· % n) mem k l

namespace Cyclic

theorem nil (N n : ℕ) (mem : ℕ → β) : Cyclic N n mem 0 0 [] :=
  ⟨0, (zero_mod N).symm, (zero_mod N).symm, trivial⟩

theorem prod_mod (h : Cyclic n n mem prod cons l) : prod % n = prod := by
  obtain ⟨k, -, hprod, -⟩ := h
  rw [hprod, mod_mod]

theorem cons_mod (h : Cyclic n n mem prod cons l) : cons % n = cons := by
  obtain ⟨k, hcons, -, -⟩ := h
  rw [hcons, mod_mod]

theorem push (h : Cyclic N n mem prod cons l) (hn : n ∣ N) (hlen : l.length < n) (b : β) :
    Cyclic N n (update mem (prod % n) b) ((prod + 1) % N) cons (l ++ [b]) := by
  obtain ⟨k, hcons, hprod, hholds⟩ := h
  have hslot : prod % n = (k + l.length) % n := by rw [hprod, mod_mod_of_dvd _ hn]
  refine ⟨k, hcons, ?_, holds_append.2 ⟨?_, ?_, trivial⟩⟩
  · rw [hprod, mod_add_mod, length_append, length_singleton, add_assoc]
  · refine hholds.congr fun i hk hi => update_of_ne ?_ _ _
    rw [hslot]
    exact apart_mod n i (k + l.length) hi (by omega)
  · rw [hslot, update_self]

theorem pop (h : Cyclic N n mem prod cons (b :: l)) (hn : n ∣ N) :
    mem (cons % n) = b ∧ Cyclic N n mem prod ((cons + 1) % N) l := by
  obtain ⟨k, hcons, hprod, hhead, hholds⟩ := h
  refine ⟨?_, k + 1, ?_, ?_, hholds⟩
  · rw [hcons, mod_mod_of_dvd _ hn]
    exact hhead
  · rw [hcons, mod_add_mod]
  · rw [hprod, length_cons, add_right_comm, add_assoc]

theorem setHead (h : Cyclic N n mem prod cons (c :: l)) (hn : n ∣ N) (hlen : l.length < n) (b : β) :
    Cyclic N n (update mem (cons % n) b) prod cons (b :: l) := by
  obtain ⟨k, hcons, hprod, hhead, hholds⟩ := h
  have hslot : cons % n = k % n := by rw [hcons, mod_mod_of_dvd _ hn]
  refine ⟨k, hcons, hprod, ?_, hholds.congr fun i hk hi => update_of_ne ?_ _ _⟩
  · rw [hslot, update_self]
  · rw [hslot]
    exact (apart_mod n k i (by omega) (by omega)).symm

/-- The slot of the element that was taken last may be written to. -/
theorem stale (h : Cyclic N n mem prod ((cons + 1) % N) l) (hn : n ∣ N) (hlen : l.length < n)
    (b : β) :
    Cyclic N n (update mem (cons % n) b) prod ((cons + 1) % N) l := by
  obtain ⟨k, hcons, hprod, hholds⟩ := h
  refine ⟨k, hcons, hprod, hholds.congr fun i hk hi => update_of_ne (fun hslot => ?_) _ _⟩
  have hround : k % n = (i + 1) % n := by
    rw [← mod_mod_of_dvd k hn, ← hcons, mod_mod_of_dvd _ hn, add_mod, ← hslot, ← add_mod]
  exact apart_mod n k (i + 1) (by omega) (by omega) hround

theorem getElem (h : Cyclic N n mem prod cons l) (hn : n ∣ N) {i : ℕ} (hi : i < l.length) :
    mem ((cons + i) % n) = l[i] := by
  obtain ⟨k, hcons, hprod, hholds⟩ := h
  have hslot : (cons + i) % n = (k + i) % n := by
    rw [hcons, add_mod, mod_mod_of_dvd _ hn, ← add_mod]
  rw [hslot]
  exact holds_getElem hholds hi

theorem empty_iff (h : Cyclic N n mem prod cons l) (hlen : l.length < N) :
    cons = prod ↔ l = [] := by
  obtain ⟨k, hcons, hprod, -⟩ := h
  rw [hcons, hprod, ← length_eq_zero_iff]
  refine ⟨fun hmod => ?_, fun hl => by rw [hl, add_zero]⟩
  by_contra hne
  exact apart_mod N k (k + l.length) (by omega) (by omega) hmod

/-- The producer would meet the consumer if the last slot were taken. -/
theorem last_iff (h : Cyclic n n mem prod cons l) (hlen : l.length < n) :
    (prod + 1) % n = cons ↔ l.length + 1 = n := by
  obtain ⟨k, hcons, hprod, -⟩ := h
  rw [hcons, hprod, mod_add_mod, add_assoc]
  refine ⟨fun hmod => ?_, fun hl => by rw [hl, add_mod_right]⟩
  by_contra hne
  exact apart_mod n k (k + (l.length + 1)) (by omega) (by omega) hmod.symm

theorem sub_eq {w : ℕ} (h : Cyclic (2 ^ w) n mem prod cons l) (hlen : l.length < 2 ^ w) :
    Word.sub w prod cons = l.length := by
  obtain ⟨k, hcons, hprod, -⟩ := h
  rw [hcons, hprod, sub_mod_left, sub_mod_right, sub_of_le (le_add_right _ _),
    Nat.add_sub_cancel_left, mod_eq_of_lt hlen]

end Cyclic

end FastLinQ
