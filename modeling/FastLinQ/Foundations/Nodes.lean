import Mathlib

/-!
# Lists of nodes

An intrusive list links nodes that are known by name, and what a node holds is in a table beside it.
With the table `f`, a list `l` of nodes stands for the list `l.map f`. The lemmas say what a change
to a node, or to the links, does to that list, if no node is linked twice.
-/

namespace FastLinQ.Nodes

open Function List

variable {α β : Type*} [DecidableEq α] {l : List α} {x p : α} {k : ℕ}

/-- `list_add(x, p)`: a node is linked in behind another one. -/
def insertAfter (p x : α) : List α → List α
  | [] => []
  | a :: l => if a = p then a :: x :: l else a :: insertAfter p x l

theorem insertAfter_eq_insertIdx (hl : l.Nodup) (hk : l[k]? = some p) :
    insertAfter p x l = l.insertIdx (k + 1) x := by
  induction l generalizing k with
  | nil => simp at hk
  | cons a l ih =>
    obtain ⟨ha, hl⟩ := nodup_cons.1 hl
    cases k with
    | zero =>
      have : a = p := by simpa using hk
      rw [insertAfter, if_pos this]
      rfl
    | succ k =>
      have hne : a ≠ p := fun h => ha (h ▸ mem_of_getElem? hk)
      rw [insertAfter, if_neg hne, ih hl hk, insertIdx_succ_cons]

theorem erase_eq_eraseIdx (hl : l.Nodup) (hk : l[k]? = some x) : l.erase x = l.eraseIdx k := by
  obtain ⟨h, rfl⟩ := List.getElem?_eq_some_iff.1 hk
  exact hl.erase_getElem k h

theorem map_update_of_not_mem (f : α → β) (hx : x ∉ l) (v : β) :
    l.map (update f x v) = l.map f :=
  map_congr_left fun a ha => update_of_ne (fun (h : a = x) => hx (h ▸ ha)) ..

theorem map_update_of_getElem? (f : α → β) (g : β → β) (hl : l.Nodup) (hk : l[k]? = some x) :
    l.map (update f x (g (f x))) = (l.map f).modify k g := by
  induction l generalizing k with
  | nil => simp at hk
  | cons a l ih =>
    obtain ⟨ha, hl⟩ := nodup_cons.1 hl
    cases k with
    | zero =>
      have : a = x := by simpa using hk
      subst this
      rw [map_cons, map_update_of_not_mem f ha, update_self, map_cons, modify_zero_cons]
    | succ k =>
      have hne : a ≠ x := fun h => ha (h ▸ mem_of_getElem? hk)
      rw [map_cons, ih hl hk, update_of_ne hne, map_cons, modify_succ_cons]

omit [DecidableEq α] in
/-- The lists of a table, when one of them is changed and only nodes that are on no other. -/
theorem map_update_table {κ : Type*} [DecidableEq κ] (links : κ → List α) {f f' : α → β} {c : κ}
    (hf : ∀ d, d ≠ c → ∀ x ∈ links d, f' x = f x) (l' : List α) :
    (fun d => (update links c l' d).map f') = update (fun d => (links d).map f) c (l'.map f') := by
  funext d
  by_cases hd : d = c
  · subst hd
    rw [update_self, update_self]
  · rw [update_of_ne hd, update_of_ne hd]
    exact map_congr_left (hf d hd)

end FastLinQ.Nodes
