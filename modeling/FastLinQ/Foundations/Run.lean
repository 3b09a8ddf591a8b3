import Mathlib

/-!
# Runs of a step function

A system is a total step function `step : σ → α → σ`; a run is a list of actions, and the state it
reaches is `l.foldl step s`. Not every list is a run of interest: `Meets ok step s l` says that
each action of `l` meets the condition `ok` in the state it is taken in.

`Meets.invariant` is the induction over runs: a property that a step keeps wherever its
condition is met holds in every state of a run that meets the condition. `Meets.history` is the same
for a property that also speaks about the actions so far.
-/

namespace FastLinQ.Run

variable {σ α : Type*} {ok : σ → α → Prop} {step : σ → α → σ}

/-- Each action of the list meets `ok` in the state it is taken in. -/
def Meets (ok : σ → α → Prop) (step : σ → α → σ) : σ → List α → Prop
  | _, [] => True
  | s, a :: l => ok s a ∧ Meets ok step (step s a) l

instance decidableMeets (ok : σ → α → Prop) (step : σ → α → σ) [∀ s a, Decidable (ok s a)] :
    ∀ s l, Decidable (Meets ok step s l)
  | _, [] => .isTrue trivial
  | s, a :: l =>
    have := decidableMeets ok step (step s a) l
    inferInstanceAs (Decidable (ok s a ∧ Meets ok step (step s a) l))

variable {s : σ}

/-- The first part of a run, and the rest from the state it reaches. -/
theorem Meets.of_append {l r : List α} (h : Meets ok step s (l ++ r)) :
    Meets ok step s l ∧ Meets ok step (l.foldl step s) r := by
  induction l generalizing s with
  | nil => exact ⟨trivial, h⟩
  | cons a l ih =>
    obtain ⟨hl, hr⟩ := ih h.2
    exact ⟨⟨h.1, hl⟩, hr⟩

variable {l : List α}

/-- **Induction over a run**, for a property of the actions so far and the state. -/
theorem Meets.history {P : List α → σ → Prop}
    (hstep : ∀ l s a, P l s → ok s a → P (l ++ [a]) (step s a)) (l₀ : List α) (hs : P l₀ s)
    (h : Meets ok step s l) : P (l₀ ++ l) (l.foldl step s) := by
  induction l generalizing s l₀ with
  | nil =>
    rw [List.append_nil]
    exact hs
  | cons a l ih =>
    have hl := ih _ (hstep l₀ s a hs h.1) h.2
    rwa [List.append_assoc] at hl

variable {P : σ → Prop}

/-- Induction over a run, for a property of the state. -/
theorem Meets.invariant (hstep : ∀ s a, P s → ok s a → P (step s a)) (hs : P s)
    (h : Meets ok step s l) : P (l.foldl step s) :=
  h.history (P := fun _ => P) (fun _ => hstep) [] hs

/-- If a step keeps a property just where its condition is met, then the property holds in every
state of a run just if the run meets the condition. -/
theorem meets_iff_always (hstep : ∀ s a, P s → (P (step s a) ↔ ok s a)) (hs : P s) :
    (∀ k, P ((l.take k).foldl step s)) ↔ Meets ok step s l := by
  induction l generalizing s with
  | nil => simpa [Meets] using hs
  | cons a l ih =>
    constructor
    · intro h
      have ha : P (step s a) := h 1
      exact ⟨(hstep s a hs).1 ha, (ih ha).1 fun k => h (k + 1)⟩
    · rintro ⟨ha, hl⟩ k
      cases k with
      | zero => exact hs
      | succ k => exact (ih ((hstep s a hs).2 ha)).2 hl k

end FastLinQ.Run
