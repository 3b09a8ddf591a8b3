import Mathlib

/-!
# Loops that take an answer in each turn

A loop `while (!fin) turn` that takes one answer of its environment in each turn, over an endless
supply of answers. `run fin turn env s n` is the state after `n` turns, or the state in which the
loop ended, if it ended before. The loop ends if it has finished after some number of turns.

`track` follows a loop over a number of turns in which it does not end, `track_or` follows it over
any number of turns. `doRun` is the loop `do turn while (!fin)`.
-/

namespace FastLinQ.Loop

open Nat

variable {σ α : Type*} (fin : σ → Prop) [DecidablePred fin] (turn : σ → α → σ)

def run (env : ℕ → α) (s : σ) : ℕ → σ
  | 0 => s
  | n + 1 => if fin (run env s n) then run env s n else turn (run env s n) (env n)

variable {fin turn} {env : ℕ → α} {s : σ}

theorem run_succ {n : ℕ} (h : ¬ fin (run fin turn env s n)) :
    run fin turn env s (n + 1) = turn (run fin turn env s n) (env n) := if_neg h

theorem run_succ_left (h : ¬ fin s) (n : ℕ) :
    run fin turn env s (n + 1) = run fin turn (fun i => env (i + 1)) (turn s (env 0)) n := by
  induction n with
  | zero => exact if_neg h
  | succ n ih =>
    change (if fin (run fin turn env s (n + 1)) then _ else turn (run fin turn env s (n + 1)) _) = _
    rw [ih]
    rfl

theorem run_of_fin {n m : ℕ} (h : fin (run fin turn env s n)) (hm : n ≤ m) :
    run fin turn env s m = run fin turn env s n := by
  induction m, hm using le_induction with
  | base => rfl
  | succ m _ ih =>
    rw [← ih] at h ⊢
    exact if_pos h

/-- **What each turn keeps** holds after any number of turns. -/
theorem invariant {P : σ → Prop} (h₀ : P s) (hstep : ∀ t a, P t → ¬ fin t → P (turn t a)) (n : ℕ) :
    P (run fin turn env s n) := by
  induction n with
  | zero => exact h₀
  | succ n ih =>
    by_cases hn : fin (run fin turn env s n)
    · rwa [run_of_fin hn n.le_succ]
    · rw [run_succ hn]
      exact hstep _ _ ih hn

/-- **A loop that goes on**: a property that lets the loop go on, and that the next turn keeps,
holds after as many turns. -/
theorem track {P : ℕ → σ → Prop} (h₀ : P 0 s) {n : ℕ}
    (hstep : ∀ i < n, ∀ t, P i t → ¬ fin t ∧ P (i + 1) (turn t (env i))) :
    P n (run fin turn env s n) := by
  induction n with
  | zero => exact h₀
  | succ n ih =>
    obtain ⟨hfin, hP⟩ := hstep n (by omega) _ (ih fun i hi => hstep i (by omega))
    rwa [run_succ hfin]

/-- **A loop that may end**: after any number of turns the loop is on its way, or it has ended or
will end as expected. -/
theorem track_or {P : ℕ → σ → Prop} {D : σ → Prop} (h₀ : P 0 s)
    (hD : ∀ i t, D t → ¬ fin t → D (turn t (env i)))
    (hstep : ∀ i t, P i t → ¬ fin t → P (i + 1) (turn t (env i)) ∨ D (turn t (env i)))
    (hfin : ∀ i t, P i t → fin t → D t) (n : ℕ) :
    P n (run fin turn env s n) ∨ D (run fin turn env s n) := by
  induction n with
  | zero => exact .inl h₀
  | succ n ih =>
    by_cases hn : fin (run fin turn env s n)
    · rw [run_of_fin hn n.le_succ]
      exact .inr (ih.elim (fun hP => hfin n _ hP hn) id)
    · rw [run_succ hn]
      exact ih.elim (fun hP => hstep n _ hP hn) fun h => .inr (hD n _ h hn)

/-! ## Loops that take a turn before they look -/

variable (fin turn) in
/-- The state after `n` turns of a loop whose first turn is always taken. -/
def doRun (env : ℕ → α) (s : σ) : ℕ → σ
  | 0 => s
  | n + 1 => run fin turn (fun i => env (i + 1)) (turn s (env 0)) n

/-- The next turn is taken if it is the first one, or if the loop has not ended. -/
theorem doRun_succ {n : ℕ} (h : n = 0 ∨ ¬ fin (doRun fin turn env s n)) :
    doRun fin turn env s (n + 1) = turn (doRun fin turn env s n) (env n) := by
  cases n with
  | zero => rfl
  | succ n => exact run_succ (h.resolve_left (succ_ne_zero n))

theorem doRun_of_fin {n m : ℕ} (hn : 0 < n) (h : fin (doRun fin turn env s n)) (hm : n ≤ m) :
    doRun fin turn env s m = doRun fin turn env s n := by
  cases n with
  | zero => omega
  | succ n =>
    cases m with
    | zero => omega
    | succ m => exact run_of_fin h (le_of_succ_le_succ hm)

/-- Taking the first turn apart, if the loop goes on after it. -/
theorem doRun_succ_left (env : α) {s : σ} (h : ¬ fin (turn s env)) (n : ℕ) :
    doRun fin turn (fun _ => env) s (n + 1) = doRun fin turn (fun _ => env) (turn s env) n := by
  induction n with
  | zero => rfl
  | succ n ih =>
    by_cases hn : fin (doRun fin turn (fun _ => env) s (n + 1))
    · have hpos : 0 < n := Nat.pos_of_ne_zero fun h0 => by
        subst h0
        exact h hn
      rw [doRun_of_fin n.succ_pos hn (le_succ _), ih]
      rw [ih] at hn
      rw [doRun_of_fin hpos hn n.le_succ]
    · rw [doRun_succ (.inr hn), ih]
      rw [ih] at hn
      rw [doRun_succ (.inr hn)]

end FastLinQ.Loop
