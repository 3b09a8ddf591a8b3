import Mathlib

/-!
# Completions in order

Requests are posted in order and completed in order. The completions arrive as notices, each of
which completes the next so many requests. A reader goes through the requests one by one, under the
first notice it has not retired yet; what it reports for a request depends on the status of the
notice and on whether the request is the last one under it. A notice is retired when all its
requests were gone through.

`reports` is what is to be reported under some notices. `Served` says where a reader stands: what it
has reported, and what is to be reported under the notices that it has not retired, is what is to be
reported under all of them. `Midway` has the retired notices beside those that are not.

`drain` is the loop of a reader that may report a limited number of entries at a time.
-/

namespace FastLinQ.Completion

open List Nat

variable {E S W : Type*}

/-- A notice completes the next `span` requests. -/
structure Notice (S : Type*) where
  span : ℕ
  status : S

/-- The number of requests that some notices complete. -/
def spans : List (Notice S) → ℕ
  | [] => 0
  | n :: l => n.span + spans l

/-- The notices after `k` requests under the first of them. -/
def shorten (k : ℕ) : List (Notice S) → List (Notice S)
  | [] => []
  | n :: l => ⟨n.span - k, n.status⟩ :: l

variable (out : S → Bool → E → List W)

/-- What is to be reported for the requests of one notice. -/
def report (status : S) : List E → List W
  | [] => []
  | e :: es => out status es.isEmpty e ++ report status es

def reports : List E → List (Notice S) → List W
  | _, [] => []
  | posted, n :: l =>
    report out n.status (posted.take n.span) ++ reports (posted.drop n.span) l

variable {out} {posted : List E} {log todo : List (Notice S)} {c k : ℕ} {reported : List W}
  {n : Notice S} {e : E} {status : S}

/-! ## What is to be reported -/

theorem spans_append (l r : List (Notice S)) : spans (l ++ r) = spans l + spans r := by
  induction l with
  | nil => exact (Nat.zero_add _).symm
  | cons n l ih => rw [cons_append, spans, spans, ih, Nat.add_assoc]

theorem reports_append (posted : List E) (l r : List (Notice S)) :
    reports out posted (l ++ r) =
      reports out posted l ++ reports out (posted.drop (spans l)) r := by
  induction l generalizing posted with
  | nil => rfl
  | cons n l ih =>
    rw [cons_append, reports, reports, ih, append_assoc, drop_drop, spans]

/-- Later requests do not matter. -/
theorem reports_posted (h : spans log ≤ posted.length) (later : List E) :
    reports out (posted ++ later) log = reports out posted log := by
  induction log generalizing posted with
  | nil => rfl
  | cons n l ih =>
    rw [spans] at h
    rw [reports, reports, take_append_of_le_length (by omega),
      drop_append_of_le_length (by omega), ih (by rw [length_drop]; omega)]

variable (out) in
/-- The requests of a notice are reported from the first one on. -/
theorem report_drop (status : S) (k : ℕ) (es : List E) :
    ∃ ws, report out status es = ws ++ report out status (es.drop k) := by
  induction k generalizing es with
  | zero => exact ⟨[], rfl⟩
  | succ k ih =>
    cases es with
    | nil => exact ⟨[], rfl⟩
    | cons e es =>
      obtain ⟨ws, hws⟩ := ih es
      refine ⟨out status es.isEmpty e ++ ws, ?_⟩
      rw [report, hws, append_assoc, drop_succ_cons]

variable (out) in
/-- What is left to report after `k` requests under the first notice. -/
theorem reports_shorten (posted : List E) (hk : ∀ n ∈ log.head?, k ≤ n.span) :
    ∃ ws, reports out posted log = ws ++ reports out (posted.drop k) (shorten k log) := by
  cases log with
  | nil => exact ⟨[], rfl⟩
  | cons n l =>
    have hle : k ≤ n.span := hk n rfl
    obtain ⟨ws, hws⟩ := report_drop out n.status k (posted.take n.span)
    refine ⟨ws, ?_⟩
    rw [shorten, reports, reports, hws, drop_take, drop_drop, Nat.add_sub_cancel' hle, append_assoc]

/-! ## The reader -/

variable (out) in
/-- The reader has gone through the first `c` requests and reported `reported`. Of the notices `log`
there is `todo` left. -/
structure Served (posted : List E) (log : List (Notice S)) (c : ℕ) (todo : List (Notice S))
    (reported : List W) : Prop where
  within : spans log ≤ posted.length
  left : c + spans todo = spans log
  reported : reported ++ reports out (posted.drop c) todo = reports out posted log

namespace Served

theorem start : Served out [] [] 0 [] [] := ⟨le_rfl, rfl, rfl⟩

variable (h : Served out posted log c todo reported)

include h

theorem le_length : c ≤ posted.length := by
  have hwithin := h.within
  have hleft := h.left
  omega

theorem post (e : E) : Served out (posted ++ [e]) log c todo reported where
  within := by
    rw [length_append]
    exact h.within.trans (le_add_right _ _)
  left := h.left
  reported := by
    have hwithin := h.within
    have hleft := h.left
    rw [drop_append_of_le_length h.le_length, reports_posted h.within,
      reports_posted (by rw [length_drop]; omega)]
    exact h.reported

theorem notice (hn : spans log + n.span ≤ posted.length) :
    Served out posted (log ++ [n]) c (todo ++ [n]) reported where
  within := by
    rw [spans_append]
    exact hn
  left := by
    rw [spans_append, spans_append, ← h.left, Nat.add_assoc]
  reported := by
    rw [reports_append, reports_append, ← append_assoc, h.reported, drop_drop, h.left]

omit h in
/-- **One request** under the first notice. -/
theorem advance (h : Served out posted log c (⟨k + 1, status⟩ :: todo) reported)
    (he : posted[c]? = some e) :
    Served out posted log (c + 1) (⟨k, status⟩ :: todo)
      (reported ++ out status (decide (k = 0)) e) where
  within := h.within
  left := by
    have hleft := h.left
    simp only [spans] at hleft ⊢
    omega
  reported := by
    have hwithin := h.within
    have hleft := h.left
    simp only [spans] at hleft
    obtain ⟨hlt, rfl⟩ := List.getElem?_eq_some_iff.1 he
    have hdrop := drop_eq_getElem_cons hlt
    have hlast : ((posted.drop (c + 1)).take k).isEmpty = decide (k = 0) := by
      rw [Bool.eq_iff_iff, List.isEmpty_iff, decide_eq_true_iff, ← List.length_eq_zero_iff,
        length_take, length_drop]
      omega
    rw [← h.reported, hdrop, reports, reports, take_succ_cons, report, hlast,
      drop_succ_cons, append_assoc, append_assoc]

omit h in
theorem retire (h : Served out posted log c (⟨0, status⟩ :: todo) reported) :
    Served out posted log c todo reported where
  within := h.within
  left := by
    have hleft := h.left
    rwa [spans, Nat.zero_add] at hleft
  reported := h.reported

end Served

variable (out) in
/-- A reader that has retired the notices `past`, and has gone through `k` requests under the first
of the notices `future`. -/
structure Midway (posted : List E) (past future : List (Notice S)) (k : ℕ) (reported : List W) :
    Prop where
  served : Served out posted (past ++ future) (spans past + k) (shorten k future) reported
  partway : k = 0 ∨ ∃ n ∈ future.head?, k < n.span

namespace Midway

variable {past future rest : List (Notice S)}

theorem start : Midway out [] [] [] 0 [] := ⟨.start, .inl rfl⟩

theorem le_span (h : Midway out posted past (n :: rest) k reported) : k ≤ n.span := by
  rcases h.partway with rfl | ⟨m, hm, hlt⟩
  · exact zero_le _
  · obtain rfl := Option.mem_some.1 hm
    exact hlt.le

theorem within (h : Midway out posted past (n :: rest) k reported) :
    spans past + n.span ≤ posted.length := by
  have hwithin := h.served.within
  rw [spans_append, spans] at hwithin
  omega

theorem post (h : Midway out posted past future k reported) (e : E) :
    Midway out (posted ++ [e]) past future k reported :=
  ⟨h.served.post e, h.partway⟩

theorem notice (h : Midway out posted past future k reported)
    (hn : spans (past ++ future) + n.span ≤ posted.length) :
    Midway out posted past (future ++ [n]) k reported where
  served := by
    have hserved := h.served.notice hn
    rw [← append_assoc]
    cases future with
    | nil =>
      have hk : k = 0 := h.partway.resolve_right nofun
      rw [hk] at hserved ⊢
      exact hserved
    | cons m future => exact hserved
  partway := by
    refine h.partway.imp_right ?_
    rintro ⟨m, hm, hlt⟩
    refine ⟨m, ?_, hlt⟩
    cases future with
    | nil => exact nomatch hm
    | cons m' future => exact hm

/-- The request that the first notice goes up to. -/
theorem current (h : Midway out posted past (n :: rest) k reported) :
    Served out posted (past ++ n :: rest) (spans past + k)
      (⟨spans past + n.span - (spans past + k), n.status⟩ :: rest) reported := by
  have hserved := h.served
  rwa [shorten, ← Nat.add_sub_add_left (spans past)] at hserved

/-- All requests of the first notice were gone through. -/
theorem retired
    (h : Served out posted (past ++ n :: rest) (spans past + n.span) (⟨0, n.status⟩ :: rest)
      reported) : Midway out posted (past ++ [n]) rest 0 reported where
  served := by
    have hretired := h.retire
    rw [spans_append, append_assoc]
    cases rest with
    | nil => exact hretired
    | cons m rest => exact hretired
  partway := .inl rfl

/-- The reader has come to `c`, to the end of the first notice or not. -/
theorem reached (hpast : spans past ≤ c) (hle : c ≤ spans past + n.span)
    (h : Served out posted (past ++ n :: rest) c (⟨spans past + n.span - c, n.status⟩ :: rest)
      reported) :
    (c = spans past + n.span ∧ c = spans (past ++ [n]) + 0 ∧
        Midway out posted (past ++ [n]) rest 0 reported) ∨
      c ≠ spans past + n.span ∧
        ∃ k, c = spans past + k ∧ Midway out posted past (n :: rest) k reported := by
  rcases hle.eq_or_lt with rfl | hlt
  · rw [Nat.sub_self] at h
    exact .inl ⟨rfl, (spans_append past [n]).symm, retired h⟩
  · obtain ⟨k, rfl⟩ := Nat.exists_eq_add_of_le hpast
    rw [Nat.add_sub_add_left] at h
    exact .inr ⟨hlt.ne, k, rfl, h, .inr ⟨n, rfl, Nat.lt_of_add_lt_add_left hlt⟩⟩

/-- What was reported lies between what is to be reported under the retired notices and under all
of them. -/
theorem between (h : Midway out posted past future k reported) :
    reports out posted past <+: reported ∧ reported <+: reports out posted (past ++ future) := by
  have hk : ∀ n ∈ future.head?, k ≤ n.span := by
    intro n hn
    cases future with
    | nil => exact nomatch hn
    | cons m rest =>
      obtain rfl := Option.mem_some.1 hn
      exact h.le_span
  obtain ⟨ws, hws⟩ := reports_shorten out (posted.drop (spans past)) hk
  have hreported := h.served.reported
  rw [reports_append, hws, ← drop_drop, ← append_assoc] at hreported
  exact ⟨⟨ws, (append_cancel_right hreported).symm⟩, ⟨_, h.served.reported⟩⟩

end Midway

/-! ## Reading with a limit -/

section Drain

variable {σ D : Type*} (stop : σ → Bool) (turn : σ → σ × D) (paid : D → Bool)

/-- `while (budget && !stop) turn`, where a turn that is paid for uses up one of the budget, for at
most the given number of turns. The turns that were made are returned. -/
def drain : ℕ → ℕ → σ → σ × List D
  | 0, _, s => (s, [])
  | t + 1, budget, s =>
    if budget = 0 ∨ stop s then (s, [])
    else
      let r := turn s
      let rest := drain t (if paid r.2 then budget - 1 else budget) r.1
      (rest.1, r.2 :: rest.2)

variable {stop turn paid}

variable {s : σ}

theorem drain_invariant {P : σ → Prop} (hturn : ∀ s, P s → P (turn s).1) (h : P s) (t budget : ℕ) :
    P (drain stop turn paid t budget s).1 := by
  induction t generalizing s budget with
  | zero => exact h
  | succ t ih =>
    rw [drain]
    split
    · exact h
    · exact ih (hturn s h) _

theorem drain_forall {R : D → Prop} (hturn : ∀ s, R (turn s).2) (t budget : ℕ) (s : σ) :
    ∀ d ∈ (drain stop turn paid t budget s).2, R d := by
  induction t generalizing s budget with
  | zero => exact nofun
  | succ t ih =>
    rw [drain]
    split
    · exact nofun
    · intro d hd
      rcases mem_cons.1 hd with rfl | hd
      · exact hturn s
      · exact ih _ _ d hd

theorem drain_length_le (t budget : ℕ) (s : σ) :
    (drain stop turn paid t budget s).2.length ≤ t := by
  induction t generalizing s budget with
  | zero => exact le_rfl
  | succ t ih =>
    rw [drain]
    split
    · exact zero_le _
    · exact succ_le_succ (ih _ _)

theorem drain_of_stop (h : stop s = true) (t budget : ℕ) :
    drain stop turn paid t budget s = (s, []) := by
  cases t with
  | zero => rfl
  | succ t => rw [drain, if_pos (.inr h)]

theorem drain_ne_nil (h : stop s = false) {t budget : ℕ} (ht : 0 < t) (hb : 0 < budget) :
    (drain stop turn paid t budget s).2 ≠ [] := by
  cases t with
  | zero => exact absurd ht (lt_irrefl 0)
  | succ t =>
    rw [drain, if_neg (not_or_intro hb.ne' (Bool.eq_false_iff.1 h))]
    exact cons_ne_nil _ _

/-- The budget does not matter as long as it is not used up. -/
theorem drain_budget {t b b' : ℕ} (hb : ((drain stop turn paid t b s).2.filter paid).length < b)
    (hb' : ((drain stop turn paid t b s).2.filter paid).length < b') :
    drain stop turn paid t b' s = drain stop turn paid t b s := by
  induction t generalizing b b' s with
  | zero => rfl
  | succ t ih =>
    by_cases hs : stop s = true
    · rw [drain_of_stop hs, drain_of_stop hs]
    · have hpos := not_or_intro (Nat.ne_zero_of_lt hb) hs
      have hpos' : ¬(b' = 0 ∨ stop s = true) := not_or_intro (Nat.ne_zero_of_lt hb') hs
      rw [drain, if_neg hpos] at hb hb'
      rw [drain, drain, if_neg hpos, if_neg hpos']
      dsimp only at hb hb' ⊢
      rw [filter_cons] at hb hb'
      by_cases hp : paid (turn s).2 = true
      · rw [if_pos hp, if_pos hp] at hb hb'
        rw [if_pos hp, if_pos hp, ih (lt_sub_of_add_lt hb) (lt_sub_of_add_lt hb')]
      · rw [if_neg hp, if_neg hp] at hb hb'
        rw [if_neg hp, if_neg hp, ih hb hb']

variable (paid) in
/-- **A loop with a limit** that has to make the turns `c` to `a`: it makes those up to some `c'`,
and if it does not make all of them then the budget is used up. -/
theorem drain_spec {P : ℕ → List D → σ → Prop} {a : ℕ}
    (hturn : ∀ c ds s, c < a → P c ds s →
      stop s = false ∧ P (c + 1) (ds ++ [(turn s).2]) (turn s).1)
    (hstop : ∀ ds s, P a ds s → stop s = true) {c : ℕ} (hc : c ≤ a) (ds : List D) (h : P c ds s)
    {t : ℕ} (ht : a ≤ c + t) (budget : ℕ) :
    ∃ c', c ≤ c' ∧ c' ≤ a ∧
      P c' (ds ++ (drain stop turn paid t budget s).2) (drain stop turn paid t budget s).1 ∧
      ((drain stop turn paid t budget s).2.filter paid).length ≤ budget ∧
      (c' = a ∨ ((drain stop turn paid t budget s).2.filter paid).length = budget) := by
  induction t generalizing c ds s budget with
  | zero =>
    refine ⟨c, le_rfl, hc, ?_, zero_le _, .inl (by omega)⟩
    rw [drain, append_nil]
    exact h
  | succ t ih =>
    rw [drain]
    by_cases hend : budget = 0 ∨ stop s = true
    · rw [if_pos hend, append_nil]
      refine ⟨c, le_rfl, hc, h, zero_le _, ?_⟩
      rcases hend with hzero | hs
      · exact .inr hzero.symm
      · left
        by_contra hne
        rw [(hturn c ds s (by omega) h).1] at hs
        exact Bool.false_ne_true hs
    · rw [if_neg hend]
      rw [not_or] at hend
      have hlt : c < a := by
        rcases hc.lt_or_eq with hlt | rfl
        · exact hlt
        · exact absurd (hstop ds s h) hend.2
      obtain ⟨-, hnext⟩ := hturn c ds s hlt h
      obtain ⟨c', hle, hle', hP, hbudget, hall⟩ :=
        ih hlt _ hnext (by omega) (if paid (turn s).2 then budget - 1 else budget)
      rw [append_assoc, singleton_append] at hP
      refine ⟨c', by omega, hle', hP, ?_, hall.imp_right fun hall => ?_⟩
      all_goals
        rw [filter_cons]
        split
        · next hpaid =>
          rw [if_pos hpaid] at *
          rw [length_cons]
          omega
        · next hpaid =>
          rw [if_neg hpaid] at *
          assumption

end Drain

end FastLinQ.Completion
