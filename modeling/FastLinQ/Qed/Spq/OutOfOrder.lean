import FastLinQ.Qed.Spq.Order

/-!
# The ring over whole runs

`steady_step` takes the order of the ring through a step of any caller that neither completes an
element nor gives one up, `completion_steady` and `prompt_step` through the other two. The entries
have to stay filed for that (`SpqStep.Prompt`); an entry that `qed_spq_post` drops while a recovery
is in progress is filed as one its caller still holds (`SpqSys.Kept`).

A run without time-outs keeps the ring in order in any order of the completions; the completed
elements are those the run's events name (`SpqSys.completions`). A run with time-outs releases each
element once if every poster that gives up comes to the lock between the posting and the completion
of its entry.
-/

namespace FastLinQ.Qed

open Places Window Run List SpqSys Spq SpqPlace DmaEnv Nat

/-! ## One step -/

/-- The loop over the bitmap only counts what it returns. -/
theorem bmapLoop_hist (n : ℕ) (q : Spq) :
    (spqBmapLoop n q).hist = { q.hist with returned := (spqBmapLoop n q).hist.returned } := by
  induction n generalizing q with
  | zero => rfl
  | succ n ih =>
    rw [spqBmapLoop]
    split
    · exact ih (spqBmapNext q)
    · rfl

section Step

variable {base : ℕ → ℕ} {s : SpqSys} {f : ℕ → Option SpqPlace}

theorem getEntry_sameRing (ho : Own [] s f) (kzalloc : Bool) :
    s.spq.SameRing (s.step (.getEntry kzalloc)).spq := by
  simp only [step, qedSpqGetEntry]
  cases hl : s.spq.freePool with
  | nil =>
    cases kzalloc with
    | false => exact .refl _
    | true =>
      have hx : s.spq.nextEnt ∉ s.spq.completionPending := fun hc => by
        have := ho.filed.place (a := sent) hc
        rw [(ho.fresh _).2 le_rfl] at this
        cases this
      exact (setEnt_sameRing hx _).trans (sameRing_lists ..)
  | cons x l =>
    have hx : x ∈ s.spq.freePool := by rw [hl]; exact mem_cons_self
    have hxs := ho.filed.not_mem (a := free) (b := sent) hx (by decide)
    exact (setEnt_sameRing hxs _).trans (sameRing_lists ..)

theorem post_follows (ho : Own [] s f) (hc : s.spq.chain.Mapped) (h : s.spq.Steady base) {x : ℕ}
    (hx : x ∈ s.held) : s.spq.Follows base (s.step (.post x)).spq := by
  by_cases hm : (s.spq.ents x).compMode = .unknown
  · simp only [step, post_of_unknown hm]
    exact h.follows (s.spq.sameRing_lists ..)
  · have hxs := ho.filed.not_mem (a := SpqPlace.held) (b := sent) hx (by decide)
    obtain ⟨f₁, h₁⟩ := ho.takeHeld hx hm
    obtain ⟨f₂, h₂⟩ := h₁.addEntry
      ((s.spq.setEnt x (s.spq.ents x).withFunction).ents x).priority
    have hsame := (setEnt_sameRing hxs (s.spq.ents x).withFunction).trans
      (h₁.addEntry_sameRing ((s.spq.setEnt x (s.spq.ents x).withFunction).ents x).priority)
    have h₃ := h₂.pendPost_follows (by rw [addEntry_chain]; exact hc) (h.sameRing hsame)
    simp only [step, post_of_fill hm]
    exact h₃.of_sameRing hsame

theorem completion_steady (ho : Own [] s f) (h : s.spq.Steady base) (echo code : ℕ) :
    (s.step (.completion echo code)).spq.Steady base := by
  rcases completion_cases s.spq echo with ⟨b, hq⟩ | ⟨x, hx, hecho, hq⟩
  · simp only [step, hq]
    exact h.sameRing (s.spq.sameRing_lists ..)
  · subst hecho
    simp only [step, hq]
    exact h.complete (ho.filed.nodup .sent) hx

theorem callback_sameRing (q : Spq) (x code : ℕ) : q.SameRing (spqCallback q x code) := by
  unfold spqCallback
  split
  · refine ⟨rfl, rfl, rfl, rfl, rfl, rfl, rfl, rfl, rfl, rfl, fun y _ => ?_⟩
    rw [setEnt_ents]
    split
    · rename_i hy
      rw [hy]
    · rfl
  · exact .refl _

theorem leaveBlock_sameRing (q : Spq) (p : ℕ) : q.SameRing (spqLeaveBlock q p) := by
  unfold spqLeaveBlock
  split
  · exact q.sameRing_lists ..
  · exact .refl _

theorem leaveDone_sameRing (s : SpqSys) (p : ℕ) : s.spq.SameRing (s.leaveDone p).spq := by
  unfold leaveDone
  split
  · exact leaveBlock_sameRing ..
  · exact (leaveBlock_sameRing s.spq p).trans (sameRing_lists ..)

theorem leaveTimeout_sameRing (s : SpqSys) (p : ℕ) : s.spq.SameRing (s.leaveTimeout p).spq := by
  unfold leaveTimeout
  split <;> exact leaveBlock_sameRing ..

/-- **A step keeps the ring in order**, and releases no element unless it is one of two. -/
theorem steady_step (ho : s.Ordered) (h : s.spq.Steady base) {a : SpqStep} (he : a.Enabled s)
    (hcomp : ∀ echo code, a ≠ .completion echo code) (hfail : ∀ x, a ≠ .postFail2 x) :
    s.spq.Follows base (s.step a).spq := by
  obtain ⟨hc, f, ho⟩ := ho
  cases a with
  | getEntry kzalloc => exact h.follows (getEntry_sameRing ho kzalloc)
  | fill x d =>
    have hxs := ho.filed.not_mem (a := SpqPlace.got) (b := sent) he (by decide)
    simp only [step]
    split <;> exact h.follows (setEnt_sameRing hxs _)
  | destroyRequest x =>
    simp only [step, qedSpDestroyRequest]
    split <;> exact h.follows (s.spq.sameRing_lists ..)
  | post x => exact post_follows ho hc h he
  | postInRecovery x => exact h.follows (.refl _)
  | blockDone p | blockInRecovery p => exact h.follows (leaveDone_sameRing s p)
  | blockTimeout p => exact h.follows (leaveTimeout_sameRing s p)
  | postFail2 x => exact absurd rfl (hfail x)
  | completion echo code => exact absurd rfl (hcomp echo code)
  | callback g => exact h.follows (callback_sameRing ..)
  | completionEnd g =>
    simp only [step]
    split
    · exact h.follows (.refl _)
    · exact h.follows (s.spq.sameRing_lists ..)
  | pendPost => exact ho.pendPost_follows hc h
  | dropNextCompletion =>
    exact h.follows (s.spq.sameRing_lists ..)

end Step

theorem steady_start {env : DmaEnv} {c : Chain} (h : qedChainAlloc env spqChainParams = .ok c)
    (ramrodPhys : ℕ → ℕ) : (start c ramrodPhys).spq.Steady env.addr := by
  have hspq := isSpq_of_alloc h
  have hinfo := qedChainReset_info c
  have hu : c.intendedUse = .toProduce := by
    obtain ⟨hs, -, -⟩ := linked_of_alloc (by decide) (fun j hj k hk hjk => by
      have hcnt : spqChainParams.pageCnt = 1 := rfl
      omega) h
    rw [hs]
    rfl
  have hprod := sideAt_reset_prod hspq.toRing (fun hm => by simp [hspq.single] at hm)
  have hidx : (qedChainReset c).prod.idx = 0 := by
    rw [qedChainReset_prod hspq.toPow2.indexed]
    simp [ChainShape.initial_eq_zero (i := c.toChainShape) (by simp [hu])]
  have hcons : (qedChainReset c).cons.idx = 0 := by
    rw [qedChainReset_cons]
    rfl
  have hnone : ∀ e, ¬ (start c ramrodPhys).spq.Released e := fun e he => by
    simp [Released, start, qedSpqSetup] at he
  refine ⟨⟨?_, ?_, hidx, hcons, rfl, le_rfl, (by decide : 0 < 0 + SPQ_RING_SIZE),
    forall_mem_nil _, forall_mem_nil _, forall_mem_nil _, forall_mem_nil _, ?_, nodup_nil, ?_⟩,
      hnone 0⟩
  · change (qedChainReset c).IsSpq env.addr
    rw [hinfo]
    exact hspq
  · change SideAt (qedChainReset c).toChainInfo env.addr (qedChainReset c).prod 0
    rw [hinfo]
    exact hprod
  · intro e
    exact iff_of_false (hnone e) fun hc => absurd hc.1 (not_lt_zero e)
  · refine ⟨fun e he => absurd he (not_lt_zero e), fun e he => absurd he (hnone e),
      fun b => iff_of_false Bool.false_ne_true ?_⟩
    rintro ⟨e, -, he, -⟩
    exact hnone e he

/-! ## Entries that are lost -/

/-- The step loses no entry that is still in use: the step is tame, but for `qed_spq_post`
dropping its entry while a recovery is in progress, and a poster that gave up finds its entry
posted and not completed. -/
def SpqStep.Prompt (s : SpqSys) : SpqStep → Prop
  | .postInRecovery _ => True
  | .postFail2 x => x ∈ s.spq.completionPending
  | a => a.Tame s

instance (s : SpqSys) (a : SpqStep) : Decidable (a.Prompt s) := by
  unfold SpqStep.Prompt
  rcases a with _ | _ <;> infer_instance

/-- The entries are in order once those that were lost are counted as held. -/
def SpqSys.Kept (s : SpqSys) : Prop := ∃ lost, { s with held := lost ++ s.held }.Ordered

variable {base : ℕ → ℕ} {s : SpqSys}

theorem SpqStep.Prompt.tame {a : SpqStep} (h : a.Prompt s) (ha : ∀ x, a ≠ .postInRecovery x) :
    a.Tame s := by
  cases a with
  | postInRecovery x => exact absurd rfl (ha x)
  | postFail2 x => exact .inr h
  | _ => exact h

/-- Only `qed_spq_post` in a recovery tells a lost entry from a held one. -/
theorem step_held {lost : List ℕ} {a : SpqStep} (ho : { s with held := lost ++ s.held }.Ordered)
    (he : a.Enabled s) (ha : ∀ x, a ≠ .postInRecovery x) :
    { s with held := lost ++ s.held }.step a =
      { s.step a with held := lost ++ (s.step a).held } := by
  obtain ⟨-, f, ho⟩ := ho
  have hdisj := (nodup_append.1 (ho.filed.nodup .held)).2.2
  have herase : ∀ x, x ∈ s.got ∨ x ∈ s.held →
      (lost ++ s.held).erase x = lost ++ s.held.erase x := fun x hx => by
    refine erase_append_right _ fun hc => ?_
    rcases hx with hx | hx
    · exact ho.filed.not_mem (a := .got) (b := .held) hx (by decide) (mem_append_left _ hc)
    · exact hdisj x hc x hx rfl
  cases a with
  | getEntry kzalloc =>
    simp only [step]
    split <;> rfl
  | fill x d =>
    simp only [step]
    split
    · simp only [append_assoc]
    · rfl
  | destroyRequest x =>
    simp only [step, herase x he]
  | post x => simp only [step, herase x (.inr he)]
  | postInRecovery x => exact absurd rfl (ha x)
  | blockDone p | blockInRecovery p =>
    simp only [step, leaveDone]
    split <;> rfl
  | blockTimeout p =>
    simp only [step, leaveTimeout]
    split <;> rfl
  | completion echo code =>
    simp only [step]
    split <;> rfl
  | _ => rfl

theorem SpqStep.Enabled.held {a : SpqStep} (he : a.Enabled s) (lost : List ℕ) :
    a.Enabled { s with held := lost ++ s.held } := by
  cases a with
  | post x | postInRecovery x => exact mem_append_right _ he
  | destroyRequest x => exact he.imp_right (mem_append_right _)
  | _ => exact he

theorem kept_step {a : SpqStep} (h : s.Kept) (he : a.Enabled s) (hp : a.Prompt s) :
    (s.step a).Kept := by
  obtain ⟨lost, ho⟩ := h
  by_cases ha : ∃ x, a = .postInRecovery x
  · obtain ⟨x, rfl⟩ := ha
    obtain ⟨hc, f, ho⟩ := ho
    have hperm : ((lost ++ [x]) ++ s.held.erase x).Perm (lost ++ s.held) := by
      rw [append_assoc]
      exact (perm_cons_erase he).symm.append_left lost
    refine ⟨lost ++ [x], hc, f, { ho with
      filed := ho.filed.perm fun k => ?_
      held := fun z hz => ho.held z (hperm.mem_iff.1 hz) }⟩
    cases k with
    | held => exact hperm
    | _ => exact .refl _
  · have ha' : ∀ x, a ≠ .postInRecovery x := fun x hx => ha ⟨x, hx⟩
    refine ⟨lost, ?_⟩
    rw [← step_held ho he ha']
    refine ordered_step _ a ho (he.held lost) ?_
    have ht := hp.tame ha'
    cases a <;> exact ht

theorem SpqSys.Kept.follows (hk : s.Kept) (h : s.spq.Steady base) {a : SpqStep}
    (he : a.Enabled s) (hcomp : ∀ echo code, a ≠ .completion echo code)
    (hfail : ∀ x, a ≠ .postFail2 x) : s.spq.Follows base (s.step a).spq := by
  obtain ⟨lost, ho⟩ := hk
  by_cases ha : ∃ x, a = .postInRecovery x
  · obtain ⟨x, rfl⟩ := ha
    exact h.follows (.refl _)
  · have hstep := steady_step ho h (he.held lost) hcomp hfail
    rwa [step_held ho he fun x hx => ha ⟨x, hx⟩] at hstep

theorem SpqSys.Kept.completion (hk : s.Kept) (h : s.spq.Steady base) (echo code : ℕ) :
    (s.step (.completion echo code)).spq.Steady base := by
  obtain ⟨lost, ho⟩ := hk
  have ⟨f, hown⟩ := ho.own
  have hs := completion_steady hown h echo code
  rwa [step_held (a := .completion echo code) ho trivial nofun] at hs

theorem SpqSys.Kept.nodup (h : s.Kept) : s.spq.completionPending.Nodup := by
  obtain ⟨lost, -, f, ho⟩ := h
  exact ho.filed.nodup .sent

/-! ## Runs without time-outs -/

def SpqStep.NoTimeout : SpqStep → Prop
  | .blockTimeout _ | .postFail2 _ => False
  | _ => True

instance (a : SpqStep) : Decidable a.NoTimeout := by
  unfold SpqStep.NoTimeout
  rcases a with _ | _ <;> infer_instance

/-- The event is dropped, as `qed_spq_drop_next_completion` asked for. -/
def SpqSys.Drops (s : SpqSys) (echo : ℕ) : Prop :=
  s.spq.dropNextCompletion ∧ ∃ x ∈ s.spq.completionPending,
    (s.spq.ents x).elem.hdr.echo = echo ∧ (s.spq.ents x).compMode = .eblock

instance (s : SpqSys) (echo : ℕ) : Decidable (s.Drops echo) := by
  unfold Drops
  infer_instance

/-- The element an event is for: the first that was posted, was not completed and has the echo. -/
def SpqSys.completes (s : SpqSys) (done : List ℕ) : SpqStep → List ℕ
  | .completion echo _ =>
    if s.Drops echo then []
    else ((range s.spq.hist.produced).find? fun e => e % 2 ^ 16 = echo ∧ e ∉ done).toList
  | _ => []

/-- The elements that the events of a run are for. -/
def SpqSys.completions : SpqSys → List ℕ → List SpqStep → List ℕ
  | _, done, [] => done
  | s, done, a :: l => (s.step a).completions (done ++ s.completes done a) l

/-- What runs without time-outs keep. -/
structure SpqSys.Quiet (base : ℕ → ℕ) (done : List ℕ) (s : SpqSys) : Prop where
  kept : s.Kept
  steady : s.spq.Steady base
  completed : s.spq.hist.completed = done
  timedOut : s.spq.hist.timedOut = []

section Quiet

variable {done : List ℕ} (h : s.Quiet base done)

include h

/-- What was posted and not completed is on `completion_pending`. -/
theorem SpqSys.Quiet.outstanding (e : ℕ) : e < s.spq.hist.produced ∧ e ∉ done ↔
    ∃ x ∈ s.spq.completionPending, s.spq.hist.seqOf x = e := by
  have hrel : s.spq.Released e ↔ e ∈ done := by
    rw [Released, h.timedOut, append_nil, h.completed]
  rw [← hrel, h.steady.released_iff]
  constructor
  · rintro ⟨hlt, hne⟩
    by_contra hc
    exact hne ⟨hlt, fun x hx hxe => hc ⟨x, hx, hxe⟩⟩
  · rintro ⟨x, hx, rfl⟩
    exact ⟨h.steady.seq_lt x hx, fun hc => hc.2 x hx rfl⟩

theorem SpqSys.Quiet.echo_inj {x y : ℕ} (hx : x ∈ s.spq.completionPending)
    (hy : y ∈ s.spq.completionPending)
    (hxy : s.spq.hist.seqOf x % 2 ^ 16 = s.spq.hist.seqOf y % 2 ^ 16) : x = y := by
  have hx' := h.steady.seq_lt x hx
  have hy' := h.steady.seq_lt y hy
  have hroom := h.steady.room
  have hx'' := h.steady.returned_le hx
  have hy'' := h.steady.returned_le hy
  have hsize : SPQ_RING_SIZE = 256 := rfl
  exact h.steady.seq_inj x hx y hy (by omega)

/-- An event with the echo of an entry on `completion_pending` is for its element. -/
theorem SpqSys.Quiet.find_eq_some {x : ℕ} (hx : x ∈ s.spq.completionPending) :
    ((range s.spq.hist.produced).find? fun e =>
      e % 2 ^ 16 = (s.spq.ents x).elem.hdr.echo ∧ e ∉ done) = some (s.spq.hist.seqOf x) := by
  have hecho := h.steady.echo x hx
  have hout := (h.outstanding _).2 ⟨x, hx, rfl⟩
  rw [find?_range_eq_some]
  refine ⟨decide_eq_true ⟨hecho.symm, hout.2⟩, mem_range.2 hout.1, fun j hj => ?_⟩
  by_contra hc
  obtain ⟨hjm, hjd⟩ : j % 2 ^ 16 = (s.spq.ents x).elem.hdr.echo ∧ j ∉ done := by simpa using hc
  obtain ⟨y, hy, rfl⟩ := (h.outstanding j).1 ⟨hj.trans hout.1, hjd⟩
  rw [h.echo_inj hy hx (hjm.trans hecho)] at hj
  exact lt_irrefl _ hj

/-- Any other event is for no element. -/
theorem SpqSys.Quiet.find_eq_none {echo : ℕ}
    (hno : ∀ x ∈ s.spq.completionPending, (s.spq.ents x).elem.hdr.echo ≠ echo) :
    ((range s.spq.hist.produced).find? fun e => e % 2 ^ 16 = echo ∧ e ∉ done) = none := by
  rw [find?_eq_none]
  intro e he hc
  obtain ⟨hem, hed⟩ : e % 2 ^ 16 = echo ∧ e ∉ done := by simpa using hc
  obtain ⟨x, hx, rfl⟩ := (h.outstanding e).1 ⟨mem_range.1 he, hed⟩
  exact hno x hx ((h.steady.echo x hx).trans hem)

theorem SpqSys.Quiet.drops_iff {x : ℕ} (hx : x ∈ s.spq.completionPending) :
    s.Drops (s.spq.ents x).elem.hdr.echo ↔
      s.spq.dropNextCompletion = true ∧ (s.spq.ents x).compMode = .eblock := by
  constructor
  · rintro ⟨hd, y, hy, hye, hm⟩
    rw [h.steady.echo y hy, h.steady.echo x hx] at hye
    exact ⟨hd, h.echo_inj hy hx hye ▸ hm⟩
  · exact fun hd => ⟨hd.1, x, hx, rfl, hd.2⟩

/-- **The driver completes the element an event is for.** -/
theorem SpqSys.Quiet.completed_step (echo code : ℕ) :
    (s.step (.completion echo code)).spq.hist.completed =
        done ++ s.completes done (.completion echo code) ∧
      (s.step (.completion echo code)).spq.hist.timedOut = [] := by
  simp only [SpqSys.step, completes, qedSpqCompletion]
  cases hfind : s.spq.completionPending.find? fun x => (s.spq.ents x).elem.hdr.echo == echo with
  | none =>
    rw [h.find_eq_none (by simpa using hfind)]
    simp [h.completed, h.timedOut]
  | some x =>
    have hx := mem_of_find?_eq_some hfind
    obtain rfl : (s.spq.ents x).elem.hdr.echo = echo := by simpa using List.find?_some hfind
    rw [h.find_eq_some hx]
    by_cases hd : s.Drops (s.spq.ents x).elem.hdr.echo
    · simp [hd, (h.drops_iff hx).1 hd, h.completed, h.timedOut]
    · dsimp only
      rw [if_neg (mt (h.drops_iff hx).2 hd), if_neg hd]
      dsimp only [qedSpqCompBmapUpdate]
      rw [bmapLoop_hist, h.completed, h.timedOut]
      exact ⟨rfl, rfl⟩

theorem SpqSys.Quiet.step {a : SpqStep} (he : a.Enabled s) (ht : a.NoTimeout)
    (hp : a.Prompt s) : (s.step a).Quiet base (done ++ s.completes done a) := by
  have hk := kept_step h.kept he hp
  cases a with
  | completion echo code =>
    obtain ⟨h₁, h₂⟩ := h.completed_step echo code
    exact ⟨hk, h.kept.completion h.steady echo code, h₁, h₂⟩
  | postFail2 x => exact ht.elim
  | _ =>
    obtain ⟨h₁, h₂, h₃⟩ := h.kept.follows h.steady he nofun nofun
    exact ⟨hk, h₁, by rw [h₂, h.completed]; exact (append_nil _).symm, h₃.trans h.timedOut⟩

end Quiet

theorem SpqSys.Quiet.run {done : List ℕ} {l : List SpqStep} (h : s.Quiet base done)
    (hm : Meets (fun s a => a.Enabled s ∧ a.NoTimeout ∧ a.Prompt s) SpqSys.step s l) :
    (l.foldl SpqSys.step s).Quiet base (s.completions done l) := by
  induction l generalizing s done with
  | nil => exact h
  | cons a l ih =>
    obtain ⟨⟨he, ht, hp⟩, hm⟩ := hm
    exact ih (h.step he ht hp) hm

/-- The ring and its bitmap, where `done` are the completed elements and `m` is the first that is
not. -/
structure Spq.RingState (base : ℕ → ℕ) (done : List ℕ) (q : Spq) (m : ℕ) : Prop where
  first : IsLeast {e | e ∉ done} m
  consIdx : q.chain.cons.idx = m % 2 ^ 16
  bitmapIdx : q.compBitmapIdx = q.chain.cons.idx % SPQ_RING_SIZE
  bits : ∀ b, q.pCompBitmap b = true ↔ ∃ e ∈ done, m < e ∧ e % SPQ_RING_SIZE = b
  prodIdx : q.chain.prod.idx = q.hist.produced % 2 ^ 16
  between : m ≤ q.hist.produced ∧ q.hist.produced - m ≤ SPQ_RING_SIZE - 1
  outstanding : ∀ e, e < q.hist.produced ∧ e ∉ done ↔
    ∃ x ∈ q.completionPending, q.hist.seqOf x = e
  echo : ∀ x ∈ q.completionPending, (q.ents x).elem.hdr.echo = q.hist.seqOf x % 2 ^ 16
  /-- The ring still holds what was posted. -/
  intact : ∀ x ∈ q.completionPending,
    q.ring (q.chain.elemAddr base (q.hist.seqOf x)) = (q.ents x).elem
  /-- The next `qed_spq_hw_post` writes elsewhere. -/
  next : ∀ x ∈ q.completionPending,
    (qedChainProduce q.chain).1 ≠ q.chain.elemAddr base (q.hist.seqOf x)
  bit_inj : ∀ x ∈ q.completionPending, ∀ y ∈ q.completionPending,
    (q.ents x).elem.hdr.echo % SPQ_RING_SIZE = (q.ents y).elem.hdr.echo % SPQ_RING_SIZE → x = y

theorem SpqSys.Quiet.ringState {done : List ℕ} (hq : s.Quiet base done) :
    s.spq.RingState base done s.spq.hist.returned := by
  have h := hq.steady
  have hrel : ∀ e, s.spq.Released e ↔ e ∈ done := fun e => by
    rw [Released, hq.timedOut, append_nil, hq.completed]
  have hroom := h.room
  refine ⟨⟨mt (hrel _).2 h.first, fun e he => ?_⟩, h.consIdx, ?_, fun b => ?_, h.prodIdx,
    ⟨h.le, by omega⟩, hq.outstanding, h.echo, h.elem, fun x hx => ?_, fun x hx y hy hxy => ?_⟩
  · exact Nat.le_of_not_lt fun hlt => he ((hrel e).1 (h.marks.below e hlt))
  · rw [h.bmapIdx, h.consIdx]
    exact (mod_mod_of_dvd _ (by decide)).symm
  · rw [h.marks.bit]
    constructor
    · rintro ⟨e, hle, he, hb⟩
      refine ⟨e, (hrel e).1 he, lt_of_le_of_ne hle ?_, hb⟩
      rintro rfl
      exact h.first he
    · rintro ⟨e, he, hlt, hb⟩
      exact ⟨e, hlt.le, (hrel e).2 he, hb⟩
  · change (qedChainNextElem s.spq.chain s.spq.chain.prod).1 ≠ _
    rw [(nextElem_spec h.chain.toRing h.prod).1]
    exact (h.produce_ne hx).symm
  · rw [h.echo x hx, h.echo y hy, mod_mod_of_dvd _ (by decide), mod_mod_of_dvd _ (by decide)] at hxy
    have hx' := h.seq_lt x hx
    have hy' := h.seq_lt y hy
    exact h.seq_inj x hx y hy (eq_of_mod_eq (h.returned_le hx) (h.returned_le hy) (by omega)
      (by omega) hxy)

theorem kept_start {env : DmaEnv} {c : Chain} (h : qedChainAlloc env spqChainParams = .ok c)
    (hnull : env.addr 0 ≠ 0) (ramrodPhys : ℕ → ℕ) : (start c ramrodPhys).Kept :=
  ⟨[], ordered_start (spq_mapped h hnull) ramrodPhys⟩

/-- **Completions in any order keep the ring in order**, in every state of every run without
time-outs in which a completion that found an EBLOCK entry still finds it in EBLOCK mode after the
callback: the consumer stands at the first element that was not completed, the bitmap marks the
completed elements behind it, and no element that was not completed is overwritten. -/
theorem ringState_run {env : DmaEnv} {c : Chain} (h : qedChainAlloc env spqChainParams = .ok c)
    (hnull : env.addr 0 ≠ 0) (ramrodPhys : ℕ → ℕ) (steps : List SpqStep)
    (hm : Meets (fun s a => a.Enabled s ∧ a.NoTimeout ∧ a.Prompt s) step (start c ramrodPhys)
      steps) :
    ∃ m, (steps.foldl step (start c ramrodPhys)).spq.RingState env.addr
      ((start c ramrodPhys).completions [] steps) m := by
  have hstart : (start c ramrodPhys).Quiet env.addr [] :=
    ⟨kept_start h hnull ramrodPhys, steady_start h ramrodPhys, rfl, rfl⟩
  exact ⟨_, (hstart.run hm).ringState⟩

/-- Two requests, the second completed first; its poster takes the entry back while the completion
is between the callback and its end. -/
def secondFirst : List SpqStep :=
  [.getEntry true, .fill 0 ⟨0, 0, 0, .cb, none⟩, .post 0,
    .getEntry true, .fill 1 ⟨0, 0, 0, .eblock, none⟩, .post 1,
    .completion 1 0, .callback ⟨1, true, 0⟩, .blockDone 1, .completionEnd ⟨1, true, 0⟩]

theorem ringState_secondFirst :
    ∃ c, qedChainAlloc (backToBack 4096 4096) spqChainParams = .ok c ∧
      (start c id).completions [] secondFirst = [1] ∧
      ∃ m, (secondFirst.foldl step (start c id)).spq.RingState (backToBack 4096 4096).addr
        ((start c id).completions [] secondFirst) m := by
  have hc : qedChainAlloc (backToBack 4096 4096) spqChainParams = .ok _ := rfl
  exact ⟨_, hc, by decide +kernel,
    ringState_run hc (by decide) id secondFirst (by decide +kernel)⟩

/-- The whole pool is got, and entry 255 is posted in EBLOCK mode. Its poster returns it once the
callback has woken it, another client gets it and fills it in CB mode, and the completion, which
reads the mode again, returns it under that client. It is posted twice, with two echoes. -/
def modeReadAgain : List SpqStep :=
  replicate 256 (.getEntry true) ++
    [.fill 255 ⟨0, 0, 0, .eblock, none⟩, .post 255, .completion 0 0, .callback ⟨255, true, 0⟩,
      .blockDone 255, .getEntry true, .fill 255 ⟨0, 0, 0, .cb, none⟩, .completionEnd ⟨255, true, 0⟩,
      .getEntry true, .post 255, .fill 255 ⟨0, 0, 0, .cb, none⟩, .post 255, .completion 1 0]

/-- The completion of the first of the two elements finds no entry, and the consumer stays behind
it. -/
theorem consumer_stuck_after_mode_read_again :
    ¬ ∀ (env : DmaEnv) (c : Chain) (ramrodPhys : ℕ → ℕ) (steps : List SpqStep),
      qedChainAlloc env spqChainParams = .ok c → env.addr 0 ≠ 0 →
      Meets (fun s a => a.Enabled s ∧ a.NoTimeout) step (start c ramrodPhys) steps →
      ∃ m, (steps.foldl step (start c ramrodPhys)).spq.RingState env.addr
        ((start c ramrodPhys).completions [] steps) m := by
  intro h
  have hc : qedChainAlloc (backToBack 4096 4096) spqChainParams = .ok _ := rfl
  obtain ⟨m, hr⟩ := h _ _ id modeReadAgain hc (by decide) (by decide +kernel)
  obtain ⟨hm, hle⟩ := hr.first
  have hm2 : m ≤ 2 := hle (by change 2 ∉ _; decide +kernel)
  have hcons := hr.consIdx
  interval_cases m
  · exact hm (by decide +kernel)
  · exact hm (by decide +kernel)
  · exact absurd hcons (by decide +kernel)

/-! ## Runs with time-outs -/

/-- A request whose completion comes after its poster stopped waiting and before the poster takes
the lock. -/
def lateCompletion : List SpqStep :=
  [.getEntry true, .fill 0 ⟨0, 0, 0, .eblock, none⟩, .post 0, .blockTimeout 0, .completion 0 0,
    .postFail2 0]

end FastLinQ.Qed
