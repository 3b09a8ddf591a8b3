import FastLinQ.Qed.Spq.Completing

/-!
# Ownership of the slow-path queue's entries

`ordered_step` assembles the moves: a step of any caller keeps the entries filed, unless it is one
of those that lose an entry (`SpqStep.Tame`). The second half tells the entries of the pool from
those of the heap. An entry of the heap that fails in `qed_spq_fill_entry` is returned to the pool
as any other, so that step is excluded as well (`SpqStep.Clean`).
-/

namespace FastLinQ.Qed

open Places Run List SpqSys Spq Option DmaEnv

/-- The step is not one of those that lose an entry:

* `qed_spq_post` returns at once while a recovery is in progress, and keeps nothing;
* `qed_spq_block` returns success while a recovery is in progress, and the entry is returned
  though it was not completed;
* a poster gives up while its heap entry is still on `unlimited_pending`;
* a poster gives up and the completion comes before it takes the lock;
* a completion reads the mode of an EBLOCK entry that was returned and got again since. -/
def SpqStep.Tame (s : SpqSys) : SpqStep → Prop
  | .postInRecovery _ => False
  | .blockInRecovery p => (s.spq.ents p).compDone.done = true
  | .blockTimeout p =>
    (s.spq.ents p).queue = .unlimitedPending → (s.spq.ents p).postEnt ≠ none
  | .postFail2 x => x ∈ s.spq.pending ∨ x ∈ s.spq.completionPending
  | .completionEnd g => g.eblock → (s.spq.ents g.ent).compMode = .eblock
  | _ => True

instance (s : SpqSys) (a : SpqStep) : Decidable (a.Tame s) := by
  unfold SpqStep.Tame
  rcases a with _ | _ <;> infer_instance

structure SpqSys.Ordered (s : SpqSys) : Prop where
  mapped : s.spq.chain.Mapped
  own : ∃ f, Own [] s f

/-! ## One step -/

theorem postedEnt_of_ne {q : Spq} {p : ℕ}
    (hq : (q.ents p).queue = .unlimitedPending → (q.ents p).postEnt ≠ none) :
    ∃ x, q.postedEnt p = some x := by
  unfold postedEnt
  split
  · exact ne_none_iff_exists'.1 (hq ‹_›)
  · exact ⟨p, rfl⟩

section Step

variable {s : SpqSys} {f : ℕ → Option SpqPlace} (h : Own [] s f)

include h

theorem Own.getEntry (kzalloc : Bool) : ∃ f', Own [] (s.step (.getEntry kzalloc)) f' := by
  simp only [step, qedSpqGetEntry]
  cases hl : s.spq.freePool with
  | nil =>
    cases kzalloc with
    | false => exact ⟨f, h⟩
    | true => exact h.getFresh
  | cons x l => exact h.getFree hl

theorem Own.fill {x : ℕ} (hx : x ∈ s.got) (d : SpInitData) :
    ∃ f', Own [] (s.step (.fill x d)) f' := by
  simp only [step]
  split
  · exact h.fillHeld hx ‹_›
  · exact ⟨f, h.fillGot hx d⟩

theorem Own.destroyRequest {x : ℕ} (hx : x ∈ s.got ∨ x ∈ s.held) :
    ∃ f', Own [] (s.step (.destroyRequest x)) f' := by
  simp only [step, qedSpDestroyRequest]
  split
  · exact h.leaveHands hx (.inr ⟨rfl, rfl, rfl⟩)
  · exact h.leaveHands hx (.inl ⟨rfl, rfl, rfl⟩)

theorem Own.completion (echo code : ℕ) : ∃ f', Own [] (s.step (.completion echo code)) f' := by
  rcases completion_cases s.spq echo with ⟨b, hq⟩ | ⟨x, hx, -, hq⟩
  · simp only [step, hq]
    exact ⟨f, h.sameEnts ⟨rfl, rfl, rfl, rfl, rfl, rfl, rfl, fun z => ⟨_, rfl⟩⟩⟩
  · simp only [step, hq]
    have hsame : { s.spq with completionPending := s.spq.completionPending.erase x }.SameEnts
        (qedSpqCompBmapUpdate (s.spq.complete x) echo) :=
      { compBmapUpdate_sameEnts (s.spq.complete x) echo with }
    by_cases hm : (s.spq.ents x).compMode = .eblock
    · obtain ⟨f', h'⟩ := h.finish hx hm code
      simp only [hm, decide_true, if_true]
      exact ⟨f', h'.sameEnts hsame⟩
    · obtain ⟨f', h'⟩ := h.take hx hm code
      simp only [hm, decide_false, Bool.false_eq_true, if_false]
      exact ⟨f', h'.sameEnts hsame⟩

theorem Own.callback {g : Fired} (hg : g ∈ s.fired) : ∃ f', Own [] (s.step (.callback g)) f' := by
  cases he : g.eblock with
  | true => exact h.callbackEblock hg he
  | false => exact h.callbackQuiet hg he

theorem Own.completionEnd {g : Fired} (hg : g ∈ s.returning)
    (hm : g.eblock → (s.spq.ents g.ent).compMode = .eblock) :
    ∃ f', Own [] (s.step (.completionEnd g)) f' := by
  simp only [step]
  cases he : g.eblock with
  | true =>
    rw [if_pos (hm he)]
    exact ⟨f, h.endEblock hg he⟩
  | false =>
    have hx : g.ent ∈ s.taken := mem_map.2 ⟨g, by simp [hg, he], rfl⟩
    rw [if_neg (h.taken _ hx).1]
    exact h.endTaken hg he

/-- The heap entry of a poster whose request was moved to a pool entry is kept aside. -/
theorem Own.moved_of_posted {p x : ℕ} (hp : p ∈ s.waiting) (hx : s.spq.postedEnt p = some x)
    (hq : (s.spq.ents p).queue = .unlimitedPending) : p ∈ s.spq.hist.moved := by
  obtain ⟨-, -, -, -, -, hplace⟩ := h.posted hp hx
  rwa [if_pos hq] at hplace

/-- After `qed_spq_block` the heap entry of the poster is freed. -/
theorem Own.leaveBlock {p : ℕ} (hw : p ∉ s.waiting)
    (hp : (s.spq.ents p).queue = .unlimitedPending → p ∈ s.spq.hist.moved) :
    ∃ f', Own [] { s with spq := spqLeaveBlock s.spq p } f' := by
  unfold spqLeaveBlock
  split
  · exact h.freeMoved (hp ‹_›) hw
  · exact ⟨f, h⟩

theorem Own.leaveDone {p : ℕ} (hp : p ∈ s.waiting) (hd : (s.spq.ents p).compDone.done = true) :
    ∃ f', Own [] (s.leaveDone p) f' := by
  obtain ⟨x, hx, -⟩ := h.done p hp hd
  obtain ⟨f₁, h₁⟩ := h.collect hp hd hx
  obtain ⟨f₂, h₂⟩ := h₁.leaveBlock h.waiting_nodup.not_mem_erase (h.moved_of_posted hp hx)
  refine ⟨f₂, ?_⟩
  have hcomm : qedSpqReturnEntry (spqLeaveBlock s.spq p) x =
      spqLeaveBlock (qedSpqReturnEntry s.spq x) p := by
    unfold spqLeaveBlock qedSpqReturnEntry
    split <;> rfl
  simp only [SpqSys.leaveDone, hx, hcomm]
  exact h₂

theorem Own.leaveTimeout {p : ℕ} (hp : p ∈ s.waiting)
    (hq : (s.spq.ents p).queue = .unlimitedPending → (s.spq.ents p).postEnt ≠ none) :
    ∃ f', Own [] (s.leaveTimeout p) f' := by
  obtain ⟨x, hx⟩ := postedEnt_of_ne hq
  obtain ⟨f', h'⟩ := (h.giveUp hp hx).leaveBlock h.waiting_nodup.not_mem_erase
    (h.moved_of_posted hp hx)
  refine ⟨f', ?_⟩
  simp only [SpqSys.leaveTimeout, hx]
  exact h'

theorem Own.postFail2 {x : ℕ} (hx : x ∈ s.expired)
    (hl : x ∈ s.spq.pending ∨ x ∈ s.spq.completionPending) :
    ∃ f', Own [] (s.step (.postFail2 x)) f' := by
  have hplace : f x = some .pending ∨ f x = some .sent :=
    hl.imp (h.filed.place) (h.filed.place)
  have hunl : s.spq.unlimitedPending.erase x = s.spq.unlimitedPending :=
    erase_of_not_mem (h.not_mem (a := .unlimited) (by grind))
  have hfin : s.finished.erase x = s.finished :=
    erase_of_not_mem (h.not_mem (a := .finished) (by grind))
  obtain ⟨f', h'⟩ := h.abandon hx hl
  refine ⟨f', ?_⟩
  simp only [step, hfin]
  have hsame := compBmapUpdate_sameEnts (s.spq.abandon x) (s.spq.ents x).elem.hdr.echo
  exact h'.sameEnts { hsame with
    unlimitedPending := hsame.unlimitedPending.trans hunl
    freePool := congrArg (· ++ [x]) hsame.freePool }

end Step

theorem leaveBlock_chain (q : Spq) (p : ℕ) : (spqLeaveBlock q p).chain = q.chain := by
  unfold spqLeaveBlock
  split <;> rfl

variable {s : SpqSys}

/-- Only posting and completing move the ring's counters. -/
theorem step_mapped (h : s.spq.chain.Mapped) {a : SpqStep} (hpost : ∀ x, a ≠ .post x)
    (hpend : a ≠ .pendPost) : (s.step a).spq.chain.Mapped := by
  cases a with
  | getEntry kzalloc =>
    simp only [step, qedSpqGetEntry]
    cases s.spq.freePool <;> cases kzalloc <;> exact h
  | fill x d =>
    simp only [step]
    split <;> exact h
  | destroyRequest x =>
    simp only [step, qedSpDestroyRequest]
    split <;> exact h
  | post x => exact absurd rfl (hpost x)
  | postInRecovery x => exact h
  | blockDone p | blockInRecovery p =>
    simp only [step, leaveDone]
    split <;> exact (leaveBlock_chain s.spq p).symm ▸ h
  | blockTimeout p =>
    simp only [step, leaveTimeout]
    split <;> exact (leaveBlock_chain s.spq p).symm ▸ h
  | postFail2 x => exact compBmapUpdate_mapped (q := s.spq.abandon x) h _
  | completion echo code =>
    rcases completion_cases s.spq echo with ⟨b, hq⟩ | ⟨x, -, -, hq⟩
    · simpa only [step, hq] using h
    · simpa only [step, hq] using compBmapUpdate_mapped (q := s.spq.complete x) h echo
  | callback g =>
    simp only [step, spqCallback]
    split <;> exact h
  | completionEnd g =>
    simp only [step]
    split <;> exact h
  | pendPost => exact absurd rfl hpend
  | dropNextCompletion => exact h

/-- **A step of a caller keeps the entries filed.** -/
theorem ordered_step (s : SpqSys) (a : SpqStep) (h : s.Ordered) (he : a.Enabled s)
    (ht : a.Tame s) : (s.step a).Ordered := by
  obtain ⟨hc, f, h⟩ := h
  cases a with
  | getEntry kzalloc => exact ⟨step_mapped hc nofun nofun, h.getEntry kzalloc⟩
  | fill x d => exact ⟨step_mapped hc nofun nofun, h.fill he d⟩
  | destroyRequest x => exact ⟨step_mapped hc nofun nofun, h.destroyRequest he⟩
  | post x => exact ⟨(h.post hc he).1, (h.post hc he).2⟩
  | postInRecovery x => exact ht.elim
  | blockDone p => exact ⟨step_mapped hc nofun nofun, h.leaveDone he.1 he.2⟩
  | blockInRecovery p => exact ⟨step_mapped hc nofun nofun, h.leaveDone he ht⟩
  | blockTimeout p => exact ⟨step_mapped hc nofun nofun, h.leaveTimeout he ht⟩
  | postFail2 x => exact ⟨step_mapped hc nofun nofun, h.postFail2 he ht⟩
  | completion echo code => exact ⟨step_mapped hc nofun nofun, h.completion echo code⟩
  | callback g => exact ⟨step_mapped hc nofun nofun, h.callback he⟩
  | completionEnd g => exact ⟨step_mapped hc nofun nofun, h.completionEnd he ht⟩
  | pendPost => exact ⟨(h.pendPost hc).2.1, (h.pendPost hc).2.2⟩
  | dropNextCompletion =>
    exact ⟨hc, f, h.sameEnts ⟨rfl, rfl, rfl, rfl, rfl, rfl, rfl, fun z => ⟨_, rfl⟩⟩⟩

/-! ## Pool entries and heap entries -/

/-- The first `n` entries are those of the pool, the others come from the heap. -/
structure SpqSys.Sorted (n : ℕ) (hand : List ℕ) (s : SpqSys) : Prop where
  free : ∀ x ∈ s.spq.freePool, x < n
  ring : ∀ x, s.Ringed x → x < n
  taken : ∀ x ∈ s.taken, x < n
  unlimited : ∀ x ∈ s.spq.unlimitedPending, n ≤ x
  moved : ∀ x ∈ s.spq.hist.moved, n ≤ x
  freed : ∀ x ∈ s.spq.hist.freed, n ≤ x
  queue : ∀ x, x ∈ s.got ∨ x ∈ s.held ∨ x ∈ hand →
    ((s.spq.ents x).queue = .unlimitedPending ↔ n ≤ x)
  next : n ≤ s.spq.nextEnt

theorem SpqSys.Sorted.sameEnts {n : ℕ} {hand : List ℕ} (h : s.Sorted n hand) {q : Spq}
    (hq : s.spq.SameEnts q) : Sorted n hand { s with spq := q } := by
  obtain ⟨unl, pend, sent, free, _, _, _, _, ents, next, _, ⟨_, _, _, _, _, moved, freed⟩⟩ := q
  obtain ⟨h₁, h₂, h₃, h₄, h₅, h₆, h₇, hents⟩ := hq
  choose el hel using hents
  obtain rfl := funext hel
  subst h₁ h₂ h₃ h₄ h₅ h₆ h₇
  exact { h with }

section Sorted

variable {n : ℕ} {s : SpqSys} {f : ℕ → Option SpqPlace}

theorem SpqSys.Sorted.getEntry (h : s.Sorted n []) (ho : Own [] s f) (kzalloc : Bool) :
    (s.step (.getEntry kzalloc)).Sorted n [] := by
  obtain ⟨h₁, h₂, h₃, h₄, h₅, h₆, h₇, h₈⟩ := h
  simp only [step, qedSpqGetEntry]
  cases hl : s.spq.freePool with
  | nil =>
    cases kzalloc with
    | false => exact ⟨by simp [hl], h₂, h₃, h₄, h₅, h₆, h₇, h₈⟩
    | true =>
      refine ⟨by simp [hl], h₂, h₃, h₄, h₅, h₆, ?_, ?_⟩
      · intro x hx
        have hne : x ∈ s.got ∨ x ∈ s.held → x ≠ s.spq.nextEnt := by
          have := (ho.fresh s.spq.nextEnt).2 le_rfl
          rintro (hx | hx) rfl
          · rw [ho.filed.place (a := SpqPlace.got) hx] at this
            cases this
          · rw [ho.filed.place (a := SpqPlace.held) hx] at this
            cases this
        grind
      · exact h₈.trans (Nat.le_succ _)
  | cons x l =>
    have hx : x ∈ s.spq.freePool := by rw [hl]; exact mem_cons_self
    have hxn := h₁ x hx
    refine ⟨by grind, h₂, h₃, h₄, h₅, h₆, ?_, h₈⟩
    intro z hz
    have hg := ho.filed.not_mem (a := SpqPlace.free) (b := SpqPlace.got) hx (by decide)
    have hh := ho.filed.not_mem (a := SpqPlace.free) (b := SpqPlace.held) hx (by decide)
    grind

variable {x : ℕ}

theorem SpqSys.Sorted.fill (h : s.Sorted n []) (hx : x ∈ s.got) (d : SpInitData) :
    (s.step (.fill x d)).Sorted n [] := by
  have hqueue : ∀ z, ((s.spq.setEnt x (spInitEntry x (s.spq.ents x) d)).ents z).queue =
      (s.spq.ents z).queue := fun z => by
    rw [setEnt_ents]
    split
    · rename_i hz
      rw [hz, spInitEntry_queue]
    · rfl
  simp only [step]
  split
  · refine { h with queue := fun z hz => ?_ }
    rw [hqueue]
    refine h.queue z ?_
    rcases hz with hz | hz | hz
    · exact .inl (mem_of_mem_erase hz)
    · rcases mem_append.1 hz with hz | hz
      · exact .inr (.inl hz)
      · exact .inl ((mem_singleton.1 hz) ▸ hx)
    · exact .inr (.inr hz)
  · refine { h with queue := fun z hz => ?_ }
    rw [hqueue]
    exact h.queue z hz

theorem SpqSys.Sorted.destroyRequest (h : s.Sorted n []) (hx : x ∈ s.got ∨ x ∈ s.held) :
    (s.step (.destroyRequest x)).Sorted n [] := by
  have hxq := h.queue x (by tauto)
  have hmem : ∀ z, z ∈ s.got.erase x ∨ z ∈ s.held.erase x ∨ z ∈ [] →
      z ∈ s.got ∨ z ∈ s.held ∨ z ∈ [] := fun z hz =>
    hz.imp mem_of_mem_erase (.imp mem_of_mem_erase id)
  simp only [step, qedSpDestroyRequest]
  split
  · rename_i hq
    refine { h with queue := fun z hz => h.queue z (hmem z hz), freed := ?_ }
    exact forall_mem_append.2 ⟨h.freed, forall_mem_singleton.2 (hxq.1 hq)⟩
  · rename_i hq
    refine { h with queue := fun z hz => h.queue z (hmem z hz), free := ?_ }
    exact forall_mem_append.2 ⟨h.free, forall_mem_singleton.2 (Nat.lt_of_not_le (mt hxq.2 hq))⟩

theorem SpqSys.Sorted.addEntry (h : s.Sorted n [x]) (ho : Own [x] s f) (pr : SpqPriority) :
    Sorted n [] { s with spq := qedSpqAddEntry s.spq x pr } := by
  have hx : x ∈ [x] := mem_singleton_self x
  have hxq := h.queue x (.inr (.inr hx))
  by_cases hq : (s.spq.ents x).queue = .unlimitedPending
  · by_cases hl : s.spq.freePool = []
    · rw [addEntry_unlimited hq hl]
      refine { h with unlimited := ?_, queue := fun z hz => h.queue z (by tauto) }
      have := h.unlimited
      grind
    · obtain ⟨y, l, hl⟩ := exists_cons_of_ne_nil hl
      have hxn := hxq.1 hq
      have hfree : ∀ z ∈ y :: l, z < n := hl ▸ h.free
      obtain ⟨hyn, hfree⟩ := forall_mem_cons.1 hfree
      rw [addEntry_copy hq hl]
      obtain ⟨l', hl', heq⟩ :=
        spqAddPending_perm (spqCopyEntry { s.spq with freePool := l } x y) y pr
      rw [spqCopyEntry_pending] at hl'
      have hring : ∀ z, z ∈ l' ∨ z ∈ s.spq.completionPending ∨ z ∈ s.finished → z < n := by
        intro z hz
        have := h.ring z
        rw [hl'.mem_iff] at hz
        grind [Ringed]
      have hheld : ∀ z, z ∈ s.got ∨ z ∈ s.held ∨ z ∈ [] →
          (z ≠ x ∧ z ≠ y) ∧ ((s.spq.ents z).queue = .unlimitedPending ↔ n ≤ z) := by
        rintro z (hz | hz | hz)
        · exact ⟨ho.ne_of_copy hl (a := .got) hz (by decide), h.queue z (.inl hz)⟩
        · exact ⟨ho.ne_of_copy hl (a := .held) hz (by decide), h.queue z (.inr (.inl hz))⟩
        · exact absurd hz not_mem_nil
      rw [heq]
      by_cases hm : (s.spq.ents x).compMode = .eblock
      · rw [spqCopyEntry_eblock (q := { s.spq with freePool := l }) (by omega) hm]
        refine { h with free := hfree, ring := hring, moved := ?_, queue := fun z hz => ?_ }
        · have := h.moved
          grind
        · obtain ⟨⟨hzx, hzy⟩, hz⟩ := hheld z hz
          simpa only [setEnt_of_ne _ _ _ hzx, setEnt_of_ne _ _ _ hzy] using hz
      · rw [spqCopyEntry_of_ne (q := { s.spq with freePool := l }) hm]
        refine { h with free := hfree, ring := hring, freed := ?_, queue := fun z hz => ?_ }
        · have := h.freed
          grind [kfree]
        · obtain ⟨⟨hzx, hzy⟩, hz⟩ := hheld z hz
          simpa only [kfree, setEnt_of_ne _ _ _ hzx, setEnt_of_ne _ _ _ hzy] using hz
  · obtain ⟨l, hl, heq⟩ := spqAddPending_perm s.spq x pr
    rw [addEntry_pending hq, heq]
    refine { h with ring := ?_, queue := fun z hz => h.queue z (by tauto) }
    intro z hz
    have hz : z ∈ l ∨ z ∈ s.spq.completionPending ∨ z ∈ s.finished := hz
    have := h.ring z
    rw [hl.mem_iff] at hz
    grind [Ringed]

section

variable (h : s.Sorted n [])

include h

theorem SpqSys.Sorted.pendLoop {l : List ℕ} (ho : Own [] s f) (hl : s.spq.unlimitedPending = l) :
    Sorted n [] { s with spq := spqPendLoop l s.spq } := by
  induction l generalizing s f with
  | nil => exact h
  | cons x l ih =>
    by_cases hp : s.spq.freePool = []
    · rw [pendLoop_stop hp]
      exact h
    · have hx : x ∈ s.spq.unlimitedPending := by rw [hl]; exact mem_cons_self
      obtain ⟨f₁, h₁⟩ := ho.takeUnlimited hl
      obtain ⟨f₂, h₂⟩ := h₁.addEntry (s.spq.ents x).priority
      have h' : Sorted n [x] { s with spq := { s.spq with unlimitedPending := l } } := by
        refine { h with unlimited := ?_, queue := ?_ }
        · intro z hz
          exact h.unlimited z (by rw [hl]; exact .tail _ hz)
        · rintro z (hz | hz | hz)
          · exact h.queue z (.inl hz)
          · exact h.queue z (.inr (.inl hz))
          · obtain rfl := mem_singleton.1 hz
            exact iff_of_true (ho.unlimited z hx) (h.unlimited z hx)
      rw [pendLoop_next hp]
      exact ih (h'.addEntry h₁ _) h₂
        (addEntry_unlimitedPending (q := { s.spq with unlimitedPending := l }) hp ..)

theorem SpqSys.Sorted.postLoop {l : List ℕ} (hc : s.spq.chain.Mapped) (hl : s.spq.pending = l)
    (keep : ℕ) :
    Sorted n [] { s with spq := (spqPostLoop keep l s.spq).2 } := by
  induction l generalizing s with
  | nil => exact h
  | cons x l ih =>
    by_cases hk : keep < qedChainGetElemLeft s.spq.chain
    · rw [postLoop_next hc hk]
      refine ih (s := { s with spq := s.spq.send x l }) ?_ hc.produce.2 rfl
      refine { h with ring := ?_, queue := ?_ }
      · intro z hz
        have hz : z ∈ l ∨ z ∈ s.spq.completionPending ++ [x] ∨ z ∈ s.finished := hz
        have := h.ring z
        grind [Ringed]
      · intro z hz
        rw [← h.queue z hz]
        obtain ⟨el, hel⟩ := send_ents s.spq x l z
        simp [hel]
    · rw [postLoop_stop hk]
      exact h

theorem SpqSys.Sorted.pendPost (ho : Own [] s f) (hc : s.spq.chain.Mapped) :
    Sorted n [] { s with spq := (qedSpqPendPost s.spq).2 } := by
  refine (h.pendLoop ho rfl).postLoop ?_ rfl _
  rw [pendLoop_chain]
  exact hc

/-- Posting an entry whose mode is unknown returns it to the pool, wherever it came from. -/
theorem SpqSys.Sorted.post (ho : Own [] s f) (hc : s.spq.chain.Mapped) (hx : x ∈ s.held)
    (hm : (s.spq.ents x).compMode = .unknown → (s.spq.ents x).queue ≠ .unlimitedPending) :
    (s.step (.post x)).Sorted n [] := by
  have hmem : ∀ z, z ∈ s.got ∨ z ∈ s.held.erase x ∨ z ∈ [] → z ∈ s.got ∨ z ∈ s.held ∨ z ∈ [] :=
    fun z hz => hz.imp_right (.imp_left mem_of_mem_erase)
  have hxq := h.queue x (.inr (.inl hx))
  by_cases hunk : (s.spq.ents x).compMode = .unknown
  · simp only [step, post_of_unknown hunk]
    refine { h with free := ?_, queue := fun z hz => h.queue z (hmem z hz) }
    have hxn := Nat.lt_of_not_le (mt hxq.2 (hm hunk))
    exact forall_mem_append.2 ⟨h.free, forall_mem_singleton.2 hxn⟩
  · obtain ⟨f₁, h₁⟩ := ho.takeHeld hx hunk
    obtain ⟨f₂, h₂⟩ := h₁.addEntry
      ((s.spq.setEnt x (s.spq.ents x).withFunction).ents x).priority
    have hs : Sorted n [x] { s with
        spq := s.spq.setEnt x (s.spq.ents x).withFunction
        held := s.held.erase x
        waiting := if (s.spq.ents x).compMode = .eblock then s.waiting ++ [x] else s.waiting } := by
      refine { h with queue := fun z hz => ?_ }
      have hz : z ∈ s.got ∨ z ∈ s.held ∨ z ∈ [] := by
        rcases hz with hz | hz | hz
        · exact .inl hz
        · exact .inr (.inl (mem_of_mem_erase hz))
        · exact .inr (.inl (mem_singleton.1 hz ▸ hx))
      rw [← h.queue z hz, setEnt_ents]
      split
      · rename_i hzx
        rw [hzx, SpqEntry.withFunction_queue]
      · rfl
    have hc' : (qedSpqAddEntry (s.spq.setEnt x (s.spq.ents x).withFunction) x
        ((s.spq.setEnt x (s.spq.ents x).withFunction).ents x).priority).chain.Mapped := by
      rw [addEntry_chain]
      exact hc
    have hs' := (hs.addEntry h₁ _).pendPost h₂ hc'
    simp only [step, post_of_fill hunk]
    exact { hs' with }

theorem SpqSys.Sorted.completion (echo code : ℕ) :
    (s.step (.completion echo code)).Sorted n [] := by
  rcases completion_cases s.spq echo with ⟨b, hq⟩ | ⟨x, hx, -, hq⟩
  · simp only [step, hq]
    exact { h with }
  · have hxn := h.ring x (.inr (.inl hx))
    simp only [step, hq]
    generalize hb : decide ((s.spq.ents x).compMode = .eblock) = b
    have htaken := taken_perm (s := s) (t := { s with fired := s.fired ++ [⟨x, b, code⟩] })
      (g := ⟨x, b, code⟩) (by simp [perm_middle])
    have hs : Sorted n [] { s with
        spq := s.spq.complete x
        finished := if b then s.finished ++ [x] else s.finished
        fired := s.fired ++ [⟨x, b, code⟩] } := by
      refine { h with ring := ?_, taken := ?_ }
      · rintro z (hz | hz | hz)
        · exact h.ring z (.inl hz)
        · exact h.ring z (.inr (.inl (mem_of_mem_erase hz)))
        · have := h.ring z
          cases b <;> grind [Ringed]
      · intro z hz
        have hz := htaken.mem_iff.1 hz
        have := h.taken z
        cases b <;> grind
    exact hs.sameEnts (compBmapUpdate_sameEnts _ _)

theorem SpqSys.Sorted.callback {g : Fired} (hg : g ∈ s.fired) :
    (s.step (.callback g)).Sorted n [] := by
  have htaken : ∀ z ∈ (s.step (.callback g)).taken, z < n :=
    fun z hz => h.taken z ((taken_callback hg).mem_iff.1 hz)
  simp only [step, spqCallback] at ⊢
  split
  · refine { h with taken := htaken, queue := fun z hz => ?_ }
    rw [← h.queue z hz, setEnt_ents]
    split
    · rename_i hzp
      rw [hzp]
    · rfl
  · exact { h with taken := htaken }

theorem SpqSys.Sorted.completionEnd {g : Fired} (hg : g ∈ s.returning)
    (hm : g.eblock → (s.spq.ents g.ent).compMode = .eblock) :
    (s.step (.completionEnd g)).Sorted n [] := by
  have hmem : ∀ z ∈ SpqSys.taken { s with returning := s.returning.erase g }, z ∈ s.taken := by
    intro z hz
    rw [(taken_returning hg).mem_iff]
    split
    · exact hz
    · exact .tail _ hz
  simp only [step]
  split
  · exact { h with taken := fun z hz => h.taken z (hmem z hz) }
  · rename_i hmode
    refine { h with free := ?_, taken := fun z hz => h.taken z (hmem z hz) }
    refine forall_mem_append.2 ⟨h.free, forall_mem_singleton.2 ?_⟩
    refine h.taken _ (mem_map.2 ⟨g, ?_, rfl⟩)
    have : g.eblock = false := by
      cases he : g.eblock with
      | true => exact absurd (hm he) hmode
      | false => rfl
    simp [hg, this]

/-- Leaving `qed_spq_block`, the poster frees heap entries only. -/
theorem SpqSys.Sorted.leaveBlock {p : ℕ}
    (hp : (s.spq.ents p).queue = .unlimitedPending → p ∈ s.spq.hist.moved) :
    Sorted n [] { s with spq := spqLeaveBlock s.spq p } := by
  unfold spqLeaveBlock
  split
  · rename_i hq
    refine { h with moved := fun z hz => h.moved z (mem_of_mem_erase hz), freed := ?_ }
    exact forall_mem_append.2 ⟨h.freed, forall_mem_singleton.2 (h.moved _ (hp hq))⟩
  · exact h

theorem SpqSys.Sorted.leaveDone (ho : Own [] s f) {p : ℕ} (hp : p ∈ s.waiting)
    (hd : (s.spq.ents p).compDone.done = true) :
    (s.leaveDone p).Sorted n [] := by
  obtain ⟨x, hx, hfin⟩ := ho.done p hp hd
  have hs := h.leaveBlock (ho.moved_of_posted hp hx)
  simp only [SpqSys.leaveDone, hx]
  refine { hs with free := ?_, ring := ?_ }
  · exact forall_mem_append.2 ⟨hs.free, forall_mem_singleton.2 (h.ring _ (.inr (.inr hfin)))⟩
  · rintro z (hz | hz | hz)
    · exact hs.ring z (.inl hz)
    · exact hs.ring z (.inr (.inl hz))
    · exact hs.ring z (.inr (.inr (mem_of_mem_erase hz)))

theorem SpqSys.Sorted.leaveTimeout (ho : Own [] s f) {p : ℕ} (hp : p ∈ s.waiting)
    (hq : (s.spq.ents p).queue = .unlimitedPending → (s.spq.ents p).postEnt ≠ none) :
    (s.leaveTimeout p).Sorted n [] := by
  obtain ⟨x, hx⟩ := postedEnt_of_ne hq
  have hs := h.leaveBlock (ho.moved_of_posted hp hx)
  simp only [SpqSys.leaveTimeout, hx]
  exact { hs with }

theorem SpqSys.Sorted.postFail2 (ho : Own [] s f) (hx : x ∈ s.expired) :
    (s.step (.postFail2 x)).Sorted n [] := by
  have hxn := h.ring x (ho.expired x hx).1
  have hs : Sorted n [] { s with
      spq := qedSpqReturnEntry (s.spq.abandon x) x
      expired := s.expired.erase x
      finished := s.finished.erase x } := by
    refine { h with
      free := ?_, ring := ?_
      unlimited := fun z hz => h.unlimited z (mem_of_mem_erase hz) }
    · exact forall_mem_append.2 ⟨h.free, forall_mem_singleton.2 hxn⟩
    · rintro z (hz | hz | hz)
      · exact h.ring z (.inl (mem_of_mem_erase hz))
      · exact h.ring z (.inr (.inl (mem_of_mem_erase hz)))
      · exact h.ring z (.inr (.inr (mem_of_mem_erase hz)))
  have hsame := compBmapUpdate_sameEnts (s.spq.abandon x) (s.spq.ents x).elem.hdr.echo
  exact hs.sameEnts { hsame with freePool := congrArg (· ++ [x]) hsame.freePool }

end

end Sorted

/-! ## Whole runs -/

/-- The step loses no entry and mixes no heap entry into the pool. -/
def SpqStep.Clean (s : SpqSys) (a : SpqStep) : Prop :=
  a.Tame s ∧ match a with
    | .post x =>
      (s.spq.ents x).compMode = .unknown → (s.spq.ents x).queue ≠ .unlimitedPending
    | _ => True

instance (s : SpqSys) (a : SpqStep) : Decidable (a.Clean s) := by
  unfold SpqStep.Clean
  rcases a with _ | _ <;> infer_instance

theorem sorted_step {n : ℕ} (s : SpqSys) (a : SpqStep) (ho : s.Ordered) (h : s.Sorted n [])
    (he : a.Enabled s) (ht : a.Clean s) : (s.step a).Sorted n [] := by
  obtain ⟨hc, f, ho⟩ := ho
  obtain ⟨ht, hm⟩ := ht
  cases a with
  | getEntry kzalloc => exact h.getEntry ho kzalloc
  | fill x d => exact h.fill he d
  | destroyRequest x => exact h.destroyRequest he
  | post x => exact h.post ho hc he hm
  | postInRecovery x => exact ht.elim
  | blockDone p => exact h.leaveDone ho he.1 he.2
  | blockInRecovery p => exact h.leaveDone ho he ht
  | blockTimeout p => exact h.leaveTimeout ho he ht
  | postFail2 x => exact h.postFail2 ho he
  | completion echo code => exact h.completion echo code
  | callback g => exact h.callback he
  | completionEnd g => exact h.completionEnd he ht
  | pendPost => exact h.pendPost ho hc
  | dropNextCompletion => exact { h with }

theorem spq_mapped {env : DmaEnv} {c : Chain} (h : qedChainAlloc env spqChainParams = .ok c)
    (hnull : env.addr 0 ≠ 0) : (qedChainReset c).Mapped := by
  obtain ⟨-, -, -, hok⟩ := alloc_ok h
  simp only [spqChainParams, qedChainParamsInit, qedChainAllocSingle] at hok
  cases hp : env.page 0 with
  | none => simp [hp] at hok
  | some b =>
    simp only [hp] at hok
    obtain rfl := Except.ok.inj hok
    rw [addr_eq_of_page hp] at hnull
    exact ⟨rfl, hnull, hnull⟩

theorem ordered_start {c : Chain} (hc : (qedChainReset c).Mapped) (ramrodPhys : ℕ → ℕ) :
    (start c ramrodPhys).Ordered := by
  refine ⟨hc, fun x => if x < c.capacity then some .free else none, ?_⟩
  refine ⟨⟨fun k => ?_, fun k x => ?_⟩, fun x => ?_, ?_, ?_, ?_, ?_, ?_, ?_, ?_, ?_, ?_, ?_, ?_, ?_,
    nodup_nil, nodup_nil, nodup_nil, rfl⟩
  · cases k <;> first | exact nodup_range | exact nodup_nil
  · cases k <;>
      simp [list, start, qedSpqSetup, taken]
  · simp [start, qedSpqSetup]
  all_goals simp [start, qedSpqSetup, taken, Ringed]

/-- The entries in the hands of callers: got or filled and not posted, completed and not yet
returned by the poster or by the completion. -/
def SpqSys.callers (s : SpqSys) : List ℕ := s.got ++ s.held ++ s.finished ++ s.taken

/-- Each of the `n` pool entries is in one place, the lists of the queue hold pool entries only,
and each heap entry either waits on `unlimited_pending`, or is with its caller, or was freed
once. -/
structure SpqSys.Owned (n : ℕ) (s : SpqSys) : Prop where
  pool : ∀ x < n,
    (s.spq.freePool ++ s.spq.pending ++ s.spq.completionPending ++ s.callers).count x = 1
  lists : ∀ x ∈ s.spq.freePool ++ s.spq.pending ++ s.spq.completionPending, x < n
  heap : ∀ x, n ≤ x → x < s.spq.nextEnt →
    (s.spq.unlimitedPending ++ s.callers ++ s.spq.hist.moved ++ s.spq.hist.freed).count x = 1

theorem owned_of_sorted {n : ℕ} (ho : s.Ordered) (h : s.Sorted n []) : s.Owned n := by
  obtain ⟨-, f, ho⟩ := ho
  have hplace : ∀ x < s.spq.nextEnt, ∃ k, f x = some k := fun x hx =>
    ne_none_iff_exists'.1 fun hc => absurd ((ho.fresh x).1 hc) (by omega)
  have hcallers : ∀ x, s.callers.count x =
      (if f x = some .got then 1 else 0) + (if f x = some .held then 1 else 0) +
        (if f x = some .finished then 1 else 0) + if f x = some .taken then 1 else 0 := fun x => by
    simp only [callers, count_append]
    exact congrArg₂ _ (congrArg₂ _ (congrArg₂ _ (ho.filed.count_eq .got x)
      (ho.filed.count_eq .held x)) (ho.filed.count_eq .finished x)) (ho.filed.count_eq .taken x)
  refine ⟨fun x hx => ?_, fun x hx => ?_, fun x hx hlt => ?_⟩
  · obtain ⟨k, hk⟩ := hplace x (by have := h.next; omega)
    have hmem := (ho.filed.mem_iff k x).2 hk
    have h₁ : s.spq.freePool.count x = _ := ho.filed.count_eq .free x
    have h₂ : s.spq.pending.count x = _ := ho.filed.count_eq .pending x
    have h₃ : s.spq.completionPending.count x = _ := ho.filed.count_eq .sent x
    simp only [count_append, h₁, h₂, h₃, hcallers, hk, some.injEq]
    cases k with
    | unlimited => exact absurd (h.unlimited x hmem) (by omega)
    | moved => exact absurd (h.moved x hmem) (by omega)
    | freed => exact absurd (h.freed x hmem) (by omega)
    | hand => exact absurd hmem not_mem_nil
    | _ => rfl
  · rcases mem_append.1 hx with hx | hx
    · rcases mem_append.1 hx with hx | hx
      · exact h.free x hx
      · exact h.ring x (.inl hx)
    · exact h.ring x (.inr (.inl hx))
  · obtain ⟨k, hk⟩ := hplace x hlt
    have hmem := (ho.filed.mem_iff k x).2 hk
    have h₁ : s.spq.unlimitedPending.count x = _ := ho.filed.count_eq .unlimited x
    have h₂ : s.spq.hist.moved.count x = _ := ho.filed.count_eq .moved x
    have h₃ : s.spq.hist.freed.count x = _ := ho.filed.count_eq .freed x
    simp only [count_append, h₁, h₂, h₃, hcallers, hk, some.injEq]
    cases k with
    | free => exact absurd (h.free x hmem) (by omega)
    | pending => exact absurd (h.ring x (.inl hmem)) (by omega)
    | sent => exact absurd (h.ring x (.inr (.inl hmem))) (by omega)
    | hand => exact absurd hmem not_mem_nil
    | _ => rfl

/-- **Each entry has one owner**, in every state of every run whose steps lose no entry. -/
theorem owned_run {env : DmaEnv} {c : Chain} (h : qedChainAlloc env spqChainParams = .ok c)
    (hnull : env.addr 0 ≠ 0) (ramrodPhys : ℕ → ℕ) (steps : List SpqStep)
    (hm : Meets (fun s a => a.Enabled s ∧ a.Clean s) step (start c ramrodPhys)
      steps) :
    (steps.foldl step (start c ramrodPhys)).Owned c.capacity := by
  have hinv := hm.invariant (P := fun s => s.Ordered ∧ s.Sorted c.capacity [])
    (fun s a hs ha => ⟨ordered_step s a hs.1 ha.1 ha.2.1, sorted_step s a hs.1 hs.2 ha.1 ha.2⟩)
    ⟨ordered_start (spq_mapped h hnull) ramrodPhys,
      by constructor <;> simp [start, qedSpqSetup, taken, Ringed]⟩
  exact owned_of_sorted hinv.1 hinv.2

/-- A blocking request, completed while its poster waits. -/
def blockingRequest : List SpqStep :=
  [.getEntry true, .fill 0 ⟨0, 0, 0, .eblock, none⟩, .post 0, .completion 0 7,
    .callback ⟨0, true, 7⟩, .blockDone 0, .completionEnd ⟨0, true, 7⟩]

theorem owned_blockingRequest :
    ∃ c, qedChainAlloc (backToBack 4096 4096) spqChainParams = .ok c ∧
      (blockingRequest.foldl step (start c id)).Owned 256 := by
  have hc : qedChainAlloc (backToBack 4096 4096) spqChainParams = .ok _ := rfl
  exact ⟨_, hc, owned_run hc (by decide) id blockingRequest (by decide +kernel)⟩

/-- The pool is empty and a blocking request waits on `unlimited_pending` when its poster gives
up. -/
def stuckHeapRequest : List SpqStep :=
  List.replicate 257 (.getEntry true) ++
    [.fill 256 ⟨0, 0, 0, .eblock, none⟩, .post 256, .blockTimeout 256]

/-- The entry is freed while it is still linked on `unlimited_pending`. -/
theorem freed_while_linked :
    ¬ ∀ (env : DmaEnv) (c : Chain) (ramrodPhys : ℕ → ℕ) (steps : List SpqStep),
      qedChainAlloc env spqChainParams = .ok c → env.addr 0 ≠ 0 →
      Meets (fun s a => a.Enabled s) step (start c ramrodPhys) steps →
      (steps.foldl step (start c ramrodPhys)).Owned c.capacity := by
  intro h
  have hc : qedChainAlloc (backToBack 4096 4096) spqChainParams = .ok _ := rfl
  have howned := h _ _ id stuckHeapRequest hc (by decide) (by decide +kernel)
  have hcount := howned.heap 256 (by decide) (by decide +kernel)
  revert hcount
  decide +kernel

end FastLinQ.Qed
