import FastLinQ.Qed.Spq.Posting

/-!
# Completing and giving up keep the entries filed

The other half of the sections: `qed_spq_completion` takes an entry off `completion_pending`, its
callback wakes the poster through the entry's cookie, and the entry goes back to the pool, from
the completion itself or from the poster that waited for it. A poster that gave up takes the entry
off the list it is still on.

The ways out of `qed_spq_block` that lose an entry are left to `FastLinQ.Qed.Spq.Ownership`.
-/

namespace FastLinQ.Qed

open Places List SpqSys Spq Option

/-! ## The ring's bookkeeping -/

theorem bmapLoop_sameEnts (n : ℕ) (q : Spq) : q.SameEnts (spqBmapLoop n q) := by
  induction n generalizing q with
  | zero => exact ⟨rfl, rfl, rfl, rfl, rfl, rfl, rfl, fun z => ⟨_, rfl⟩⟩
  | succ n ih =>
    rw [spqBmapLoop]
    split
    · exact { ih (spqBmapNext q) with }
    · exact ⟨rfl, rfl, rfl, rfl, rfl, rfl, rfl, fun z => ⟨_, rfl⟩⟩

theorem compBmapUpdate_sameEnts (q : Spq) (echo : ℕ) :
    q.SameEnts (qedSpqCompBmapUpdate q echo) :=
  { bmapLoop_sameEnts SPQ_RING_SIZE
      { q with pCompBitmap := Function.update q.pCompBitmap (echo % SPQ_RING_SIZE) true } with }

theorem bmapLoop_mapped (n : ℕ) {q : Spq} (h : q.chain.Mapped) :
    (spqBmapLoop n q).chain.Mapped := by
  induction n generalizing q with
  | zero => exact h
  | succ n ih =>
    rw [spqBmapLoop]
    split
    · exact ih ⟨h.single, h.virt, h.elem⟩
    · exact h

theorem compBmapUpdate_mapped {q : Spq} (h : q.chain.Mapped) (echo : ℕ) :
    (qedSpqCompBmapUpdate q echo).chain.Mapped :=
  bmapLoop_mapped _ h

/-! ## A completion -/

def Spq.complete (q : Spq) (x : ℕ) : Spq :=
  { q with
    completionPending := q.completionPending.erase x
    hist := { q.hist with completed := q.hist.completed ++ [q.hist.seqOf x] } }

/-- The queue without an entry whose poster gave up. -/
def Spq.abandon (q : Spq) (x : ℕ) : Spq :=
  { q with
    unlimitedPending := q.unlimitedPending.erase x
    pending := q.pending.erase x
    completionPending := q.completionPending.erase x
    hist := { q.hist with timedOut :=
      if x ∈ q.completionPending then q.hist.timedOut ++ [q.hist.seqOf x]
      else q.hist.timedOut } }

/-- A completion finds nothing, is dropped, or takes an entry with its echo. -/
theorem completion_cases (q : Spq) (echo : ℕ) :
    (∃ b, qedSpqCompletion q echo = (none, { q with dropNextCompletion := b })) ∨
      ∃ x ∈ q.completionPending, (q.ents x).elem.hdr.echo = echo ∧
        qedSpqCompletion q echo = (some x, qedSpqCompBmapUpdate (q.complete x) echo) := by
  unfold qedSpqCompletion
  cases hfind : q.completionPending.find? fun x => (q.ents x).elem.hdr.echo == echo with
  | none => exact .inl ⟨q.dropNextCompletion, rfl⟩
  | some x =>
    have hx := mem_of_find?_eq_some hfind
    have hecho : (q.ents x).elem.hdr.echo = echo := by simpa using List.find?_some hfind
    dsimp only
    split
    · exact .inl ⟨false, rfl⟩
    · exact .inr ⟨x, hx, hecho, rfl⟩

theorem taken_perm {s t : SpqSys} {g : Fired}
    (h : (t.fired ++ t.returning).Perm (g :: (s.fired ++ s.returning))) :
    t.taken.Perm (if g.eblock then s.taken else g.ent :: s.taken) := by
  have := (h.filter fun g => !g.eblock).map Fired.ent
  cases hg : g.eblock <;> simpa [taken, hg] using this

theorem taken_callback {s : SpqSys} {g : Fired} (hg : g ∈ s.fired) :
    (taken { s with fired := s.fired.erase g, returning := s.returning ++ [g] }).Perm
      s.taken := by
  refine Perm.map _ (Perm.filter _ ?_)
  rw [← append_assoc]
  exact (perm_append_singleton g _).trans ((perm_cons_erase hg).symm.append_right _)

theorem taken_returning {s : SpqSys} {g : Fired} (hg : g ∈ s.returning) :
    s.taken.Perm (if g.eblock then taken { s with returning := s.returning.erase g }
      else g.ent :: taken { s with returning := s.returning.erase g }) :=
  taken_perm (((perm_cons_erase hg).append_left _).trans perm_middle)

section Complete

variable {s : SpqSys} {f : ℕ → Option SpqPlace} (h : Own [] s f)

include h

/-- An EBLOCK entry is completed: it now belongs to its poster. -/
theorem Own.finish {x : ℕ} (hx : x ∈ s.spq.completionPending)
    (hm : (s.spq.ents x).compMode = .eblock) (code : ℕ) :
    ∃ f', Own [] { s with
      spq := { s.spq with completionPending := s.spq.completionPending.erase x }
      finished := s.finished ++ [x]
      fired := s.fired ++ [⟨x, true, code⟩] } f' := by
  have hf := h.filed.place (a := SpqPlace.sent) hx
  have hfin : x ∉ s.finished := h.not_mem (a := .finished) (by simp [hf])
  have hring : ∀ z, (z ∈ s.spq.pending ∨ z ∈ s.spq.completionPending.erase x ∨
      z ∈ s.finished ++ [x]) ↔ s.Ringed z := fun z => by
    grind [Ringed]
  have htaken : SpqSys.taken { s with fired := s.fired ++ [⟨x, true, code⟩] } = s.taken := by
    simp [SpqSys.taken]
  refine ⟨_, { h with
    filed := h.filed.move (a := .sent) (b := .finished) hx (.refl _)
      (perm_append_singleton ..) ?_
    fresh := h.fresh_update hf
    quiet := fun z hz => h.quiet z ((hring z).1 hz)
    eblock := fun z hz => h.eblock z ((hring z).1 hz)
    poster := fun p hp => (h.poster p hp).imp_right
      (Exists.imp fun z hz => ⟨hz.1, (hring z).2 hz.2.1, hz.2.2⟩)
    done := fun p hp hd => (h.done p hp hd).imp fun z hz =>
      ⟨hz.1, mem_append_left _ hz.2⟩
    expired := fun z hz => ⟨(hring z).2 (h.expired z hz).1, (h.expired z hz).2⟩
    finished := ?_, fired := ?_
    taken := fun z (hz : z ∈ SpqSys.taken { s with fired := s.fired ++ [⟨x, true, code⟩] }) =>
      h.taken z (htaken ▸ hz)
    fired_nodup := ?_ }⟩
  · intro k hka hkb
    cases k <;> first | rfl | exact absurd rfl hka | exact absurd rfl hkb | exact htaken
  · intro z hz
    have := h.finished z
    grind
  · intro g hg he
    rcases mem_append.1 hg with hg | hg
    · exact ⟨mem_append_left _ (h.fired g hg he).1, (h.fired g hg he).2⟩
    · obtain rfl := mem_singleton.1 hg
      refine ⟨mem_append_right _ (mem_singleton_self x), fun p hp hpx => ?_⟩
      -- a poster that was woken waits for an entry that was completed before
      by_contra hd
      obtain ⟨z, hz, hzf⟩ := h.done p hp (by simpa using hd)
      obtain rfl := some.inj (hz.symm.trans hpx)
      exact hfin hzf
  · have hne : ∀ g ∈ s.fired, g.eblock → g.ent ≠ x := fun g hg he hc =>
      hfin (hc ▸ (h.fired g hg he).1)
    have := h.fired_nodup
    rw [filter_append, map_append]
    refine nodup_append.2 ⟨this, by simp, ?_⟩
    grind

/-- Any other entry is completed: it goes back to the pool after its callback. -/
theorem Own.take {x : ℕ} (hx : x ∈ s.spq.completionPending)
    (hm : (s.spq.ents x).compMode ≠ .eblock) (code : ℕ) :
    ∃ f', Own [] { s with
      spq := { s.spq with completionPending := s.spq.completionPending.erase x }
      fired := s.fired ++ [⟨x, false, code⟩] } f' := by
  have hf := h.filed.place (a := SpqPlace.sent) hx
  have hnodup := h.filed.nodup .sent
  have hxr : s.Ringed x := .inr (.inl hx)
  have hring : ∀ z, (z ∈ s.spq.pending ∨ z ∈ s.spq.completionPending.erase x ∨ z ∈ s.finished) ↔
      s.Ringed z ∧ z ≠ x := fun z => by
    have h₁ := h.not_mem (x := x) (a := .pending) (by simp [hf])
    have h₂ := h.not_mem (x := x) (a := .finished) (by simp [hf])
    grind [SpqSys.Ringed, SpqSys.list]
  have htaken : (SpqSys.taken { s with fired := s.fired ++ [⟨x, false, code⟩] }).Perm
      (x :: s.taken) :=
    taken_perm (g := ⟨x, false, code⟩) (by simp [perm_middle])
  refine ⟨_, { h with
    filed := h.filed.move (a := SpqPlace.sent) (b := SpqPlace.taken) hx (.refl _) htaken
      (by rintro ⟨⟩ _ _ <;> trivial)
    fresh := h.fresh_update hf
    quiet := fun z hz => h.quiet z ((hring z).1 hz).1
    eblock := fun z hz => h.eblock z ((hring z).1 hz).1
    poster := ?_, expired := ?_, fired := ?_, taken := ?_, fired_nodup := ?_ }⟩
  · intro p hp
    refine (h.poster p hp).imp_right ?_
    rintro ⟨z, h₁, h₂, h₃, h₄⟩
    refine ⟨z, h₁, (hring z).2 ⟨h₂, ?_⟩, h₃, h₄⟩
    rintro rfl
    exact hm h₃
  · intro z hz
    obtain ⟨h₁, h₂⟩ := h.expired z hz
    refine ⟨(hring z).2 ⟨h₁, ?_⟩, h₂⟩
    rintro rfl
    exact hm h₂
  · intro g hg he
    rcases mem_append.1 hg with hg | hg
    · exact h.fired g hg he
    · obtain rfl := mem_singleton.1 hg
      cases he
  · intro z hz
    rcases mem_cons.1 (htaken.mem_iff.1 hz) with rfl | hz
    · exact ⟨hm, h.quiet z hxr hm⟩
    · exact h.taken z hz
  · simpa using h.fired_nodup

/-- An entry was posted for a poster that is not on `unlimited_pending`. -/
theorem Own.not_unlimited {p x : ℕ} (hx : s.spq.postedEnt p = some x) :
    p ∉ s.spq.unlimitedPending := fun hc => by
  rw [postedEnt, if_pos (h.unlimited p hc), (h.idle p (.inl hc)).fresh (h.unlimited p hc)] at hx
  cases hx

variable {g : Fired}

theorem Own.callbackQuiet (hg : g ∈ s.fired) (he : g.eblock = false) :
    ∃ f', Own [] { s with
      spq := spqCallback s.spq g.ent g.fwReturnCode
      fired := s.fired.erase g
      returning := s.returning ++ [g] } f' := by
  have hmem : g.ent ∈ s.taken := mem_map.2 ⟨g, by simp [hg, he], rfl⟩
  have hquiet := (h.taken _ hmem).2
  have hsame : spqCallback s.spq g.ent g.fwReturnCode = s.spq := by
    unfold spqCallback
    split
    · rename_i p hfun hcookie
      exact absurd hcookie (hquiet hfun p)
    · rfl
  rw [hsame]
  refine ⟨f, { h with
    filed := h.filed.perm fun k => ?_
    fired := fun g' hg' => h.fired g' (mem_of_mem_erase hg')
    taken := fun z hz => h.taken z ((taken_callback hg).mem_iff.1 hz)
    fired_nodup := h.fired_nodup.sublist ((erase_sublist.filter _).map _) }⟩
  cases k <;> first | exact .refl _ | exact taken_callback hg

/-- The callback of an EBLOCK entry wakes its poster, if it still waits. -/
theorem Own.callbackEblock (hg : g ∈ s.fired) (he : g.eblock = true) :
    ∃ f', Own [] { s with
      spq := spqCallback s.spq g.ent g.fwReturnCode
      fired := s.fired.erase g
      returning := s.returning ++ [g] } f' := by
  obtain ⟨hfin, hnot⟩ := h.fired g hg he
  have hring : s.Ringed g.ent := .inr (.inr hfin)
  have hf := h.filed.place (a := SpqPlace.finished) hfin
  obtain ⟨hfun, p, hcookie, hp⟩ := h.eblock g.ent hring (h.finished _ hfin)
  simp only [spqCallback, hfun, hcookie]
  -- nobody holds the entry the callback writes to
  obtain ⟨hheld, hunl⟩ : p ∉ s.held ∧ p ∉ s.spq.unlimitedPending := by
    rcases hp with ⟨hw, hpost, -⟩ | ⟨-, -, hp⟩
    · refine ⟨fun hc => ?_, h.not_unlimited hpost⟩
      have hfp := h.filed.place (a := SpqPlace.held) hc
      exact h.not_waiting (.inl (.inr (.inr (.inr (.inl hfp))))) hw
    · have hfp : f p = some .finished ∨ f p = some .moved ∨ f p = some .freed :=
        hp.imp (fun he : p = g.ent => he ▸ hf) (.imp (h.filed.place)
          (h.filed.place))
      exact ⟨h.not_mem (a := .held) (by rintro hc; simp [hc] at hfp),
        h.not_mem (a := .unlimited) (by rintro hc; simp [hc] at hfp)⟩
  have hpost : ∀ z, (s.spq.setEnt p { s.spq.ents p with
      compDone := ⟨true, g.fwReturnCode⟩ }).postedEnt z = s.spq.postedEnt z := fun z => by
    grind [postedEnt]
  have hother : ∀ g' ∈ s.fired.erase g, g'.eblock → g'.ent ≠ g.ent := by
    intro g' hg' he' hc
    have hnodup := (((perm_cons_erase hg).filter _).map _).nodup_iff.1 h.fired_nodup
    rw [filter_cons_of_pos he, map_cons, nodup_cons] at hnodup
    exact hnodup.1 (mem_map.2 ⟨g', mem_filter.2 ⟨hg', he'⟩, hc⟩)
  refine ⟨f, { h with
    filed := h.filed.perm fun k => ?_
    got := ?_, held := ?_, idle := ?_, unlimited := ?_, quiet := ?_, eblock := ?_,
    poster := ?_, done := ?_, expired := ?_, finished := ?_, fired := ?_, taken := ?_
    fired_nodup := h.fired_nodup.sublist ((erase_sublist.filter _).map _) }⟩
  · cases k <;> first | exact .refl _ | exact taken_callback hg
  · intro z hz
    have := h.got z hz
    grind
  · intro z hz
    have := h.held z hz
    grind
  · intro z hz
    have := h.idle z
    grind
  · intro z hz
    have := h.unlimited z hz
    grind
  · intro z hz
    have := h.quiet z hz
    grind [SpqEntry.Quiet]
  · intro z hz
    have := h.eblock z hz
    grind [Waits, GaveUp]
  · intro z hz
    have := h.poster z hz
    grind [Ringed]
  · intro z hz
    have := h.done z hz
    grind [Waits, GaveUp]
  · intro z hz
    have := h.expired z hz
    grind [Ringed]
  · intro z hz
    have := h.finished z hz
    grind
  · intro g' hg' he'
    have := h.fired g' (mem_of_mem_erase hg') he'
    have := hother g' hg' he'
    grind [Waits, GaveUp]
  · intro z hz
    have := h.taken z ((taken_callback hg).mem_iff.1 hz)
    grind [SpqEntry.Quiet]

/-- A completion whose entry belongs to the poster ends. -/
theorem Own.endEblock (hg : g ∈ s.returning) (he : g.eblock = true) :
    Own [] { s with returning := s.returning.erase g } f := by
  have htaken := taken_returning hg
  rw [if_pos he] at htaken
  refine { h with
    filed := h.filed.perm fun k => ?_
    taken := fun z hz => h.taken z (htaken.mem_iff.2 hz) }
  cases k <;> first | exact .refl _ | exact htaken.symm

/-- Any other completion ends by returning the entry. -/
theorem Own.endTaken (hg : g ∈ s.returning) (he : g.eblock = false) :
    ∃ f', Own [] { s with
      spq := qedSpqReturnEntry s.spq g.ent
      returning := s.returning.erase g } f' := by
  have hx : g.ent ∈ s.taken := mem_map.2 ⟨g, by simp [hg, he], rfl⟩
  have hf := h.filed.place (a := SpqPlace.taken) hx
  have htaken := taken_returning hg
  rw [if_neg (by simp [he])] at htaken
  have herase : (SpqSys.taken { s with returning := s.returning.erase g }).Perm
      (s.taken.erase g.ent) := by
    simpa using (htaken.erase g.ent).symm
  refine ⟨_, { h with
    filed :=
      h.filed.move (a := SpqPlace.taken) (b := SpqPlace.free) hx herase (perm_append_singleton ..)
        (by rintro ⟨⟩ _ _ <;> trivial)
    fresh := h.fresh_update hf
    taken := fun z hz => h.taken z (htaken.mem_iff.2 (mem_cons_of_mem _ hz)) }⟩

end Complete

/-! ## Leaving `qed_spq_block` -/

section Leave

variable {s : SpqSys} {f : ℕ → Option SpqPlace} (h : Own [] s f)

include h

variable {p x : ℕ}

/-- A poster an entry was posted for: the entry went to the ring, and the poster is the one its
cookie names. -/
theorem Own.posted (hp : p ∈ s.waiting) (hx : s.spq.postedEnt p = some x) :
    s.Ringed x ∧ (s.spq.ents x).compMode = .eblock ∧ (s.spq.ents x).cookie = .compDone p ∧
      x ∉ s.expired ∧ p ∉ s.spq.unlimitedPending ∧
      (if (s.spq.ents p).queue = .unlimitedPending then p ∈ s.spq.hist.moved else p = x) := by
  have hunl := h.not_unlimited hx
  rcases h.poster p hp with hu | ⟨y, hy, hring, hmode, hcookie, hplace⟩
  · exact absurd (by simpa using hu) hunl
  · obtain rfl := some.inj (hx.symm.trans hy)
    refine ⟨hring, hmode, hcookie, ?_, hunl, ?_⟩
    · obtain ⟨-, p', hp', hw | hw⟩ := h.eblock x hring hmode
      · exact hw.2.2
      · rw [hcookie] at hp'
        cases hp'
        exact absurd hp hw.1
    · split
      · exact hplace.resolve_right (not_not_intro ‹_›)
      · rename_i hq
        rw [postedEnt, if_neg hq] at hx
        exact some.inj hx

/-- Entries posted for different posters are different. -/
theorem Own.posted_inj {p p' x : ℕ} (hp : p ∈ s.waiting) (hx : s.spq.postedEnt p = some x)
    (hp' : p' ∈ s.waiting) (hx' : s.spq.postedEnt p' = some x) : p = p' := by
  obtain ⟨-, -, h₁, -⟩ := h.posted hp hx
  obtain ⟨-, -, h₂, -⟩ := h.posted hp' hx'
  rw [h₁] at h₂
  exact CompCookie.compDone.inj h₂

/-- The heap entries that still wait do so with their posters, whoever else left. -/
theorem Own.idle_erase (hunl : p ∉ s.spq.unlimitedPending) (z : ℕ)
    (hz : z ∈ s.spq.unlimitedPending ∨ z ∈ []) : (s.spq.ents z).Idle z (s.waiting.erase p) := by
  refine (h.idle z hz).of_mem_iff (mem_erase_of_ne ?_)
  rintro rfl
  exact hunl (hz.resolve_right not_mem_nil)

/-- A poster that was woken returns the entry to the pool. -/
theorem Own.collect (hp : p ∈ s.waiting) (hd : (s.spq.ents p).compDone.done = true)
    (hx : s.spq.postedEnt p = some x) :
    ∃ f', Own [] { s with
      spq := qedSpqReturnEntry s.spq x
      waiting := s.waiting.erase p
      finished := s.finished.erase x } f' := by
  obtain ⟨y, hy, hfin⟩ := h.done p hp hd
  obtain rfl := some.inj (hx.symm.trans hy)
  have hf := h.filed.place (a := SpqPlace.finished) hfin
  obtain ⟨-, -, hcookie, hexp, hunl, -⟩ := h.posted hp hx
  have hmem : ∀ z, z ∈ s.waiting.erase p ↔ z ≠ p ∧ z ∈ s.waiting :=
    fun z => h.waiting_nodup.mem_erase_iff
  have hfmem : ∀ z, z ∈ s.finished.erase x ↔ z ≠ x ∧ z ∈ s.finished :=
    fun z => (h.filed.nodup .finished).mem_erase_iff
  have hinj : ∀ p' ∈ s.waiting, s.spq.postedEnt p' = some x → p' = p :=
    fun p' hp' hx' => h.posted_inj hp' hx' hp hx
  have hring : ∀ z, (z ∈ s.spq.pending ∨ z ∈ s.spq.completionPending ∨ z ∈ s.finished.erase x) ↔
      s.Ringed z ∧ z ≠ x := fun z => by
    have h₁ := h.not_mem (x := x) (a := .pending) (by simp [hf])
    have h₂ := h.not_mem (x := x) (a := .sent) (by simp [hf])
    grind [Ringed, list]
  refine ⟨_, { h with
    filed := h.filed.move (a := .finished) (b := .free) hfin (.refl _) (perm_append_singleton ..)
      (by rintro ⟨⟩ _ _ <;> trivial)
    fresh := h.fresh_update hf
    idle := h.idle_erase hunl
    quiet := fun z hz => h.quiet z ((hring z).1 hz).1
    eblock := ?_, poster := ?_, done := ?_, expired := ?_
    finished := fun z hz => h.finished z (mem_of_mem_erase hz)
    fired := ?_
    waiting_nodup := h.waiting_nodup.erase p }⟩
  · intro z hz hm
    obtain ⟨hr, hzx⟩ := (hring z).1 hz
    have := h.eblock z hr hm
    grind [Waits, GaveUp, qedSpqReturnEntry, postedEnt]
  · intro p' hp'
    obtain ⟨hne, hw⟩ := (hmem p').1 hp'
    refine (h.poster p' hw).imp_right ?_
    rintro ⟨z, h₁, h₂, h₃⟩
    refine ⟨z, h₁, (hring z).2 ⟨h₂, ?_⟩, h₃⟩
    rintro rfl
    exact hne (hinj p' hw h₁)
  · intro p' hp' hd'
    obtain ⟨hne, hw⟩ := (hmem p').1 hp'
    obtain ⟨z, hz, hzf⟩ := h.done p' hw hd'
    refine ⟨z, hz, (hfmem z).2 ⟨?_, hzf⟩⟩
    rintro rfl
    exact hne (hinj p' hw hz)
  · intro z hz
    obtain ⟨h₁, h₂⟩ := h.expired z hz
    refine ⟨(hring z).2 ⟨h₁, ?_⟩, h₂⟩
    rintro rfl
    exact hexp hz
  · intro g hg he
    obtain ⟨h₁, h₂⟩ := h.fired g hg he
    refine ⟨(hfmem _).2 ⟨?_, h₁⟩, fun p' hp' => h₂ p' (mem_of_mem_erase hp')⟩
    -- a callback that is still to come has not woken the poster
    intro hc
    have := h₂ p hp (hc ▸ hx)
    rw [hd] at this
    cases this

/-- A poster gives up an entry that was posted for it. -/
theorem Own.giveUp (hp : p ∈ s.waiting) (hx : s.spq.postedEnt p = some x) :
    Own [] { s with waiting := s.waiting.erase p, expired := s.expired ++ [x] } f := by
  obtain ⟨hring, hmode, hcookie, hexp, hunl, hplace⟩ := h.posted hp hx
  have hmem : ∀ z, z ∈ s.waiting.erase p ↔ z ≠ p ∧ z ∈ s.waiting :=
    fun z => h.waiting_nodup.mem_erase_iff
  have hinj : ∀ p' ∈ s.waiting, s.spq.postedEnt p' = some x → p' = p :=
    fun p' hp' hx' => h.posted_inj hp' hx' hp hx
  refine { h with
    idle := h.idle_erase hunl
    eblock := ?_
    poster := fun p' hp' => h.poster p' (mem_of_mem_erase hp')
    done := fun p' hp' => h.done p' (mem_of_mem_erase hp')
    expired := ?_
    fired := fun g hg he => ⟨(h.fired g hg he).1, fun p' hp' =>
      (h.fired g hg he).2 p' (mem_of_mem_erase hp')⟩
    waiting_nodup := h.waiting_nodup.erase p
    expired_nodup := ?_ }
  · intro z hz hm
    have := h.eblock z hz hm
    grind [Waits, GaveUp]
  · exact forall_mem_append.2 ⟨h.expired, forall_mem_singleton.2 ⟨hring, hmode⟩⟩
  · exact nodup_append.2 ⟨h.expired_nodup, by simp, by grind⟩

theorem Own.freeMoved {p : ℕ} (hp : p ∈ s.spq.hist.moved) (hw : p ∉ s.waiting) :
    ∃ f', Own [] { s with
      spq := { s.spq with hist := { s.spq.hist with
        moved := s.spq.hist.moved.erase p, freed := s.spq.hist.freed ++ [p] } } } f' := by
  have hf := h.filed.place (a := SpqPlace.moved) hp
  have hmem : ∀ z, z ∈ s.spq.hist.moved.erase p ↔ z ≠ p ∧ z ∈ s.spq.hist.moved :=
    fun z => (h.filed.nodup .moved).mem_erase_iff
  refine ⟨_, { h with
    filed := h.filed.move (a := .moved) (b := .freed) hp (.refl _) (perm_append_singleton ..)
      (by rintro ⟨⟩ _ _ <;> trivial)
    fresh := h.fresh_update hf
    eblock := ?_, poster := ?_ }⟩
  · intro z hz hm
    have := h.eblock z hz hm
    grind [Waits, GaveUp, postedEnt]
  · intro p' hp'
    have := h.poster p' hp'
    grind [Ringed, postedEnt]

/-- The entry of a poster that gave up goes back to the pool from the list it is still on. -/
theorem Own.abandon {x : ℕ} (hx : x ∈ s.expired)
    (hl : x ∈ s.spq.pending ∨ x ∈ s.spq.completionPending) :
    ∃ f', Own [] { s with
      spq := qedSpqReturnEntry { s.spq with
        pending := s.spq.pending.erase x
        completionPending := s.spq.completionPending.erase x } x
      expired := s.expired.erase x } f' := by
  obtain ⟨hxr, hmode⟩ := h.expired x hx
  have hpend : s.spq.pending.Nodup := h.filed.nodup .pending
  have hsent : s.spq.completionPending.Nodup := h.filed.nodup .sent
  have hfin : x ∉ s.finished := fun hc => by
    have hf := h.filed.place (a := SpqPlace.finished) hc
    rcases hl with hl | hl
    · exact h.not_mem (a := .pending) (by simp [hf]) hl
    · exact h.not_mem (a := .sent) (by simp [hf]) hl
  have hring : ∀ z, (z ∈ s.spq.pending.erase x ∨ z ∈ s.spq.completionPending.erase x ∨
      z ∈ s.finished) ↔ s.Ringed z ∧ z ≠ x := fun z => by
    rw [hsent.mem_erase_iff]
    grind [Ringed]
  have hexp : ∀ z, z ∈ s.expired.erase x ↔ z ≠ x ∧ z ∈ s.expired :=
    fun z => h.expired_nodup.mem_erase_iff
  obtain ⟨-, p, hcookie, hw | hgave⟩ := h.eblock x hxr hmode
  · exact absurd hx hw.2.2
  obtain ⟨hfiled, hfresh⟩ := h.filed.moveEither (a := .pending) (c := .sent) (b := .free)
    (l := list { s with
      spq := qedSpqReturnEntry { s.spq with
        pending := s.spq.pending.erase x
        completionPending := s.spq.completionPending.erase x } x } []) hl rfl rfl
    (perm_append_singleton ..) (by rintro ⟨⟩ _ _ _ <;> trivial)
  refine ⟨_, { h with
    filed := hfiled
    fresh := fun z => (hfresh z).trans (h.fresh z)
    quiet := fun z hz => h.quiet z ((hring z).1 hz).1
    eblock := ?_, poster := ?_, expired := ?_
    expired_nodup := h.expired_nodup.erase x }⟩
  · intro z hz hm
    obtain ⟨hr, hzx⟩ := (hring z).1 hz
    have := h.eblock z hr hm
    grind [Waits, GaveUp, qedSpqReturnEntry, postedEnt]
  · intro p' hp'
    refine (h.poster p' hp').imp_right ?_
    rintro ⟨z, h₁, h₂, h₃, h₄, h₅⟩
    refine ⟨z, h₁, (hring z).2 ⟨h₂, ?_⟩, h₃, h₄, h₅⟩
    rintro rfl
    rw [hcookie] at h₄
    cases h₄
    exact hgave.1 hp'
  · intro z hz
    obtain ⟨hzx, hz⟩ := (hexp z).1 hz
    obtain ⟨h₁, h₂⟩ := h.expired z hz
    exact ⟨(hring z).2 ⟨h₁, hzx⟩, h₂⟩

end Leave

end FastLinQ.Qed
