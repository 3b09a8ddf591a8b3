import FastLinQ.Qed.Spq.Owner

/-!
# Posting keeps the entries filed

`qed_spq_post` under the lock: the entry is filled, added to `pending` or `unlimited_pending`
(copied, if it came from the heap and the pool has an entry again), the entries that wait on
`unlimited_pending` follow it, and the head of `pending` goes to the ring. Each of these is a move
of one entry through the hand of the section; the loops are inductions over them.
-/

namespace FastLinQ.Qed

open Places Function List SpqPlace SpqSys SpqEntry

/-! ## Adding an entry to a list -/

/-- What `qed_spq_fill_entry` leaves in an entry. -/
def SpqEntry.withFunction (e : SpqEntry) : SpqEntry :=
  if e.compMode = .cb then e else { e with function := .blockingCb }

variable {q : Spq} {x : ℕ}

theorem fillEntry_eq (hm : (q.ents x).compMode ≠ .unknown) :
    qedSpqFillEntry q x = some (q.setEnt x (q.ents x).withFunction) := by
  cases hc : (q.ents x).compMode with
  | block => simp [qedSpqFillEntry, withFunction, hc]
  | eblock => simp [qedSpqFillEntry, withFunction, hc]
  | cb => simp [qedSpqFillEntry, withFunction, hc, Spq.setEnt]
  | unknown => exact absurd hc hm

@[simp, grind =] theorem SpqEntry.withFunction_compMode (e : SpqEntry) :
    e.withFunction.compMode = e.compMode := by
  unfold withFunction
  split <;> rfl

@[simp, grind =] theorem SpqEntry.withFunction_queue (e : SpqEntry) :
    e.withFunction.queue = e.queue := by
  unfold withFunction
  split <;> rfl

variable {e : SpqEntry}

theorem SpqEntry.Filled.withFunction (h : e.Filled x) : e.withFunction.Filled x := by
  obtain ⟨h₁, h₂, h₃, h₄⟩ := h
  unfold SpqEntry.withFunction
  split
  · exact ⟨h₁, h₂, h₃, h₄⟩
  · exact ⟨h₁, h₂, fun hc => absurd hc ‹_›, h₄⟩

theorem SpqEntry.Filled.quiet (h : e.Filled x) (hm : e.compMode ≠ .eblock)
    (hm' : e.compMode ≠ .unknown) : e.withFunction.Quiet := by
  unfold SpqEntry.withFunction
  cases hc : e.compMode with
  | block =>
    obtain ⟨n, hn⟩ := h.block hc
    intro _ p hp
    simp_all
  | eblock => exact absurd hc hm
  | cb =>
    rw [if_pos rfl]
    exact fun hf => absurd hf (h.cb hc)
  | unknown => exact absurd hc hm'

variable {f : ℕ → Option SpqPlace} {s : SpqSys}

/-- A caller posts an entry: the section of `qed_spq_post` takes it. -/
theorem Own.takeHeld (h : Own [] s f) (hx : x ∈ s.held) (hm : (s.spq.ents x).compMode ≠ .unknown) :
    ∃ f', Own [x] { s with
      spq := s.spq.setEnt x (s.spq.ents x).withFunction
      held := s.held.erase x
      waiting :=
        if (s.spq.ents x).compMode = .eblock then s.waiting ++ [x] else s.waiting } f' := by
  have hf := h.filed.place (a := SpqPlace.held) hx
  have hfill := h.held x hx
  have hw : x ∉ s.waiting := h.not_waiting (.inl (.inr (.inr (.inr (.inl hf)))))
  have hring : ¬ s.Ringed x := h.not_ringed (by simp [hf])
  have hunl : x ∉ s.spq.unlimitedPending := h.not_mem (a := .unlimited) (by simp [hf])
  have hfreed : x ∉ s.spq.hist.freed := h.not_mem (a := .freed) (by simp [hf])
  have hmoved : x ∉ s.spq.hist.moved := h.not_mem (a := .moved) (by simp [hf])
  have h₁ := h.setEnt
    (.inr (.inr (.inr (.inl hf))))
    (fun hg => absurd (h.filed.place (a := SpqPlace.got) hg) (by simp [hf]))
    (fun _ => hfill.withFunction)
  have hent : (s.spq.setEnt x (s.spq.ents x).withFunction).ents x = (s.spq.ents x).withFunction :=
    Spq.setEnt_self ..
  refine ⟨_, { h₁ with
    filed := h₁.filed.move (a := .held) (b := .hand) hx (.refl _) (.refl _)
      (by rintro ⟨⟩ _ _ <;> trivial)
    fresh := h.fresh_update hf
    held := fun z hz => h₁.held z (mem_of_mem_erase hz)
    idle := ?_, eblock := ?_, poster := ?_, done := ?_, fired := ?_, waiting_nodup := ?_ }⟩
  · intro z hz
    have h₂ := h₁.idle z
    rcases hz with hz | hz
    · obtain ⟨ha, hb, hc⟩ := h₂ (.inl hz)
      constructor <;> grind
    · obtain rfl := mem_singleton.1 hz
      simp only [hent]
      refine ⟨hfill.withFunction.fresh, fun hmode => ⟨hfill.quiet (by simpa using hmode) hm, ?_⟩,
        fun hmode => ?_⟩
      · grind
      · have hmode' : (s.spq.ents z).compMode = .eblock := by simpa using hmode
        have := hfill.eblock hmode'
        rw [withFunction, if_neg (show (s.spq.ents z).compMode ≠ .cb by simp [hmode'])]
        grind
  · intro z hz hmode
    have := h₁.eblock z hz hmode
    grind [Waits, GaveUp, Ringed]
  · intro p hp
    have := h₁.poster p
    grind [Ringed]
  · intro p hp
    have := h₁.done p
    have := hfill.withFunction.eblock
    grind
  · intro g hg he
    have := h₁.fired g hg he
    have := hfill.withFunction.eblock
    grind
  · have := h.waiting_nodup
    grind

theorem spqAddPending_perm (q : Spq) (x : ℕ) (pr : SpqPriority) :
    ∃ l, l.Perm (x :: q.pending) ∧ spqAddPending q x pr = { q with pending := l } := by
  cases pr with
  | normal => exact ⟨_, perm_append_singleton .., rfl⟩
  | high => exact ⟨_, .refl _, rfl⟩

/-- The pool entry gets everything but its ramrod memory from the heap entry. -/
def SpqEntry.copyTo (e : SpqEntry) (ramrod : ℕ) : SpqEntry := { e with elem.dataPtr := ramrod }

theorem spqCopyEntry_eblock {x y : ℕ} (hxy : x ≠ y) (hm : (q.ents x).compMode = .eblock) :
    spqCopyEntry q x y =
      { (q.setEnt y ((q.ents x).copyTo (q.ents y).elem.dataPtr)).setEnt x
          { (q.ents x).copyTo (q.ents y).elem.dataPtr with postEnt := some y } with
        hist := { q.hist with moved := q.hist.moved ++ [x] } } := by
  simp [spqCopyEntry, Spq.setEnt, copyTo, hm, update_comm hxy]

@[simp] theorem spqCopyEntry_pending (q : Spq) (x y : ℕ) :
    (spqCopyEntry q x y).pending = q.pending := by
  unfold spqCopyEntry
  dsimp only
  split <;> rfl

@[simp] theorem spqCopyEntry_unlimitedPending (q : Spq) (x y : ℕ) :
    (spqCopyEntry q x y).unlimitedPending = q.unlimitedPending := by
  unfold spqCopyEntry
  dsimp only
  split <;> rfl

@[simp] theorem spqCopyEntry_chain (q : Spq) (x y : ℕ) : (spqCopyEntry q x y).chain = q.chain := by
  unfold spqCopyEntry
  dsimp only
  split <;> rfl

theorem spqCopyEntry_of_ne {x y : ℕ} (hm : (q.ents x).compMode ≠ .eblock) :
    spqCopyEntry q x y = ((q.setEnt x ((q.ents x).copyTo (q.ents y).elem.dataPtr)).setEnt y
        ((q.ents x).copyTo (q.ents y).elem.dataPtr)).kfree x := by
  simp [spqCopyEntry, copyTo, hm]

variable {pr : SpqPriority}

theorem addEntry_pending (hq : (q.ents x).queue ≠ .unlimitedPending) :
    qedSpqAddEntry q x pr = spqAddPending q x pr := by
  rw [qedSpqAddEntry, if_neg hq]

theorem addEntry_unlimited (hq : (q.ents x).queue = .unlimitedPending) (hl : q.freePool = []) :
    qedSpqAddEntry q x pr = { q with unlimitedPending := q.unlimitedPending ++ [x] } := by
  rw [qedSpqAddEntry, if_pos hq, hl]

variable {l : List ℕ}

theorem addEntry_copy {x y : ℕ} (hq : (q.ents x).queue = .unlimitedPending)
    (hl : q.freePool = y :: l) :
    qedSpqAddEntry q x pr = spqAddPending (spqCopyEntry { q with freePool := l } x y) y pr := by
  rw [qedSpqAddEntry, if_pos hq, hl]

/-- With an entry in the pool nothing is added to `unlimited_pending`. -/
theorem addEntry_unlimitedPending (hp : q.freePool ≠ []) (x : ℕ) (pr : SpqPriority) :
    (qedSpqAddEntry q x pr).unlimitedPending = q.unlimitedPending := by
  by_cases hq : (q.ents x).queue = .unlimitedPending
  · obtain ⟨y, l, hl⟩ := exists_cons_of_ne_nil hp
    rw [addEntry_copy hq hl]
    obtain ⟨l', -, heq⟩ := spqAddPending_perm (spqCopyEntry { q with freePool := l } x y) y pr
    rw [heq]
    exact spqCopyEntry_unlimitedPending ..
  · rw [addEntry_pending hq]
    obtain ⟨l', -, heq⟩ := spqAddPending_perm q x pr
    rw [heq]

theorem pendLoop_stop (hp : q.freePool = []) : spqPendLoop (x :: l) q = q := by
  rw [spqPendLoop, hp]

theorem pendLoop_next (hp : q.freePool ≠ []) :
    spqPendLoop (x :: l) q =
      spqPendLoop l (qedSpqAddEntry { q with unlimitedPending := l } x (q.ents x).priority) := by
  obtain ⟨y, l', hl⟩ := exists_cons_of_ne_nil hp
  rw [spqPendLoop, hl]

theorem Own.takeUnlimited (h : Own [] s f) (hl : s.spq.unlimitedPending = x :: l) :
    ∃ f', Own [x] { s with spq := { s.spq with unlimitedPending := l } } f' := by
  have hmem : ∀ z, z ∈ l ∨ z ∈ [x] ↔ z ∈ s.spq.unlimitedPending := fun z => by grind
  exact ⟨_, { h with
    filed := h.filed.pop (a := SpqPlace.unlimited) (b := .hand) hl rfl (.refl _)
      (by rintro ⟨⟩ _ _ <;> trivial)
    fresh := h.fresh_update (h.filed.head (a := SpqPlace.unlimited) hl)
    idle := fun z hz => h.idle z (.inl ((hmem z).1 hz))
    unlimited := fun z hz => h.unlimited z ((hmem z).1 (.inl hz))
    poster := fun p hp => (h.poster p hp).imp_left fun hu => (hmem p).2 (by simpa using hu) }⟩

section Hand

variable {s : SpqSys} {f : ℕ → Option SpqPlace} {x : ℕ} (h : Own [x] s f)

include h

theorem Own.addUnlimited (hq : (s.spq.ents x).queue = .unlimitedPending) :
    ∃ f', Own [] { s with
      spq := { s.spq with unlimitedPending := s.spq.unlimitedPending ++ [x] } } f' := by
  have hmem : ∀ z, z ∈ s.spq.unlimitedPending ++ [x] ↔ z ∈ s.spq.unlimitedPending ∨ z ∈ [x] :=
    fun z => mem_append
  exact ⟨_, { h with
    filed := h.filed.pop (a := .hand) (b := .unlimited) rfl rfl (perm_append_singleton ..)
      (by rintro ⟨⟩ _ _ <;> trivial)
    fresh := h.fresh_update (h.filed.head (a := .hand) rfl)
    idle := fun z hz => h.idle z ((hmem z).1 (by simpa using hz))
    unlimited := forall_mem_append.2 ⟨h.unlimited, forall_mem_singleton.2 hq⟩
    poster := fun p hp => (h.poster p hp).imp_left fun hu => .inl ((hmem p).2 hu) }⟩

theorem Own.addPending (hq : (s.spq.ents x).queue ≠ .unlimitedPending) (pr : SpqPriority) :
    ∃ f', Own [] { s with spq := spqAddPending s.spq x pr } f' := by
  have hx : x ∈ s.list [x] .hand := mem_singleton_self x
  have hf := h.filed.place hx
  have hring : ¬ s.Ringed x := h.not_ringed (by simp [hf])
  have hexp : x ∉ s.expired := fun hc => hring (h.expired x hc).1
  obtain ⟨-, hquiet, heblock⟩ := h.idle x (.inr hx)
  obtain ⟨l, hl, heq⟩ := spqAddPending_perm s.spq x pr
  rw [heq]
  have hmem : ∀ z, z ∈ l ↔ z = x ∨ z ∈ s.spq.pending := fun z => by rw [hl.mem_iff, mem_cons]
  have hposted : s.spq.postedEnt x = some x := if_neg hq
  refine ⟨_, { h with
    filed := h.filed.pop (a := hand) (b := pending) rfl rfl hl (by rintro ⟨⟩ _ _ <;> trivial)
    fresh := h.fresh_update hf
    idle := fun z hz => h.idle z (.inl (by simpa using hz))
    quiet := ?_, eblock := ?_, poster := ?_, expired := ?_ }⟩
  · intro z hz
    have := h.quiet z
    grind [Ringed]
  · intro z hz hmode
    have := h.eblock z
    by_cases hzx : z = x
    · subst hzx
      obtain ⟨hw, hc, hfun, -⟩ := heblock hmode
      exact ⟨hfun, z, hc, .inl ⟨hw, hposted, hexp⟩⟩
    · grind [Ringed, Waits, GaveUp, Spq.postedEnt]
  · intro p hp
    have := h.poster p hp
    grind [Ringed, Spq.postedEnt]
  · intro z hz
    have := h.expired z hz
    grind [Ringed]

/-- The other entries are not the ones that are copied. -/
theorem Own.ne_of_copy {y z : ℕ} {l : List ℕ} (hl : s.spq.freePool = y :: l) {a : SpqPlace}
    (hz : z ∈ s.list [x] a) (ha : a ≠ .hand ∧ a ≠ .free) : z ≠ x ∧ z ≠ y :=
  ⟨h.filed.ne_of_mem (a := hand) (mem_singleton_self x) hz ha.1.symm,
    h.filed.ne_of_mem ((h.filed.mem_iff ..).2 (h.filed.head (a := free) hl)) hz ha.2.symm⟩

/-- A blocking heap entry is copied to a pool entry, which goes to `pending`; the poster still
waits with the heap entry. -/
theorem Own.copyEblock {y : ℕ} {l : List ℕ} (hl : s.spq.freePool = y :: l)
    (hq : (s.spq.ents x).queue = .unlimitedPending) (hm : (s.spq.ents x).compMode = .eblock)
    (pr : SpqPriority) :
    ∃ f', Own [] { s with
      spq := spqAddPending (spqCopyEntry { s.spq with freePool := l } x y) y pr } f' := by
  have hx : x ∈ s.list [x] .hand := mem_singleton_self x
  have hfx := h.filed.place hx
  have hfy := h.filed.head (a := free) hl
  have hy : y ∈ s.list [x] .free := (h.filed.mem_iff ..).2 hfy
  have hxy : x ≠ y := h.filed.ne_of_mem hy hx (by decide)
  obtain ⟨hw, hc, hfun, hdone⟩ := (h.idle x (.inr hx)).eblock hm
  have hrx : ¬ s.Ringed x := h.not_ringed (by simp [hfx])
  have hry : ¬ s.Ringed y := h.not_ringed (by simp [hfy])
  have hyw : y ∉ s.waiting := h.not_waiting (.inl (.inr (.inl hfy)))
  have hnone := (h.idle x (.inr hx)).fresh hq
  have hexp : y ∉ s.expired := fun hc => hry (h.expired y hc).1
  obtain ⟨l', hl', heq⟩ := spqAddPending_perm (spqCopyEntry { s.spq with freePool := l } x y) y pr
  rw [heq, spqCopyEntry_eblock (q := { s.spq with freePool := l }) hxy hm]
  rw [spqCopyEntry_pending] at hl'
  generalize he : copyTo _ _ = e
  have hpend : ∀ z, z ∈ l' ↔ z = y ∨ z ∈ s.spq.pending := fun z => by rw [hl'.mem_iff, mem_cons]
  have hmode : e.compMode = .eblock := by rw [← he]; exact hm
  have hcookie : e.cookie = .compDone x := by rw [← he]; exact hc
  have hfunc : e.function = .blockingCb := by rw [← he]; exact hfun
  have hqueue : e.queue = .unlimitedPending := by rw [← he]; exact hq
  have hnot : e.compDone.done = false := by rw [← he]; exact hdone
  have hfiled : Filed ({ s with spq := { s.spq with freePool := l, pending := l' } }.list [x])
      (update f y (some .pending)) :=
    h.filed.pop (a := free) hl rfl hl' (by rintro ⟨⟩ _ _ <;> trivial)
  refine ⟨_, { h with
    filed := hfiled.pop (a := hand) (b := moved) rfl rfl (perm_append_singleton ..)
      (by rintro ⟨⟩ _ _ <;> trivial)
    fresh := ?_, got := ?_, held := ?_, idle := ?_, unlimited := ?_, quiet := ?_, eblock := ?_,
    poster := ?_, done := ?_, expired := ?_, finished := ?_, fired := ?_, taken := ?_ }⟩
  · intro z
    rw [update_eq_none_iff (a := hand) (by simp [hxy, hfx]), update_eq_none_iff hfy]
    exact h.fresh z
  · intro z hz
    have := h.ne_of_copy hl (a := .got) hz (by decide)
    have := h.got z hz
    grind
  · intro z hz
    have := h.ne_of_copy hl (a := .held) hz (by decide)
    have := h.held z hz
    grind
  · intro z hz
    have hzu := hz.resolve_right not_mem_nil
    have := h.ne_of_copy hl (a := .unlimited) hzu (by decide)
    have := h.idle z (.inl hzu)
    grind
  · intro z hz
    have := h.ne_of_copy hl (a := .unlimited) hz (by decide)
    have := h.unlimited z hz
    grind
  · intro z hz
    have := h.quiet z
    grind [Ringed]
  · intro z hz hmd
    have := h.eblock z
    grind [Ringed, Waits, GaveUp, Spq.postedEnt]
  · intro p hp
    by_cases hpx : p = x
    · subst hpx
      refine .inr ⟨y, ?_, .inl ((hpend y).2 (.inl rfl)), ?_, ?_, .inl ?_⟩ <;>
        grind [Spq.postedEnt]
    · rcases h.poster p hp with hu | ⟨z, h₁, h₂, h₃, h₄, h₅⟩
      · exact .inl (.inl (by grind))
      · refine .inr ⟨z, ?_, ?_, ?_, ?_, ?_⟩ <;> grind [Ringed, Spq.postedEnt]
  · intro p hp
    have := h.done p hp
    grind [Spq.postedEnt]
  · intro z hz
    have := h.expired z hz
    grind [Ringed]
  · intro z hz
    have := h.finished z hz
    grind
  · intro g hg hge
    have := h.fired g hg hge
    grind [Spq.postedEnt]
  · intro z (hz : z ∈ s.taken)
    have := h.ne_of_copy hl (a := .taken) hz (by decide)
    have := h.taken z hz
    grind

/-- A pool entry whose completion concerns nobody goes to `pending`. -/
theorem Own.queueFree {y : ℕ} {l l' : List ℕ} (hl : s.spq.freePool = y :: l)
    (hl' : l'.Perm (y :: s.spq.pending)) (hm : (s.spq.ents y).compMode ≠ .eblock)
    (hq : (s.spq.ents y).Quiet) :
    ∃ f', Own [x] { s with spq := { s.spq with freePool := l, pending := l' } } f' := by
  have hf := h.filed.head (a := free) hl
  have hring : ¬ s.Ringed y := h.not_ringed (by simp [hf])
  have hpend : ∀ z, z ∈ l' ↔ z = y ∨ z ∈ s.spq.pending := fun z => by rw [hl'.mem_iff, mem_cons]
  refine ⟨_, { h with
    filed := h.filed.pop (a := free) (b := pending) hl rfl hl' (by rintro ⟨⟩ _ _ <;> trivial)
    fresh := h.fresh_update hf
    quiet := ?_, eblock := ?_, poster := ?_, expired := ?_ }⟩
  · intro z hz
    have := h.quiet z
    grind [Ringed]
  · intro z hz hmode
    have := h.eblock z
    grind [Ringed, Waits, GaveUp, Spq.postedEnt]
  · intro p hp
    have := h.poster p hp
    grind [Ringed, Spq.postedEnt]
  · intro z hz
    have := h.expired z hz
    grind [Ringed]

theorem Own.freeHand (hw : x ∉ s.waiting) :
    ∃ f', Own [] { s with spq := s.spq.kfree x } f' ∧ f' x = some .freed := by
  refine ⟨_, { h with
    filed := h.filed.pop (a := .hand) rfl rfl (perm_append_singleton ..)
      (by rintro ⟨⟩ _ _ <;> trivial)
    fresh := h.fresh_update (h.filed.head (a := .hand) rfl)
    idle := fun z hz => h.idle z (.inl (hz.resolve_right not_mem_nil))
    eblock := h.eblock_freed (subset_append_left ..)
    poster := fun p hp => (h.poster p hp).imp_left fun hu => .inl ?_ },
    update_self ..⟩
  refine hu.resolve_right fun hc => hw ?_
  obtain rfl := mem_singleton.1 hc
  exact hp

/-- A heap entry nobody waits for is copied to a pool entry, which goes to `pending`, and freed. -/
theorem Own.copyQuiet {y : ℕ} {l : List ℕ} (hl : s.spq.freePool = y :: l)
    (hm : (s.spq.ents x).compMode ≠ .eblock) (pr : SpqPriority) :
    ∃ f', Own [] { s with
      spq := spqAddPending (spqCopyEntry { s.spq with freePool := l } x y) y pr } f' := by
  have hx : x ∈ s.list [x] .hand := mem_singleton_self x
  have hf := h.filed.head (a := free) hl
  have hy : y ∈ s.list [x] .free := (h.filed.mem_iff ..).2 hf
  have hxy : x ≠ y := h.filed.ne_of_mem hy hx (by decide)
  obtain ⟨hquiet, hw⟩ := (h.idle x (.inr hx)).quiet hm
  obtain ⟨l', hl', heq⟩ := spqAddPending_perm (spqCopyEntry { s.spq with freePool := l } x y) y pr
  rw [heq, spqCopyEntry_of_ne (q := { s.spq with freePool := l }) hm]
  rw [spqCopyEntry_pending] at hl'
  have h₁ := h.setEnt (e := (s.spq.ents x).copyTo (s.spq.ents y).elem.dataPtr)
    (.inr (.inl hf)) (fun hg => absurd hg (h.filed.not_mem (b := SpqPlace.got) hy (by decide)))
    (fun hg => absurd hg (h.filed.not_mem (b := SpqPlace.held) hy (by decide)))
  obtain ⟨f₂, h₂⟩ := h₁.queueFree hl hl'
    (by rw [Spq.setEnt_self]; exact hm) (by rw [Spq.setEnt_self]; exact hquiet)
  obtain ⟨f₃, h₃, hf₃⟩ := h₂.freeHand hw
  have h₄ := h₃.setEnt (e := (s.spq.ents x).copyTo (s.spq.ents y).elem.dataPtr)
    (.inr (.inr (.inr (.inr hf₃))))
    (fun hg => absurd (h₃.filed.place (a := SpqPlace.got) hg) (by simp [hf₃]))
    (fun hg => absurd (h₃.filed.place (a := SpqPlace.held) hg) (by simp [hf₃]))
  refine ⟨f₃, ?_⟩
  simpa [Spq.setEnt, Spq.kfree, update_comm hxy] using h₄

theorem Own.addEntry (pr : SpqPriority) :
    ∃ f', Own [] { s with spq := qedSpqAddEntry s.spq x pr } f' := by
  by_cases hq : (s.spq.ents x).queue = .unlimitedPending
  · by_cases hl : s.spq.freePool = []
    · rw [addEntry_unlimited hq hl]
      exact h.addUnlimited hq
    · obtain ⟨y, l, hl⟩ := exists_cons_of_ne_nil hl
      rw [addEntry_copy hq hl]
      by_cases hm : (s.spq.ents x).compMode = .eblock
      · exact h.copyEblock hl hq hm pr
      · exact h.copyQuiet hl hm pr
  · rw [addEntry_pending hq]
    exact h.addPending hq pr

end Hand

theorem Own.pendLoop (h : Own [] s f) (hl : s.spq.unlimitedPending = l) :
    ∃ f', Own [] { s with spq := spqPendLoop l s.spq } f' := by
  induction l generalizing s f with
  | nil => exact ⟨f, h⟩
  | cons x l ih =>
    by_cases hp : s.spq.freePool = []
    · rw [pendLoop_stop hp]
      exact ⟨f, h⟩
    · obtain ⟨f₁, h₁⟩ := h.takeUnlimited hl
      obtain ⟨f₂, h₂⟩ := h₁.addEntry (s.spq.ents x).priority
      rw [pendLoop_next hp]
      refine ih h₂ ?_
      exact addEntry_unlimitedPending (q := { s.spq with unlimitedPending := l }) hp ..

/-! ## Handing entries to the firmware -/

/-- The chain hands out no null pointer. -/
structure Chain.Mapped (c : Chain) : Prop where
  single : c.mode = .single
  virt : c.pVirtAddr ≠ 0
  elem : c.prod.elem ≠ 0

theorem Chain.Mapped.produce {c : Chain} (h : c.Mapped) :
    (qedChainProduce c).1 ≠ 0 ∧ (qedChainProduce c).2.Mapped := by
  have hne : ∀ s : ChainSide, s.elem ≠ 0 → (qedChainNextElem c s).1 ≠ 0 ∧
      (qedChainNextElem c s).2.elem ≠ 0 := by
    intro s hs
    have := h.virt
    simp only [qedChainNextElem, qedChainAdvancePage, h.single]
    split <;> exact ⟨by assumption, by simp; tauto⟩
  exact ⟨(hne _ h.elem).1, h.single, h.virt, (hne _ h.elem).2⟩

/-- The queue after `qed_spq_hw_post` took an element of the ring. -/
def Spq.posted (q : Spq) (x : ℕ) : Spq :=
  let e := { q.ents x with elem.hdr.echo := qedChainGetProdIdx q.chain }
  { q.setEnt x e with
    chain := (qedChainProduce q.chain).2
    ring := update q.ring (qedChainProduce q.chain).1 e.elem
    hist := { q.hist with
      produced := q.hist.produced + 1
      seqOf := update q.hist.seqOf x q.hist.produced } }

theorem hwPost_eq (h : q.chain.Mapped) (x : ℕ) : qedSpqHwPost q x = (true, q.posted x) := by
  simp only [qedSpqHwPost, if_neg h.produce.1]
  rfl

/-- One turn of the loop of `qed_spq_post_list`. -/
def Spq.send (q : Spq) (x : ℕ) (l : List ℕ) : Spq :=
  Spq.posted { q with pending := l, completionPending := q.completionPending ++ [x] } x

theorem postLoop_next (h : q.chain.Mapped) {keep x : ℕ} (hk : keep < qedChainGetElemLeft q.chain) :
    spqPostLoop keep (x :: l) q = spqPostLoop keep l (q.send x l) := by
  rw [spqPostLoop, if_pos hk]
  simp only [hwPost_eq (q := { q with
    pending := l, completionPending := q.completionPending ++ [x] }) h]
  rfl

theorem postLoop_stop {keep x : ℕ} (hk : ¬ keep < qedChainGetElemLeft q.chain) :
    spqPostLoop keep (x :: l) q = (true, q) := by
  rw [spqPostLoop, if_neg hk]

/-- The two queues hold the same entries in the same places, and the entries differ in their ring
element only. -/
structure Spq.SameEnts (q q' : Spq) : Prop where
  unlimitedPending : q'.unlimitedPending = q.unlimitedPending
  pending : q'.pending = q.pending
  completionPending : q'.completionPending = q.completionPending
  freePool : q'.freePool = q.freePool
  moved : q'.hist.moved = q.hist.moved
  freed : q'.hist.freed = q.hist.freed
  nextEnt : q'.nextEnt = q.nextEnt
  ents : ∀ z, ∃ el, q'.ents z = { q.ents z with elem := el }

theorem SpqEntry.Filled.elem (h : e.Filled x) (el : SlowPathElement) :
    Filled { e with elem := el } x := ⟨h.eblock, h.block, h.cb, h.fresh⟩

theorem SpqEntry.Idle.elem (h : e.Idle x l) (el : SlowPathElement) :
    Idle { e with elem := el } x l :=
  ⟨h.fresh, h.quiet, h.eblock⟩

/-- Ownership does not depend on the ring. -/
theorem Own.sameEnts {hand : List ℕ} (h : Own hand s f) (hq : s.spq.SameEnts q) :
    Own hand { s with spq := q } f := by
  obtain ⟨unl, pend, sent, free, _, _, _, _, ents, next, _, ⟨_, _, _, _, _, moved, freed⟩⟩ := q
  obtain ⟨h₁, h₂, h₃, h₄, h₅, h₆, h₇, hents⟩ := hq
  choose el hel using hents
  obtain rfl := funext hel
  dsimp only at h₇
  subst h₁ h₂ h₃ h₄ h₅ h₆ h₇
  exact { h with
    held := fun z hz => (h.held z hz).elem _
    idle := fun z hz => (h.idle z hz).elem _ }

theorem send_ents (q : Spq) (x : ℕ) (l : List ℕ) (z : ℕ) :
    ∃ el, (q.send x l).ents z = { q.ents z with elem := el } := by
  by_cases hz : z = x
  · subst hz
    exact ⟨_, update_self ..⟩
  · exact ⟨_, update_of_ne hz ..⟩

theorem Own.send (h : Own [] s f) (hl : s.spq.pending = x :: l) :
    ∃ f', Own [] { s with spq := s.spq.send x l } f' := by
  have hring : ∀ z, (z ∈ l ∨ z ∈ s.spq.completionPending ++ [x] ∨ z ∈ s.finished) ↔ s.Ringed z :=
    fun z => by grind [Ringed]
  obtain ⟨f', h'⟩ : ∃ f', Own [] { s with
      spq := { s.spq with
        pending := l, completionPending := s.spq.completionPending ++ [x] } } f' := by
    exact ⟨_, { h with
      filed := h.filed.pop (a := pending) (b := .sent) hl rfl (perm_append_singleton ..)
        (by rintro ⟨⟩ _ _ <;> trivial)
      fresh := h.fresh_update (h.filed.head (a := pending) hl)
      quiet := fun z hz => h.quiet z ((hring z).1 hz)
      eblock := fun z hz => h.eblock z ((hring z).1 hz)
      poster := fun p hp => (h.poster p hp).imp_right
        (Exists.imp fun z hz => ⟨hz.1, (hring z).2 hz.2.1, hz.2.2⟩)
      expired := fun z hz => ⟨(hring z).2 (h.expired z hz).1, (h.expired z hz).2⟩ }⟩
  exact ⟨f', h'.sameEnts ⟨rfl, rfl, rfl, rfl, rfl, rfl, rfl, send_ents s.spq x l⟩⟩

theorem Own.postLoop (h : Own [] s f) (hc : s.spq.chain.Mapped) (hl : s.spq.pending = l)
    (keep : ℕ) :
    (spqPostLoop keep l s.spq).1 = true ∧ (spqPostLoop keep l s.spq).2.chain.Mapped ∧
      ∃ f', Own [] { s with spq := (spqPostLoop keep l s.spq).2 } f' := by
  induction l generalizing s f with
  | nil => exact ⟨rfl, hc, f, h⟩
  | cons x l ih =>
    by_cases hk : keep < qedChainGetElemLeft s.spq.chain
    · rw [postLoop_next hc hk]
      obtain ⟨f', h'⟩ := h.send hl
      exact ih h' hc.produce.2 rfl
    · rw [postLoop_stop hk]
      exact ⟨rfl, hc, f, h⟩

theorem addEntry_chain (q : Spq) (x : ℕ) (pr : SpqPriority) :
    (qedSpqAddEntry q x pr).chain = q.chain := by
  have hadd : ∀ (q : Spq) y, (spqAddPending q y pr).chain = q.chain := fun q y => by
    obtain ⟨l, -, heq⟩ := spqAddPending_perm q y pr
    rw [heq]
  by_cases hq : (q.ents x).queue = .unlimitedPending
  · by_cases hl : q.freePool = []
    · rw [addEntry_unlimited hq hl]
    · obtain ⟨y, l, hl⟩ := exists_cons_of_ne_nil hl
      rw [addEntry_copy hq hl, hadd]
      exact spqCopyEntry_chain ..
  · rw [addEntry_pending hq, hadd]

theorem pendLoop_chain (l : List ℕ) (q : Spq) : (spqPendLoop l q).chain = q.chain := by
  induction l generalizing q with
  | nil => rfl
  | cons x l ih =>
    by_cases hp : q.freePool = []
    · rw [pendLoop_stop hp]
    · rw [pendLoop_next hp, ih, addEntry_chain]

theorem Own.pendPost (h : Own [] s f) (hc : s.spq.chain.Mapped) :
    (qedSpqPendPost s.spq).1 = true ∧ (qedSpqPendPost s.spq).2.chain.Mapped ∧
      ∃ f', Own [] { s with spq := (qedSpqPendPost s.spq).2 } f' := by
  obtain ⟨f', h'⟩ := h.pendLoop rfl
  refine h'.postLoop ?_ rfl _
  rw [pendLoop_chain]
  exact hc

theorem post_of_fill (hm : (q.ents x).compMode ≠ .unknown) :
    qedSpqPost q x =
      let q' := q.setEnt x (q.ents x).withFunction
      let r := qedSpqPendPost (qedSpqAddEntry q' x (q'.ents x).priority)
      (decide ((q.ents x).compMode = .eblock) && r.1, r.2) := by
  simp [qedSpqPost, fillEntry_eq hm, Spq.setEnt_self, withFunction_compMode]

theorem post_of_unknown (hm : (q.ents x).compMode = .unknown) :
    qedSpqPost q x = (false, qedSpqReturnEntry q x) := by
  simp [qedSpqPost, qedSpqFillEntry, hm]

/-- **`qed_spq_post`**, in every completion mode. -/
theorem Own.post (h : Own [] s f) (hc : s.spq.chain.Mapped) (hx : x ∈ s.held) :
    (s.step (.post x)).spq.chain.Mapped ∧ ∃ f', Own [] (s.step (.post x)) f' := by
  by_cases hm : (s.spq.ents x).compMode = .unknown
  · have hgot : s.got.erase x = s.got := erase_of_not_mem
      (h.filed.not_mem (a := SpqPlace.held) (b := SpqPlace.got) hx (by decide))
    obtain ⟨f', h'⟩ := h.leaveHands (.inr hx) (.inl ⟨rfl, rfl, rfl⟩)
    rw [hgot] at h'
    simp only [step, post_of_unknown hm]
    exact ⟨hc, f', h'⟩
  · obtain ⟨f₁, h₁⟩ := h.takeHeld hx hm
    obtain ⟨f₂, h₂⟩ := h₁.addEntry
      ((s.spq.setEnt x (s.spq.ents x).withFunction).ents x).priority
    obtain ⟨hr, hc', f₃, h₃⟩ := h₂.pendPost (by rw [addEntry_chain]; exact hc)
    simp only [step, post_of_fill hm]
    refine ⟨hc', f₃, ?_⟩
    simp only [hr, Bool.and_true, decide_eq_true_eq]
    exact h₃

end FastLinQ.Qed
