import FastLinQ.Foundations.Places
import FastLinQ.Qed.Spq.System

/-!
# Who owns an entry

Each entry is at one place: on one of the four lists, in the hands of a caller, or freed.
`SpqSys.list` collects the places, and `Own` says that the entries are filed there and what their
fields say about who waits for them: an EBLOCK entry that was posted points, through its cookie,
to the entry its poster waits with, and that entry points back (`Spq.postedEnt`).

The lemmas follow the entries through the sections of the code, one move at a time. While a
section runs an entry can be on no list at all; it is then in the `hand` of the section.
-/

namespace FastLinQ.Qed

open Places List SpqSys SpqEntry

inductive SpqPlace
  | free
  | pending
  | sent
  | unlimited
  | got
  | held
  | finished
  | taken
  | moved
  | freed
  | hand
  deriving DecidableEq, Repr

/-- The entries that completions are about to return to the pool. -/
def SpqSys.taken (s : SpqSys) : List ℕ :=
  ((s.fired ++ s.returning).filter fun g => !g.eblock).map Fired.ent

def SpqSys.list (s : SpqSys) (hand : List ℕ) : SpqPlace → List ℕ
  | .free => s.spq.freePool
  | .pending => s.spq.pending
  | .sent => s.spq.completionPending
  | .unlimited => s.spq.unlimitedPending
  | .got => s.got
  | .held => s.held
  | .finished => s.finished
  | .taken => s.taken
  | .moved => s.spq.hist.moved
  | .freed => s.spq.hist.freed
  | .hand => hand

/-- Completing the entry writes to no other entry. -/
def SpqEntry.Quiet (e : SpqEntry) : Prop := e.function = .blockingCb → ∀ p, e.cookie ≠ .compDone p

/-- What filling leaves in entry `x`. -/
structure SpqEntry.Filled (e : SpqEntry) (x : ℕ) : Prop where
  eblock : e.compMode = .eblock → e.cookie = .compDone x ∧ e.compDone.done = false
  block : e.compMode = .block → ∃ n, e.cookie = .client n
  cb : e.compMode = .cb → e.function ≠ .blockingCb
  fresh : e.queue = .unlimitedPending → e.postEnt = none

theorem spInitEntry_filled {x : ℕ} {e : SpqEntry} {d : SpInitData}
    (hd : d.ok = true ∨ d.compMode = .unknown)
    (hq : e.queue = .unlimitedPending → e.postEnt = none) : (spInitEntry x e d).Filled x := by
  obtain ⟨cid, cmd, protocol, mode, data⟩ := d
  refine ⟨?_, ?_, ?_, by simpa using hq⟩
  all_goals
    cases mode <;> cases data <;> simp_all [spInitEntry, SpInitData.ok]

/-- The entry is or was on its way through the ring. -/
def SpqSys.Ringed (s : SpqSys) (x : ℕ) : Prop :=
  x ∈ s.spq.pending ∨ x ∈ s.spq.completionPending ∨ x ∈ s.finished

/-- Poster `p` waits for entry `x`. -/
def SpqSys.Waits (s : SpqSys) (p x : ℕ) : Prop :=
  p ∈ s.waiting ∧ s.spq.postedEnt p = some x ∧ x ∉ s.expired

/-- The poster of entry `x`, that waited with `p`, gave up. -/
def SpqSys.GaveUp (s : SpqSys) (p x : ℕ) : Prop :=
  p ∉ s.waiting ∧ x ∈ s.expired ∧ (p = x ∨ p ∈ s.spq.hist.moved ∨ p ∈ s.spq.hist.freed)

/-- What entry `x` says before it goes to the ring. -/
structure SpqEntry.Idle (e : SpqEntry) (x : ℕ) (waiting : List ℕ) : Prop where
  fresh : e.queue = .unlimitedPending → e.postEnt = none
  quiet : e.compMode ≠ .eblock → e.Quiet ∧ x ∉ waiting
  eblock : e.compMode = .eblock →
    x ∈ waiting ∧ e.cookie = .compDone x ∧ e.function = .blockingCb ∧ e.compDone.done = false

theorem SpqEntry.Idle.of_mem_iff {e : SpqEntry} {x : ℕ} {l l' : List ℕ} (h : e.Idle x l)
    (hl : x ∈ l' ↔ x ∈ l) : e.Idle x l' :=
  ⟨h.fresh, fun hm => by rw [hl]; exact h.quiet hm, fun hm => by rw [hl]; exact h.eblock hm⟩

/-- **Ownership of the entries**, with the entries in the hand of a section. -/
structure Own (hand : List ℕ) (s : SpqSys) (f : ℕ → Option SpqPlace) : Prop where
  filed : Filed (s.list hand) f
  fresh : ∀ x, f x = none ↔ s.spq.nextEnt ≤ x
  got : ∀ x ∈ s.got, (s.spq.ents x).queue = .unlimitedPending → (s.spq.ents x).postEnt = none
  held : ∀ x ∈ s.held, (s.spq.ents x).Filled x
  idle : ∀ x, x ∈ s.spq.unlimitedPending ∨ x ∈ hand → (s.spq.ents x).Idle x s.waiting
  unlimited : ∀ x ∈ s.spq.unlimitedPending, (s.spq.ents x).queue = .unlimitedPending
  quiet : ∀ x, s.Ringed x → (s.spq.ents x).compMode ≠ .eblock → (s.spq.ents x).Quiet
  eblock : ∀ x, s.Ringed x → (s.spq.ents x).compMode = .eblock →
    (s.spq.ents x).function = .blockingCb ∧
      ∃ p, (s.spq.ents x).cookie = .compDone p ∧ (s.Waits p x ∨ s.GaveUp p x)
  poster : ∀ p ∈ s.waiting, (p ∈ s.spq.unlimitedPending ∨ p ∈ hand) ∨
      ∃ x, s.spq.postedEnt p = some x ∧ s.Ringed x ∧ (s.spq.ents x).compMode = .eblock ∧
        (s.spq.ents x).cookie = .compDone p ∧
        (p ∈ s.spq.hist.moved ∨ (s.spq.ents p).queue ≠ .unlimitedPending)
  done : ∀ p ∈ s.waiting, (s.spq.ents p).compDone.done = true →
    ∃ x, s.spq.postedEnt p = some x ∧ x ∈ s.finished
  expired : ∀ x ∈ s.expired, s.Ringed x ∧ (s.spq.ents x).compMode = .eblock
  finished : ∀ x ∈ s.finished, (s.spq.ents x).compMode = .eblock
  fired : ∀ g ∈ s.fired, g.eblock → g.ent ∈ s.finished ∧
    ∀ p ∈ s.waiting, s.spq.postedEnt p = some g.ent → (s.spq.ents p).compDone.done = false
  taken : ∀ x ∈ s.taken, (s.spq.ents x).compMode ≠ .eblock ∧ (s.spq.ents x).Quiet
  waiting_nodup : s.waiting.Nodup
  expired_nodup : s.expired.Nodup
  fired_nodup : ((s.fired.filter Fired.eblock).map Fired.ent).Nodup
  oops : s.oops = false

/-- The places of entries that nobody waits for or completes. -/
def SpqPlace.Loose (o : Option SpqPlace) : Prop :=
  o = none ∨ o = some .free ∨ o = some .got ∨ o = some .held ∨ o = some .freed

section Own

variable {hand : List ℕ} {s : SpqSys} {f : ℕ → Option SpqPlace} (h : Own hand s f)

include h

variable {x : ℕ}

theorem Own.not_ringed (hx : f x ≠ some .pending ∧ f x ≠ some .sent ∧ f x ≠ some .finished) :
    ¬ s.Ringed x := by
  rintro (hr | hr | hr)
  · exact hx.1 (h.filed.place hr)
  · exact hx.2.1 (h.filed.place hr)
  · exact hx.2.2 (h.filed.place hr)

theorem Own.fresh_update {a b : SpqPlace} (hf : f x = some a) (z : ℕ) :
    Function.update f x (some b) z = none ↔ s.spq.nextEnt ≤ z :=
  (update_eq_none_iff hf z).trans (h.fresh z)

theorem Own.not_mem {a : SpqPlace} (hx : f x ≠ some a) : x ∉ s.list hand a :=
  fun hc => hx (h.filed.place hc)

/-- A caller that waits does so with an entry that waits itself, went to the ring, or was copied
to one that did. -/
theorem Own.not_waiting (hx : SpqPlace.Loose (f x) ∨ f x = some .taken) : x ∉ s.waiting := by
  intro hw
  rcases h.poster x hw with (hu | hu) | ⟨y, hy, hr, -, -, hm | hq⟩
  · have := h.filed.place (a := SpqPlace.unlimited) hu
    simp_all [SpqPlace.Loose]
  · have := h.filed.place (a := SpqPlace.hand) hu
    simp_all [SpqPlace.Loose]
  · have := h.filed.place (a := SpqPlace.moved) hm
    simp_all [SpqPlace.Loose]
  · rw [Spq.postedEnt, if_neg hq] at hy
    refine h.not_ringed ?_ hr
    unfold SpqPlace.Loose at hx
    grind

/-- Freeing entries wakes nobody. -/
theorem Own.eblock_freed {freed : List ℕ} (hfreed : s.spq.hist.freed ⊆ freed) (z : ℕ)
    (hz : s.Ringed z) (hm : (s.spq.ents z).compMode = .eblock) :
    (s.spq.ents z).function = .blockingCb ∧ ∃ p, (s.spq.ents z).cookie = .compDone p ∧
      (s.Waits p z ∨
        { s with spq.hist.freed := freed }.GaveUp p z) := by
  obtain ⟨hfun, p, hp, hw | ⟨h₁, h₂, h₃⟩⟩ := h.eblock z hz hm
  · exact ⟨hfun, p, hp, .inl hw⟩
  · exact ⟨hfun, p, hp, .inr ⟨h₁, h₂, h₃.imp_right (.imp_right (hfreed ·))⟩⟩

/-- Writing to an entry nobody waits for or completes. -/
theorem Own.setEnt {e : SpqEntry} (hx : SpqPlace.Loose (f x))
    (hgot : x ∈ s.got → e.queue = .unlimitedPending → e.postEnt = none)
    (hheld : x ∈ s.held → e.Filled x) :
    Own hand { s with spq := s.spq.setEnt x e } f := by
  have hw : x ∉ s.waiting := h.not_waiting (.inl hx)
  have hr : ¬ s.Ringed x := h.not_ringed (by unfold SpqPlace.Loose at hx; grind)
  have hu : x ∉ s.list hand .unlimited := h.not_mem (by unfold SpqPlace.Loose at hx; grind)
  have hh : x ∉ s.list hand .hand := h.not_mem (by unfold SpqPlace.Loose at hx; grind)
  have ht : x ∉ s.list hand .taken := h.not_mem (by unfold SpqPlace.Loose at hx; grind)
  simp only [list] at hu hh ht
  have hpost : ∀ p ∈ s.waiting, (s.spq.setEnt x e).postedEnt p = s.spq.postedEnt p :=
    fun p hp => by
      have hpx : p ≠ x := fun hc => hw (hc ▸ hp)
      simp [Spq.postedEnt, s.spq.setEnt_of_ne x e hpx]
  have hring : ∀ z, s.Ringed z → z ≠ x := fun z hz hc => hr (hc ▸ hz)
  refine { h with
    got := fun z hz => ?_, held := fun z hz => ?_, idle := fun z hz => ?_,
    unlimited := fun z hz => ?_, quiet := fun z hz => ?_, eblock := fun z hz => ?_,
    poster := fun p hp => ?_, done := fun p hp => ?_, expired := fun z hz => ?_,
    finished := fun z hz => ?_, fired := fun g hg he => ?_,
    taken := fun z (hz : z ∈ s.taken) => ?_ }
  · have := h.got
    grind
  · have := h.held
    grind
  · obtain ⟨h₁, h₂, h₃⟩ := h.idle z hz
    constructor <;> grind
  · have := h.unlimited
    grind
  · have := h.quiet z hz
    have := hring z hz
    grind
  · have := h.eblock z hz
    have := hring z hz
    grind [Waits, GaveUp]
  · have := h.poster p hp
    grind [Ringed]
  · have := h.done
    grind
  · have := h.expired z hz
    grind [Ringed]
  · have := h.finished z hz
    grind [Ringed]
  · have := h.fired g hg he
    grind
  · have := h.taken z hz
    grind

end Own

/-! ## Getting, filling and destroying -/

section Moves

variable {s : SpqSys} {f : ℕ → Option SpqPlace} (h : Own [] s f)

include h

variable {x : ℕ}

theorem Own.getFree {l : List ℕ} (hl : s.spq.freePool = x :: l) :
    ∃ f', Own [] { s with
      spq := { s.spq.setEnt x { s.spq.ents x with queue := .pending } with freePool := l }
      got := s.got ++ [x] } f' := by
  have hf := h.filed.head (a := SpqPlace.free) hl
  have h₁ := h.setEnt (e := { s.spq.ents x with queue := .pending })
    (.inr (.inl hf)) (fun _ hq => by cases hq)
    (fun hh => absurd (h.filed.place (a := SpqPlace.held) hh) (by simp [hf]))
  refine ⟨_, { h₁ with
    filed := h₁.filed.pop (a := SpqPlace.free) (b := .got) hl rfl (perm_append_singleton ..)
      (by rintro ⟨⟩ _ _ <;> trivial)
    fresh := h.fresh_update hf
    got := ?_ }⟩
  intro z hz
  have := h.got z
  grind

theorem Own.getFresh :
    ∃ f', Own [] { s with
      spq := { s.spq.setEnt s.spq.nextEnt
        { zero with queue := .unlimitedPending } with nextEnt := s.spq.nextEnt + 1 }
      got := s.got ++ [s.spq.nextEnt] } f' := by
  have hf : f s.spq.nextEnt = none := (h.fresh _).2 le_rfl
  have h₁ := h.setEnt (e := { zero with queue := .unlimitedPending })
    (.inl hf) (fun _ _ => rfl)
    (fun hh => absurd (h.filed.place (a := SpqPlace.held) hh) (by simp [hf]))
  refine ⟨_, { h₁ with
    filed := h₁.filed.enter (b := .got) hf ?_ ?_
    fresh := fun z => ?_
    got := ?_ }⟩
  · exact perm_append_singleton ..
  · intro k hk
    cases k <;> first | rfl | exact absurd rfl hk
  · have := h.fresh z
    change _ ↔ s.spq.nextEnt + 1 ≤ z
    by_cases hz : z = s.spq.nextEnt
    · subst hz
      simp
    · rw [Function.update_of_ne hz, this]
      omega
  · intro z hz
    have := h.got z
    grind [zero]

/-- Filling an entry that stays with the caller of `qed_spq_get_entry`. -/
theorem Own.fillGot (hx : x ∈ s.got) (d : SpInitData) :
    Own [] { s with spq := s.spq.setEnt x (spInitEntry x (s.spq.ents x) d) } f := by
  have hf := h.filed.place (a := SpqPlace.got) hx
  refine h.setEnt (.inr (.inr (.inl hf))) (fun _ => ?_)
    (fun hh => absurd (h.filed.place (a := SpqPlace.held) hh) (by simp [hf]))
  simpa using h.got x hx

theorem Own.fillHeld (hx : x ∈ s.got) {d : SpInitData} (hd : d.ok = true ∨ d.compMode = .unknown) :
    ∃ f', Own [] { s with
      spq := s.spq.setEnt x (spInitEntry x (s.spq.ents x) d)
      got := s.got.erase x
      held := s.held ++ [x] } f' := by
  have h₁ := h.fillGot hx d
  have hf := h.filed.place (a := SpqPlace.got) hx
  refine ⟨_, { h₁ with
    filed := h₁.filed.move (a := .got) (b := .held) hx (.refl _) (perm_append_singleton ..)
      (by rintro ⟨⟩ _ _ <;> trivial)
    fresh := h.fresh_update hf
    got := fun z hz => h₁.got z (mem_of_mem_erase hz)
    held := forall_mem_append.2 ⟨h₁.held, forall_mem_singleton.2 ?_⟩ }⟩
  simpa using spInitEntry_filled hd (h.got x hx)

/-- An entry leaves the hands of its caller for the pool, or is freed. -/
theorem Own.leaveHands (hx : x ∈ s.got ∨ x ∈ s.held) {free freed : List ℕ} {b : SpqPlace}
    (hb : b = .free ∧ free = s.spq.freePool ++ [x] ∧ freed = s.spq.hist.freed ∨
      b = .freed ∧ free = s.spq.freePool ∧ freed = s.spq.hist.freed ++ [x]) :
    ∃ f', Own [] { s with
      spq := { s.spq with freePool := free, hist := { s.spq.hist with freed := freed } }
      got := s.got.erase x
      held := s.held.erase x } f' := by
  obtain ⟨hfiled, hfresh⟩ := h.filed.moveEither (a := .got) (c := .held) (b := b)
    (l := list { s with
      spq := { s.spq with freePool := free, hist := { s.spq.hist with freed := freed } }
      got := s.got.erase x, held := s.held.erase x } []) hx rfl rfl
    (by rcases hb with ⟨rfl, rfl, rfl⟩ | ⟨rfl, rfl, rfl⟩ <;> exact perm_append_singleton ..)
    (by
      rcases hb with ⟨rfl, rfl, rfl⟩ | ⟨rfl, rfl, rfl⟩
      all_goals rintro ⟨⟩ _ _ _ <;> trivial)
  exact ⟨_, { h with
    filed := hfiled
    fresh := fun z => (hfresh z).trans (h.fresh z)
    eblock := h.eblock_freed (by rcases hb with ⟨-, -, rfl⟩ | ⟨-, -, rfl⟩ <;> simp)
    got := fun z hz => h.got z (mem_of_mem_erase hz)
    held := fun z hz => h.held z (mem_of_mem_erase hz) }⟩

end Moves

end FastLinQ.Qed
