import FastLinQ.Foundations.Run

/-!
# The requests of a VF

A VF sends one request after the other. `qed_vf_pf_prep` takes the mutex and clears the reply
buffer, `qed_send_msg2pf` triggers the PF and polls the status in the buffer, and
`qed_vf_pf_req_end` releases the mutex. The PF writes the body of a reply first and its header, with
the status, last.

A request that times out ends while the PF still has it. Its reply may come after the buffer was
cleared for the next request, which takes it for its own (`not_vf_replies_own`). This does not
happen as long as late replies do not come into the reply that a request waits for
(`vf_replies_own`).
-/

namespace FastLinQ.Qed

open List

def QED_VF_CHANNEL_ITERATIONS : ℕ := 200
def PFVF_STATUS_SUCCESS : ℕ := 1

/-- The reply buffer: the status of the header, 0 (`PFVF_STATUS_WAITING`) if there is none, and the
body. -/
structure PfvfReply (β : Type*) where
  status : ℕ
  body : β
  deriving DecidableEq, Repr

/-- What `qed_send_msg2pf` returns. -/
inductive VfRc
  | ok
  | einval
  | ebusy
  deriving DecidableEq, Repr

/-- Where the holder of the mutex is, if there is one. -/
inductive ChannelPhase
  | idle
  | prepared
  | udelay (iter : ℕ)
  | msleep (iter : ℕ)
  | polled
  | returning (rc : VfRc)
  deriving DecidableEq, Repr

/-- A request that has ended, and what its caller read. -/
structure VfResult (β : Type*) where
  request : ℕ
  rc : VfRc
  reply : PfvfReply β
  deriving DecidableEq, Repr

/-- The channel. Requests are numbered, and `request` is the one in progress or the next one. `owed`
are those that the PF received and has not answered, each with whether the body was written. -/
structure VfChannel (β : Type*) where
  pf2vfReply : PfvfReply β
  phase : ChannelPhase
  request : ℕ
  owed : List (ℕ × Bool)
  results : List (VfResult β)

/-- The steps of the VF, with the channel status that is read before a request is sent, and those of
the PF. -/
inductive VfEvent
  | prep
  | send (chVal : ℕ)
  | poll
  | reqEnd
  | replyBody (request : ℕ)
  | replyHeader (request : ℕ)
  deriving DecidableEq, Repr

namespace VfChannel

variable {β : Type*}

def qedVfPfPrep [Zero β] (s : VfChannel β) : VfChannel β :=
  match s.phase with
  | .idle => { s with pf2vfReply := ⟨0, 0⟩, phase := .prepared }
  | _ => s

/-- `qed_send_msg2pf`, up to the first look at the status. -/
def qedSendMsg2pf (s : VfChannel β) (chVal : ℕ) : VfChannel β :=
  match s.phase with
  | .prepared =>
    if chVal ≠ 0 then { s with phase := .returning .einval }
    else { s with phase := .udelay 0, owed := s.owed ++ [(s.request, false)] }
  | _ => s

/-- The next look of `qed_send_msg2pf` at the status: one of the first loop, of the second loop, or
the last one. -/
def pollDone (s : VfChannel β) : VfChannel β :=
  match s.phase with
  | .udelay iter =>
    if s.pf2vfReply.status = 0 ∧ iter < QED_VF_CHANNEL_ITERATIONS then
      { s with phase := .udelay (iter + 1) }
    else { s with phase := .msleep 0 }
  | .msleep iter =>
    if s.pf2vfReply.status = 0 ∧ iter < QED_VF_CHANNEL_ITERATIONS then
      { s with phase := .msleep (iter + 1) }
    else { s with phase := .polled }
  | .polled => { s with phase := .returning (if s.pf2vfReply.status = 0 then .ebusy else .ok) }
  | _ => s

/-- The caller reads the reply, and `qed_vf_pf_req_end` releases the mutex. -/
def qedVfPfReqEnd (s : VfChannel β) : VfChannel β :=
  match s.phase with
  | .returning rc =>
    { s with
      phase := .idle
      request := s.request + 1
      results := s.results ++ [⟨s.request, rc, s.pf2vfReply⟩] }
  | _ => s

/-- The PF writes all of a reply but the header. -/
def replyBody (answer : ℕ → PfvfReply β) (s : VfChannel β) (r : ℕ) : VfChannel β :=
  if (r, false) ∈ s.owed then
    { s with
      owed := s.owed.erase (r, false) ++ [(r, true)]
      pf2vfReply.body := (answer r).body }
  else s

def replyHeader (answer : ℕ → PfvfReply β) (s : VfChannel β) (r : ℕ) : VfChannel β :=
  if (r, true) ∈ s.owed then
    { s with owed := s.owed.erase (r, true), pf2vfReply.status := (answer r).status }
  else s

/-- A step, with a PF that answers the requests as given. -/
def step [Zero β] (answer : ℕ → PfvfReply β) (s : VfChannel β) : VfEvent → VfChannel β
  | .prep => s.qedVfPfPrep
  | .send chVal => s.qedSendMsg2pf chVal
  | .poll => s.pollDone
  | .reqEnd => s.qedVfPfReqEnd
  | .replyBody r => s.replyBody answer r
  | .replyHeader r => s.replyHeader answer r

def start [Zero β] : VfChannel β := ⟨⟨0, 0⟩, .idle, 0, [], []⟩

/-- **A request that reports success was executed**: its caller read what the PF answered to it. -/
def RepliesOwn (answer : ℕ → PfvfReply β) (s : VfChannel β) : Prop :=
  ∀ x ∈ s.results, x.rc = .ok → x.reply.status = PFVF_STATUS_SUCCESS → x.reply = answer x.request

instance decidableRepliesOwn [DecidableEq β] (answer : ℕ → PfvfReply β) (s : VfChannel β) :
    Decidable (s.RepliesOwn answer) :=
  inferInstanceAs (Decidable (∀ x ∈ _, _ → _ → _))

/-- The buffer is for the reply to the request in progress. -/
def awaits : ChannelPhase → Bool
  | .prepared | .udelay _ | .msleep _ | .polled | .returning .ok => true
  | .idle | .returning .einval | .returning .ebusy => false

/-- While a request waits for its reply, the body of an earlier one comes only before its own body,
and the header of an earlier one does not come at all. -/
def InTurn (s : VfChannel β) : VfEvent → Prop
  | .replyBody r => (r, false) ∈ s.owed → r ≠ s.request → awaits s.phase →
      s.phase = .prepared ∨ (s.request, false) ∈ s.owed
  | .replyHeader r => (r, true) ∈ s.owed → r ≠ s.request → awaits s.phase = false
  | _ => True

instance decidableInTurn (s : VfChannel β) (e : VfEvent) : Decidable (s.InTurn e) := by
  unfold InTurn
  cases e <;> infer_instance

/-! ## The request in progress -/

/-- What the PF has of a request. -/
def pending (request : ℕ) (owed : List (ℕ × Bool)) : List (ℕ × Bool) :=
  owed.filter fun x => x.1 = request

/-- The PF has the request in progress, and nothing or only the body of the reply was written, or it
does not have it any more and the whole reply was. -/
def Serves (answer : ℕ → PfvfReply β) (request : ℕ) (owed : List (ℕ × Bool))
    (reply : PfvfReply β) : Prop :=
  (∃ written, pending request owed = [(request, written)] ∧ reply.status = 0 ∧
    (written = true → reply.body = (answer request).body)) ∨
  pending request owed = [] ∧ reply = answer request

/-- What is known in each phase. Once a request is about to end without a reply, it is nothing. -/
def Known (answer : ℕ → PfvfReply β) (request : ℕ) (owed : List (ℕ × Bool))
    (reply : PfvfReply β) : ChannelPhase → Prop
  | .idle | .returning .einval | .returning .ebusy => True
  | .prepared => reply.status = 0
  | .udelay _ | .msleep _ | .polled => Serves answer request owed reply
  | .returning .ok => pending request owed = [] ∧ reply = answer request

/-- The requests below this one may be with the PF. -/
def sentBelow (request : ℕ) : ChannelPhase → ℕ
  | .idle | .prepared => request
  | _ => request + 1

structure Inv (answer : ℕ → PfvfReply β) (s : VfChannel β) : Prop where
  sent : ∀ x ∈ s.owed, x.1 < sentBelow s.request s.phase
  known : Known answer s.request s.owed s.pf2vfReply s.phase
  own : s.RepliesOwn answer

variable {answer : ℕ → PfvfReply β} {s : VfChannel β}

theorem mem_pending {request r : ℕ} {owed : List (ℕ × Bool)} {written : Bool} :
    (r, written) ∈ pending request owed ↔ (r, written) ∈ owed ∧ r = request := by
  simp [pending]

theorem pending_of_ne {request r : ℕ} {owed : List (ℕ × Bool)} {written : Bool}
    (hne : r ≠ request) : pending request (owed.erase (r, written)) = pending request owed := by
  rw [pending, ← erase_filter]
  exact erase_of_not_mem fun h => hne (mem_pending.1 h).2

/-- The PF writes something: before the request in progress is sent it leaves no status, and then it
serves the request, which it has. -/
theorem Known.write {request : ℕ} {owed owed' : List (ℕ × Bool)} {reply reply' : PfvfReply β}
    {p : ChannelPhase} (h : Known answer request owed reply p)
    (hprep : p = .prepared → reply'.status = 0)
    (hserves : awaits p → p ≠ .prepared → ∃ written, (request, written) ∈ owed ∧
      (pending request owed = [(request, written)] → reply.status = 0 →
        (written = true → reply.body = (answer request).body) →
        Serves answer request owed' reply')) : Known answer request owed' reply' p := by
  have hwrite : awaits p → p ≠ .prepared → pending request owed ≠ [] ∧
      (Serves answer request owed reply → Serves answer request owed' reply') := by
    intro hawaits hp
    obtain ⟨written, hmem, hserves⟩ := hserves hawaits hp
    have hmem := mem_pending.2 ⟨hmem, rfl⟩
    refine ⟨ne_nil_of_mem hmem, ?_⟩
    rintro (⟨written', howed, hstatus, hbody⟩ | ⟨howed, -⟩)
    · obtain rfl : written = written' := by simpa [howed] using hmem
      exact hserves howed hstatus hbody
    · simp [howed] at hmem
  cases p with
  | idle => trivial
  | prepared => exact hprep rfl
  | udelay iter | msleep iter | polled => exact (hwrite rfl nofun).2 h
  | returning rc =>
    cases rc with
    | ok => exact absurd h.1 (hwrite rfl nofun).1
    | einval => trivial
    | ebusy => trivial

/-- A request that the PF has was sent. -/
theorem Inv.ne_prepared (h : s.Inv answer) {written : Bool} (hmem : (s.request, written) ∈ s.owed) :
    s.phase ≠ .prepared := by
  intro hphase
  have hsent := h.sent _ hmem
  rw [hphase] at hsent
  exact lt_irrefl _ hsent

theorem Inv.replyBody (h : s.Inv answer) (r : ℕ) (hturn : s.InTurn (.replyBody r)) :
    (s.replyBody answer r).Inv answer := by
  unfold VfChannel.replyBody
  split
  case isFalse => exact h
  case isTrue hr =>
    have hsent := h.sent _ hr
    refine ⟨forall_mem_append.2 ⟨fun x hx => h.sent x (mem_of_mem_erase hx),
      forall_mem_singleton.2 hsent⟩, ?_, h.own⟩
    by_cases hown : r = s.request
    · subst hown
      refine h.known.write (fun hp => absurd hp (h.ne_prepared hr)) fun _ _ =>
        ⟨false, hr, fun howed hstatus _ => .inl ⟨true, ?_, hstatus, fun _ => rfl⟩⟩
      rw [pending, filter_append, ← erase_filter, ← pending, howed]
      simp
    · -- an earlier request: the body of the one in progress is still to come
      refine h.known.write (fun hp => ?_) fun hawaits hp => ?_
      · have hknown := h.known
        rw [hp] at hknown
        exact hknown
      · have hmem := (hturn hr hown hawaits).resolve_left hp
        refine ⟨false, hmem, fun howed hstatus _ => .inl ⟨false, ?_, hstatus, nofun⟩⟩
        rw [pending, filter_append, ← pending, pending_of_ne hown, howed]
        simp [hown]

theorem Inv.replyHeader (h : s.Inv answer) (r : ℕ) (hturn : s.InTurn (.replyHeader r)) :
    (s.replyHeader answer r).Inv answer := by
  unfold VfChannel.replyHeader
  split
  case isFalse => exact h
  case isTrue hr =>
    refine ⟨fun x hx => h.sent x (mem_of_mem_erase hx), ?_, h.own⟩
    by_cases hown : r = s.request
    · subst hown
      refine h.known.write (fun hp => absurd hp (h.ne_prepared hr)) fun _ _ =>
        ⟨true, hr, fun howed _ hbody => .inr ⟨?_, ?_⟩⟩
      · rw [pending, ← erase_filter, ← pending, howed]
        simp
      · change PfvfReply.mk _ s.pf2vfReply.body = _
        rw [hbody rfl]
    · have hphase := hturn hr hown
      refine h.known.write (fun hp => ?_) fun hawaits _ => ?_
      · rw [hp] at hphase
        cases hphase
      · rw [hphase] at hawaits
        cases hawaits

theorem Inv.poll (h : s.Inv answer) : s.pollDone.Inv answer := by
  have hknown := h.known
  have hsent := h.sent
  unfold pollDone
  split
  · rename_i iter hphase
    rw [hphase] at hknown hsent
    split <;> exact ⟨hsent, hknown, h.own⟩
  · rename_i iter hphase
    rw [hphase] at hknown hsent
    split <;> exact ⟨hsent, hknown, h.own⟩
  · rename_i hphase
    rw [hphase] at hknown hsent
    by_cases hstatus : s.pf2vfReply.status = 0
    · rw [if_pos hstatus]
      exact ⟨hsent, trivial, h.own⟩
    · rw [if_neg hstatus]
      refine ⟨hsent, hknown.resolve_left ?_, h.own⟩
      rintro ⟨written, -, hzero, -⟩
      exact hstatus hzero
  · exact h

theorem Inv.step [Zero β] (h : s.Inv answer) {e : VfEvent} (hturn : s.InTurn e) :
    (s.step answer e).Inv answer := by
  have hknown := h.known
  have hsent := h.sent
  cases e with
  | prep =>
    rw [VfChannel.step, qedVfPfPrep]
    split
    · rename_i hphase
      rw [hphase] at hsent
      exact ⟨hsent, rfl, h.own⟩
    · exact h
  | send chVal =>
    rw [VfChannel.step, qedSendMsg2pf]
    split
    · rename_i hphase
      rw [hphase] at hknown hsent
      split
      · exact ⟨fun x hx => Nat.lt_succ_of_lt (hsent x hx), trivial, h.own⟩
      · refine ⟨forall_mem_append.2 ⟨fun x hx => Nat.lt_succ_of_lt (hsent x hx),
          forall_mem_singleton.2 (Nat.lt_succ_self _)⟩, .inl ⟨false, ?_, hknown, nofun⟩, h.own⟩
        -- the PF has no request with this number yet
        have hnone : pending s.request s.owed = [] :=
          filter_eq_nil_iff.2 fun x hx => by simpa [sentBelow] using (hsent x hx).ne
        rw [pending, filter_append, ← pending, hnone]
        simp
    · exact h
  | poll => exact h.poll
  | reqEnd =>
    rw [VfChannel.step, qedVfPfReqEnd]
    split
    · rename_i rc hphase
      rw [hphase] at hknown hsent
      refine ⟨hsent, trivial, forall_mem_append.2 ⟨h.own, forall_mem_singleton.2 ?_⟩⟩
      rintro (rfl : rc = .ok) -
      exact hknown.2
    · exact h
  | replyBody r => exact h.replyBody r hturn
  | replyHeader r => exact h.replyHeader r hturn

/-- **Requests get their own replies**, in every run in which late replies do not come into the
reply that a request waits for. -/
theorem vf_replies_own [Zero β] (answer : ℕ → PfvfReply β) {l : List VfEvent}
    (hl : Run.Meets InTurn (step answer) start l) :
    (l.foldl (step answer) start).RepliesOwn answer := by
  have hstart : Inv answer start := ⟨nofun, trivial, nofun⟩
  exact (hl.invariant (fun _ _ h => h.step) hstart).own

/-- A request and its reply, looked at three times. -/
def exchange (r : ℕ) : List VfEvent :=
  [.prep, .send 0, .replyBody r, .replyHeader r, .poll, .poll, .poll, .reqEnd]

theorem vf_replies_own_two :
    ((exchange 0 ++ exchange 1).foldl (step fun r => ⟨1, r⟩) start).results =
        [⟨0, .ok, ⟨1, 0⟩⟩, ⟨1, .ok, ⟨1, 1⟩⟩] ∧
      ((exchange 0 ++ exchange 1).foldl (step fun r => ⟨1, r⟩) start).RepliesOwn fun r => ⟨1, r⟩ :=
  ⟨by decide +kernel, vf_replies_own _ (by decide +kernel)⟩

/-- A request that times out, and another one whose wait the late reply ends. -/
def lateReply : List VfEvent :=
  [.prep, .send 0] ++ replicate 403 .poll ++ [.reqEnd, .prep, .send 0, .replyBody 0, .replyHeader 0,
    .poll, .poll, .poll, .reqEnd]

/-- The second request succeeds with the reply to the first one, and the PF still has it. -/
theorem not_vf_replies_own :
    (lateReply.foldl (step fun r => ⟨1, r⟩) start).results.map (fun x => (x.request, x.rc)) =
        [(0, .ebusy), (1, .ok)] ∧
      (lateReply.foldl (step fun r => ⟨1, r⟩) start).owed = [(1, false)] ∧
      ¬ (lateReply.foldl (step fun r => ⟨1, r⟩) start).RepliesOwn fun r => ⟨1, r⟩ := by
  decide +kernel

end VfChannel

end FastLinQ.Qed
