import FastLinQ.Qedr.CqRun

/-!
# Send completions

For each QP, what `qedr_poll_cq` has reported for its sends is what is to be reported under the CQEs
of its requester (`reqOut`), in order and without gaps or repetitions, as far as the calls have
come: at least under the CQEs that were consumed, and nothing beyond those that were written. This
holds whatever happens to the chains and to the receive queues.
-/

namespace FastLinQ.Qedr

open Qed Completion Function List Sq Nat Sent CqSys

/-! ## One CQE of a requester -/

/-- What is to be reported for a send under a CQE, and whether it is the last one under it. -/
def reqOut (q : ℕ) (status : RdmaCqeReqSts) (last : Bool) (e : WqeWrId) : List IbWc :=
  if status = .workRequestFlushedErr then [reqWc q .wrFlushErr e]
  else if status ≠ .ok ∧ last then [reqWc q status.wcStatus e]
  else if e.signaled then [reqWc q .success e] else []

/-- The entry that a turn of `process_req` fills. -/
def reqFill (q : ℕ) (status : IbWcStatus) (force : Bool) (e : WqeWrId) : Option IbWc :=
  if !e.signaled && !force then none else some (reqWc q status e)

theorem completes_reqTurn (q : ℕ) (status : IbWcStatus) (force : Bool) :
    Completes wq wqeWrId (reqTurn q status force) (reqFill q status force) :=
  ⟨fun _ => ⟨_, _, rfl, rfl⟩, fun _ => rfl⟩

theorem toList_reqFill_forced (q : ℕ) (status : IbWcStatus) (e : WqeWrId) :
    (reqFill q status true e).toList = [reqWc q status e] := by
  rw [reqFill, Bool.not_true, Bool.and_false]
  rfl

theorem toList_reqFill (q : ℕ) (status : IbWcStatus) (e : WqeWrId) :
    (reqFill q status false e).toList = if e.signaled then [reqWc q status e] else [] := by
  unfold reqFill
  cases e.signaled <;> rfl

theorem Sq.processReq_signaled {sq : Sq} {qp n hw : ℕ} (st : IbWcStatus) (force : Bool) :
    (sq.processReq qp n hw st force).1.signaled = sq.signaled :=
  drain_invariant (P := fun s : Sq => s.signaled = sq.signaled) (fun _ h => h) rfl _ _

theorem Sq.qedrPollCqReq_signaled {sq : Sq} {qp n hw : ℕ} (status : RdmaCqeReqSts) :
    (sq.qedrPollCqReq qp n hw status).1.signaled = sq.signaled := by
  have hbefore : (sq.reqBefore qp n hw).1.signaled = sq.signaled :=
    processReq_signaled .success false
  refine qedrPollCqReq_induction (C := fun r => r.1.signaled = sq.signaled) status ?_ ?_ ?_
  · exact fun st force => processReq_signaled st force
  · intro x r st hx hr _
    rw [hx] at hbefore
    have hafter := hr ▸ processReq_signaled st true
    exact hafter.trans hbefore
  · exact fun _ => hbefore

section Loop

variable {q a c n : ℕ} {sq : Sq} {posted : List WqeWrId} {log todo : List (Notice RdmaCqeReqSts)}
  {status : RdmaCqeReqSts} {reported : List IbWc}

/-- What a CQE that completes the sends before `a` is to make of the queue. -/
def ReqServed (q a c : ℕ) (sq : Sq) (posted : List WqeWrId) (log todo : List (Notice RdmaCqeReqSts))
    (status : RdmaCqeReqSts) (reported : List IbWc) (r : Sq × List WrDone) : Prop :=
  ∃ c', c ≤ c' ∧ c' ≤ a ∧ QueueAt r.1.wq r.1.wqeWrId posted c' ∧ r.1.wq.maxWr = sq.wq.maxWr ∧
    Served (reqOut q) posted log c' (⟨a - c', status⟩ :: todo) (reported ++ entries r.2)

/-- One pass of `process_req` that is to come to `b`. -/
theorem processReq_served (h : QueueAt sq.wq sq.wqeWrId posted c) (hmax : sq.wq.maxWr < 2 ^ 16)
    (hs : Served (reqOut q) posted log c (⟨a - c, status⟩ :: todo) reported) {b : ℕ} (hcb : c ≤ b)
    (hba : b ≤ a) (ha : a ≤ posted.length) (st : IbWcStatus) (force : Bool)
    (hout : ∀ c' e, c ≤ c' → c' < b →
      (reqFill q st force e).toList = reqOut q status (decide (c' + 1 = a)) e) (n : ℕ) :
    let r := sq.processReq q n (b % 2 ^ 16) st force
    ∃ c', c ≤ c' ∧ c' ≤ b ∧ QueueAt r.1.wq r.1.wqeWrId posted c' ∧ r.1.wq.maxWr = sq.wq.maxWr ∧
      Served (reqOut q) posted log c' (⟨a - c', status⟩ :: todo) (reported ++ entries r.2) ∧
      (entries r.2).length ≤ n ∧ (c' = b ∨ (entries r.2).length = n) := by
  obtain ⟨c', hcc, hle, hq, hm, hserved, -, hcount, hall⟩ :=
    drain_served (completes_reqTurn q st force) (X := fun _ _ _ => True)
      (fun _ _ _ _ _ _ _ => trivial) hout h hmax hs hcb hba ha trivial n
  exact ⟨c', hcc, hle, hq, hm, hserved, hcount, hall⟩

theorem qedrPollCqReq_served (h : QueueAt sq.wq sq.wqeWrId posted c) (hmax : sq.wq.maxWr < 2 ^ 16)
    (hs : Served (reqOut q) posted log c (⟨a - c, status⟩ :: todo) reported) (hca : c ≤ a)
    (ha : a ≤ posted.length) (herr : status ≠ .ok → status ≠ .workRequestFlushedErr → c < a)
    (n : ℕ) : ReqServed q a c sq posted log todo status reported
      (sq.qedrPollCqReq q n (a % 2 ^ 16) status) := by
  by_cases hok : status = .ok
  · subst hok
    obtain ⟨c', hcc, hle, hq, hm, hserved, -, -⟩ := processReq_served h hmax hs hca le_rfl ha
      .success false (fun c' e _ _ => toList_reqFill q .success e) n
    exact ⟨c', hcc, hle, hq, hm, hserved⟩
  by_cases hflush : status = .workRequestFlushedErr
  · subst hflush
    obtain ⟨c', hcc, hle, hq, hm, hserved, -, -⟩ := processReq_served h hmax hs hca le_rfl ha
      .wrFlushErr true (fun c' e _ _ => toList_reqFill_forced q .wrFlushErr e) n
    exact ⟨c', hcc, hle, hq, hm, hserved⟩
  have hlt := herr hok hflush
  have hbefore : Word.sub 16 (a % 2 ^ 16) 1 = (a - 1) % 2 ^ 16 := by
    rw [Word.sub_mod_left, Word.sub_of_le (by omega)]
  have hfirst : ∀ c' e, c ≤ c' → c' < a - 1 →
      (reqFill q .success false e).toList = reqOut q status (decide (c' + 1 = a)) e := by
    intro c' e _ hc'
    have hnot : ¬(status ≠ .ok ∧ decide (c' + 1 = a) = true) := by
      rw [decide_eq_true_iff]
      omega
    rw [toList_reqFill, reqOut, if_neg hflush, if_neg hnot]
  have hlast : ∀ c' e, a - 1 ≤ c' → c' < a →
      (reqFill q status.wcStatus true e).toList = reqOut q status (decide (c' + 1 = a)) e := by
    intro c' e hle hc'
    have hyes : status ≠ .ok ∧ decide (c' + 1 = a) = true := ⟨hok, decide_eq_true_iff.2 (by omega)⟩
    rw [toList_reqFill_forced, reqOut, if_neg hflush, if_pos hyes]
  obtain ⟨c₁, hcc₁, hle₁, hq₁, hm₁, hs₁, -, hall₁⟩ := processReq_served h hmax hs
    (show c ≤ a - 1 by omega) (sub_le a 1) ha .success false hfirst n
  rw [qedrPollCqReq_error hok hflush, reqBefore, hbefore]
  split
  · next hmore =>
    obtain rfl : c₁ = a - 1 := hall₁.resolve_right hmore.ne
    obtain ⟨c₂, hcc₂, hle₂, hq₂, hm₂, hs₂, -, -⟩ := processReq_served hq₁ (by omega) hs₁
      (sub_le a 1) le_rfl ha status.wcStatus true hlast 1
    rw [append_assoc, ← entries_append] at hs₂
    exact ⟨c₂, hcc₁.trans hcc₂, hle₂, hq₂, hm₂.trans hm₁, hs₂⟩
  · exact ⟨c₁, hcc₁, hle₁.trans (sub_le a 1), hq₁, hm₁, hs₁⟩

end Loop

/-! ## The sends of a QP -/

/-- The shadow entry tells about the WR, on a queue that does or does not signal all WRs. -/
structure Sent.Faithful (sigAll : Bool) (x : Sent) : Prop where
  wrId : x.entry.wrId = x.wr.wrId
  opcode : x.entry.opcode = qedrIbToWcOpcode x.wr.opcode
  signaled : x.entry.signaled = (x.wr.signaled || sigAll)

/-- The sends of QP `q`: the CQEs with the notices `past` are consumed, and `k` sends under the
first of the notices `future` were gone through. -/
structure SendAt (q : ℕ) (sigAll : Bool) (sends : List Sent)
    (past future : List (Notice RdmaCqeReqSts)) (k : ℕ) (sq : Sq) (reported : List IbWc) :
    Prop where
  queue : QueueAt sq.wq sq.wqeWrId (sends.map entry) (spans past + k)
  room : sq.wq.maxWr ≠ 0 → sends.length < spans past + k + sq.wq.maxWr
  bare : sq.wq.maxWr = 0 → sends = []
  maxWr_lt : sq.wq.maxWr < 2 ^ 16
  progress : Midway (reqOut q) (sends.map entry) past future k reported
  signaled : sq.signaled = sigAll
  faithful : ∀ x ∈ sends, x.Faithful sigAll

namespace SendAt

variable {q k : ℕ} {sigAll : Bool} {sends : List Sent}
  {past future rest : List (Notice RdmaCqeReqSts)} {n : Notice RdmaCqeReqSts} {sq : Sq}
  {reported : List IbWc}

theorem start {dev : QedrDev} {attrs : QpInitAttr} (pbl : Chain) :
    SendAt q attrs.sigAllWr [] [] [] 0 (.fresh dev attrs pbl) [] where
  queue := .start _ _ _ _
  room hmax := (pos_of_ne_zero hmax).trans_eq (zero_add _).symm
  bare _ := rfl
  maxWr_lt := Nat.mod_lt _ (Nat.two_pow_pos 16)
  progress := .start
  signaled := rfl
  faithful := nofun

/-- A send is posted: the queue after it and the shadow entry that it has. -/
theorem post (h : SendAt q sigAll sends past future k sq reported) (wr : IbSendWr) :
    match (sq.qedrPostSend wr).rc with
    | .ok () =>
      SendAt q sigAll (sends ++ [⟨wr, (sq.qedrPostSend wr).sq.wqeWrId sq.wq.prod⟩]) past future k
        (sq.qedrPostSend wr).sq reported
    | .error _ => SendAt q sigAll sends past future k (sq.qedrPostSend wr).sq reported := by
  by_cases hadm : sq.Admits wr
  · have hfull : (sq.wq.prod + 1) % sq.wq.maxWr ≠ sq.wq.cons := by
      have hcan := hadm.2
      simp only [qedrCanPostSend, qedrWqIsFull, Bool.and_eq_true, Bool.not_eq_true',
        beq_eq_false_iff_ne] at hcan
      exact hcan.1.1
    have hroom := h.queue.room_of_not_full (by rw [length_map]; exact h.room hadm.1) hfull
    rw [length_map] at hroom
    have hfree : (sends.map entry).length < spans past + k + sq.wq.maxWr := by
      rw [length_map]
      omega
    rw [post_of_admits hadm]
    cases hbad : sq.malformed wr with
    | true =>
      exact { h with queue := (h.queue.scratch hfree _).congr rfl rfl rfl rfl }
    | false =>
      rw [if_neg (by decide)]
      have hentry : (sq.accept (sq.build wr) wr).wqeWrId sq.wq.prod =
          { sq.shadow (sq.build wr) wr with wrId := wr.wrId } := update_self ..
      rw [hentry]
      refine ⟨?_, fun _ => ?_, fun hzero => absurd hzero hadm.1, h.maxWr_lt, ?_, h.signaled,
        forall_mem_append.2 ⟨h.faithful, forall_mem_singleton.2 ?_⟩⟩
      · rw [map_append]
        exact (h.queue.post hfree _).congr rfl rfl rfl rfl
      · rw [length_append]
        exact hroom
      · rw [map_append]
        exact h.progress.post _
      · rw [← h.signaled]
        exact ⟨rfl, rfl, rfl⟩
  · obtain ⟨⟨e, he⟩, hsq, -⟩ := post_of_not_admits hadm
    rw [he, hsq]
    exact h

theorem notice (h : SendAt q sigAll sends past future k sq reported)
    (hn : spans (past ++ future) + n.span ≤ sends.length) :
    SendAt q sigAll sends past (future ++ [n]) k sq reported :=
  { h with progress := h.progress.notice (by rwa [length_map]) }

theorem turn (h : SendAt q sigAll sends past (n :: rest) k sq reported)
    (herr : n.status ≠ .ok → n.status ≠ .workRequestFlushedErr → 0 < n.span) (budget : ℕ)
    {r : Sq × List WrDone}
    (hr : sq.qedrPollCqReq q budget ((spans past + n.span) % 2 ^ 16) n.status = r) :
    (r.1.wq.wqeCons = (spans past + n.span) % 2 ^ 16 ∧
        SendAt q sigAll sends (past ++ [n]) rest 0 r.1 (reported ++ entries r.2)) ∨
      (r.1.wq.wqeCons ≠ (spans past + n.span) % 2 ^ 16 ∧
        ∃ k', SendAt q sigAll sends past (n :: rest) k' r.1 (reported ++ entries r.2)) := by
  have hle := h.progress.le_span
  have hwithin := h.progress.within
  have hlast : n.status ≠ .ok → n.status ≠ .workRequestFlushedErr →
      spans past + k < spans past + n.span := by
    intro hok hflush
    rcases h.progress.partway with rfl | ⟨m, hm, hlt⟩
    · exact Nat.add_lt_add_left (herr hok hflush) _
    · obtain rfl := Option.mem_some.1 hm
      exact Nat.add_lt_add_left hlt _
  obtain ⟨c, hcc, hca, hq, hm, hs⟩ := qedrPollCqReq_served h.queue h.maxWr_lt h.progress.current
    (Nat.add_le_add_left hle _) hwithin hlast budget
  rw [hr] at hq hm hs
  have hiff := hq.wqeCons_eq_iff (hm ▸ h.maxWr_lt) hca hwithin
  have hroom : r.1.wq.maxWr ≠ 0 → sends.length < c + r.1.wq.maxWr := by
    intro hmax
    have hroom := h.room (hm ▸ hmax)
    omega
  have hsig : r.1.signaled = sigAll := by
    rw [← hr, qedrPollCqReq_signaled]
    exact h.signaled
  have hbare : r.1.wq.maxWr = 0 → sends = [] := fun hzero => h.bare (hm ▸ hzero)
  rcases Midway.reached ((le_add_right _ k).trans hcc) hca hs with
    ⟨hend, hc, hmid⟩ | ⟨hend, k', hc, hmid⟩
  · rw [hc] at hq hroom
    exact .inl ⟨hiff.2 hend, hq, hroom, hbare, hm ▸ h.maxWr_lt, hmid, hsig, h.faithful⟩
  · rw [hc] at hq hroom
    exact .inr ⟨fun heq => hend (hiff.1 heq), k', hq, hroom, hbare, hm ▸ h.maxWr_lt, hmid, hsig,
      h.faithful⟩

end SendAt

/-! ## The system -/

/-- The entries that are about the sends of QP `q`. -/
def sendWcs (q : ℕ) (done : List WrDone) : List IbWc :=
  (entries done).filter fun wc => wc.qp == q && !wc.recv

theorem sendWcs_append (q : ℕ) (done done' : List WrDone) :
    sendWcs q (done ++ done') = sendWcs q done ++ sendWcs q done' := by
  unfold sendWcs
  rw [entries_append, filter_append]

theorem sendWcs_of_forall {q : ℕ} {done : List WrDone}
    (h : ∀ d ∈ done, ∀ wc ∈ d.wc, wc.qp = q ∧ wc.recv = false) : sendWcs q done = entries done := by
  refine filter_eq_self.2 fun wc hwc => ?_
  obtain ⟨d, hd, hsome⟩ := mem_filterMap.1 hwc
  obtain ⟨hqp, hrecv⟩ := h d hd wc hsome
  rw [hqp, hrecv, beq_self_eq_true]
  rfl

theorem sendWcs_eq_nil {q q' : ℕ} {done : List WrDone} {recv : Bool}
    (h : ∀ d ∈ done, ∀ wc ∈ d.wc, wc.qp = q' ∧ wc.recv = recv) (hne : q' ≠ q ∨ recv = true) :
    sendWcs q done = [] := by
  refine filter_eq_nil_iff.2 fun wc hwc => ?_
  obtain ⟨d, hd, hsome⟩ := mem_filterMap.1 hwc
  obtain ⟨hqp, hrecv⟩ := h d hd wc hsome
  rw [hqp, hrecv, Bool.and_eq_true, beq_iff_eq, Bool.not_eq_true']
  rintro ⟨heq, hfalse⟩
  exact hne.elim (fun hq => hq heq) fun htrue => absurd (htrue.symm.trans hfalse) (by decide)

theorem reqNotices_append (q : ℕ) (log log' : List CqeLog) :
    reqNotices q (log ++ log') = reqNotices q log ++ reqNotices q log' :=
  filterMap_append

theorem reqNotices_requester {e : CqeLog} {status : RdmaCqeReqSts} {sqCons : BitVec 16}
    (h : e.body = .requester status sqCons) : reqNotices e.qp [e] = [⟨e.span, status⟩] := by
  unfold reqNotices
  rw [filterMap_cons, h]
  dsimp only
  rw [if_pos rfl]
  rfl

theorem reqNotices_eq_nil {q : ℕ} {e : CqeLog} (h : e.qp ≠ q ∨ e.body.isRecv = true) :
    reqNotices q [e] = [] := by
  unfold reqNotices
  rw [filterMap_cons]
  cases hbody : e.body with
  | requester status sqCons =>
    have hne : e.qp ≠ q := h.resolve_right fun hrecv => by
      rw [hbody] at hrecv
      exact nomatch hrecv
    dsimp only
    rw [if_neg hne]
    rfl
  | responderRq resp => rfl
  | responderSrq resp => rfl
  | responderXrcSrq => rfl

/-- A CQE of the requester carries the number of sends that are completed with it. -/
def CqeLog.Numbered (log : List CqeLog) (e : CqeLog) : Prop :=
  ∀ status sqCons, e.body = .requester status sqCons →
    sqCons.toNat = (spans (reqNotices e.qp log) + e.span) % 2 ^ 16 ∧
      (status ≠ .ok → status ≠ .workRequestFlushedErr → 0 < e.span)

/-- Where the sends of all QPs stand, after `r` CQEs were consumed. -/
def SendsAt (sigAll : ℕ → Bool) (s : CqSys) (r : ℕ) (qps : ℕ → Qp) (done : List WrDone) : Prop :=
  ∀ q, ∃ k, SendAt q (sigAll q) (s.sends q) (reqNotices q (s.log.take r))
    (reqNotices q (s.log.drop r)) k (qps q).sq (sendWcs q done)

structure SendInv (base : ℕ → ℕ) (sigAll : ℕ → Bool) (s : CqSys) : Prop where
  cq : CqInv base s
  numbered : ∀ j (e : CqeLog), s.log[j]? = some e → e.Numbered (s.log.take j)
  sends : SendsAt sigAll s s.read s.qps s.done

section Turn

variable {sigAll : ℕ → Bool} {s : CqSys} {p : Poll} {e : CqeLog}

theorem SendsAt.account (h : SendsAt sigAll s (s.read + p.taken) p.qps (s.done ++ p.done))
    (he : s.log[s.read + p.taken]? = some e)
    (hnum : e.Numbered (s.log.take (s.read + p.taken))) :
    let p' := p.account e.qp (p.handle e.qp e.body)
    SendsAt sigAll s (s.read + p'.taken) p'.qps (s.done ++ p'.done) := by
  intro p' q
  obtain ⟨k, hk⟩ := h q
  by_cases hother : e.qp ≠ q ∨ e.body.isRecv = true
  · exact ⟨k, account_other (P := fun past future => SendAt q (sigAll q) (s.sends q) past future k)
      (reqNotices_append q) (sendWcs_append q) he (reqNotices_eq_nil hother)
      (sendWcs_eq_nil (p.handle_done e.qp e.body) hother)
      (fun hq => by
        subst hq
        exact p.handle_sq _ (hother.resolve_left fun hne => hne rfl)) hk⟩
  · rw [not_or, not_not] at hother
    obtain ⟨rfl, hreq⟩ := hother
    cases hbody : e.body with
    | requester status sqCons =>
      obtain ⟨-, hfuture⟩ := take_drop_succ (reqNotices_append e.qp) he
      rw [reqNotices_requester hbody] at hfuture
      obtain ⟨hcons, herr⟩ := hnum status sqCons hbody
      have hdone := (p.qps e.qp).sq.qedrPollCqReq_done e.qp p.numEntries sqCons.toNat status
      rw [hfuture] at hk
      have hturn := hk.turn herr p.numEntries rfl
      rw [← hcons, ← sendWcs_of_forall hdone] at hturn
      refine account_turn (P := SendAt e.qp (sigAll e.qp) (s.sends e.qp))
        (reqNotices_append _) (sendWcs_append _) he (reqNotices_requester hbody) ?_
      rw [hbody]
      refine hturn.imp (And.imp_left fun heq => ?_) (And.imp_left fun hne => ?_)
      · exact beq_iff_eq.2 heq.symm
      · exact beq_eq_false_iff_ne.2 hne.symm
    | _ =>
      rw [hbody] at hreq
      exact absurd rfl hreq

end Turn

namespace SendInv

variable {base : ℕ → ℕ} {sigAll : ℕ → Bool} {s : CqSys}

theorem start {cq : Cq} (hcq : CqAt base cq 0) {qps : ℕ → Qp} (hqps : ∀ q, (qps q).Created) :
    SendInv base (fun q => (qps q).sq.signaled) (.start cq qps) where
  cq := .start hcq hqps
  numbered := nofun
  sends q := by
    obtain ⟨env, dev, attrs, extPbl, hsq⟩ := (hqps q).sq
    obtain ⟨-, pbl, -, hfresh⟩ := createSq_ok hsq
    refine ⟨0, ?_⟩
    change SendAt q (qps q).sq.signaled [] [] [] 0 (qps q).sq []
    rw [hfresh]
    exact .start pbl

variable (h : SendInv base sigAll s)

include h

theorem postSend (q : ℕ) (wr : IbSendWr) : SendInv base sigAll (s.postSend q wr) where
  cq := h.cq.postSend q wr
  numbered := h.numbered
  sends q' := by
    obtain ⟨k, hk⟩ := h.sends q'
    refine ⟨k, ?_⟩
    unfold CqSys.postSend
    dsimp only
    rcases eq_or_ne q' q with rfl | hne
    · have hpost := hk.post wr
      rw [update_self]
      cases hrc : ((s.qps q').sq.qedrPostSend wr).rc with
      | error err =>
        rw [hrc] at hpost
        exact hpost
      | ok u =>
        rw [hrc] at hpost
        dsimp only
        rw [update_self]
        exact hpost
    · rw [update_of_ne hne]
      cases ((s.qps q).sq.qedrPostSend wr).rc with
      | error err => exact hk
      | ok u =>
        dsimp only
        rw [update_of_ne hne]
        exact hk

theorem postRecv (q : ℕ) (wr : IbRecvWr) : SendInv base sigAll (s.postRecv q wr) := by
  have hcq := h.cq.postRecv q wr
  unfold CqSys.postRecv at hcq ⊢
  dsimp only at hcq ⊢
  split at hcq
  · exact ⟨hcq, h.numbered, h.sends⟩
  · next r _ =>
    refine ⟨hcq, h.numbered, fun q' => ?_⟩
    obtain ⟨k, hk⟩ := h.sends q'
    refine ⟨k, ?_⟩
    have hsq := (forall_update_iff s.qps (b := { s.qps q with rq := r.1 }) fun q' qp =>
        qp.sq = (s.qps q').sq).2 ⟨rfl, fun _ _ => rfl⟩ q'
    dsimp only
    rw [hsq]
    exact hk

theorem write {e : CqeLog} (hcq : CqInv base (s.write base e)) (hnum : e.Numbered s.log)
    (hspan : ∀ status sqCons, e.body = .requester status sqCons →
      spans (reqNotices e.qp s.log) + e.span ≤ (s.sends e.qp).length) :
    SendInv base sigAll (s.write base e) where
  cq := hcq
  numbered := forall_concat (P := fun log e => e.Numbered log) h.numbered hnum
  sends q := by
    obtain ⟨k, hk⟩ := h.sends q
    refine ⟨k, ?_⟩
    change SendAt q (sigAll q) (s.sends q) (reqNotices q ((s.log ++ [e]).take s.read))
      (reqNotices q ((s.log ++ [e]).drop s.read)) k (s.qps q).sq (sendWcs q s.done)
    rw [take_append_of_le_length h.cq.ring.le, drop_append_of_le_length h.cq.ring.le,
      reqNotices_append q (s.log.drop s.read)]
    by_cases hother : e.qp ≠ q ∨ e.body.isRecv = true
    · rw [reqNotices_eq_nil hother, append_nil]
      exact hk
    · rw [not_or, not_not] at hother
      obtain ⟨rfl, hreq⟩ := hother
      cases hbody : e.body with
      | requester status sqCons =>
        rw [reqNotices_requester hbody]
        refine hk.notice ?_
        rw [← reqNotices_append, take_append_drop]
        exact hspan status sqCons hbody
      | _ =>
        rw [hbody] at hreq
        exact absurd rfl hreq

theorem poll (n : ℕ) : SendInv base sigAll (s.poll n) where
  cq := h.cq.poll n
  numbered := h.numbered
  sends := by
    refine (PollInv.run (I := fun p => SendsAt sigAll s (s.read + p.taken) p.qps (s.done ++ p.done))
      h.cq.ring n ?_ ?_ s.cq.pbl.capacity).2
    · intro q
      change ∃ k, SendAt q (sigAll q) (s.sends q) _ _ k (s.qps q).sq (sendWcs q (s.done ++ []))
      rw [append_nil]
      exact h.sends q
    · intro p e hp he _
      exact hp.account he (h.numbered _ e he)

theorem step {e : CqEvent} (he : s.DeviceOk e) : SendInv base sigAll (s.step base e) := by
  have hcq := h.cq.step he
  cases e with
  | postSend q wr => exact h.postSend q wr
  | postRecv q wr => exact h.postRecv q wr
  | reqCqe q status span =>
    refine h.write hcq (fun status' sqCons hbody => ?_) fun _ _ _ => he.2.1
    obtain ⟨rfl, rfl⟩ := CqeBody.requester.inj hbody
    exact ⟨BitVec.toNat_ofNat _ _, he.2.2⟩
  | respCqe q resp span => exact h.write hcq nofun nofun
  | srqCqe q resp => exact h.write hcq nofun nofun
  | poll n => exact h.poll n

end SendInv

end FastLinQ.Qedr
