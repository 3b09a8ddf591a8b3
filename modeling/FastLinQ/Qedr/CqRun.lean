import FastLinQ.Qedr.Poll

/-!
# A completion queue and its QPs

Clients post sends and receives on QPs that share a CQ, the device writes CQEs, and the CQ is polled
with arrays of any length. The history has what was posted, the CQEs with the number of requests
that each of them completes, the number of CQEs that were consumed, the requests that were gone
through, and the calls of `qedr_poll_cq`.

`DeviceOk` is what the device promises: it completes posted requests, an error is about a request, a
CQE of the responder that is not a flush is about one receive, and the ring is not overrun.
-/

namespace FastLinQ.Qedr

open Qed Completion Phase Function List Option Poll Nat

/-! ## The system -/

/-- A CQE that was written, and the number of requests that it completes. -/
structure CqeLog where
  qp : ℕ
  body : CqeBody
  span : ℕ

/-- An accepted send, with its shadow entry. -/
structure Sent where
  wr : IbSendWr
  entry : WqeWrId
  deriving DecidableEq, Repr

/-- An accepted receive, with its elements and its shadow entry. -/
structure Received where
  wr : IbRecvWr
  elems : List ℕ
  entry : RqeWrId
  deriving DecidableEq, Repr

/-- A call of `qedr_poll_cq`: the length of the array and what it was filled with. -/
structure PollCall where
  numEntries : ℕ
  wcs : List IbWc
  deriving DecidableEq, Repr

structure CqSys where
  cq : Cq
  mem : ℕ → Cqe
  qps : ℕ → Qp
  log : List CqeLog
  read : ℕ
  sends : ℕ → List Sent
  recvs : ℕ → List Received
  done : List WrDone
  calls : List PollCall

inductive CqEvent
  | postSend (q : ℕ) (wr : IbSendWr)
  | postRecv (q : ℕ) (wr : IbRecvWr)
  /-- A CQE of the requester that completes the next `span` sends. -/
  | reqCqe (q : ℕ) (status : RdmaCqeReqSts) (span : ℕ)
  /-- A CQE of the responder that completes the next `span` receives. -/
  | respCqe (q : ℕ) (resp : RdmaCqeResponder) (span : ℕ)
  /-- A CQE of the responder for a receive of a shared queue. -/
  | srqCqe (q : ℕ) (resp : RdmaCqeResponder)
  | poll (numEntries : ℕ)

/-- The notices about the sends of QP `q`. -/
def reqNotices (q : ℕ) (log : List CqeLog) : List (Notice RdmaCqeReqSts) :=
  log.filterMap fun e =>
    match e.body with
    | .requester status _ => if e.qp = q then some ⟨e.span, status⟩ else none
    | _ => none

/-- The notices about the receives of QP `q`. -/
def respNotices (q : ℕ) (log : List CqeLog) : List (Notice RdmaCqeResponder) :=
  log.filterMap fun e =>
    match e.body with
    | .responderRq resp => if e.qp = q then some ⟨e.span, resp⟩ else none
    | _ => none

namespace CqSys

/-- The system after the CQ and the QPs were created, with the ring in zeroed memory. -/
def start (cq : Cq) (qps : ℕ → Qp) : CqSys where
  cq := cq
  mem := fun _ => ⟨false, none, .requester .ok 0⟩
  qps := qps
  log := []
  read := 0
  sends := fun _ => []
  recvs := fun _ => []
  done := []
  calls := []

def write (base : ℕ → ℕ) (s : CqSys) (e : CqeLog) : CqSys :=
  { s with
    mem := update s.mem (s.cq.pbl.elemAddr base s.log.length)
      ⟨phase s.cq.pbl.capacity (s.log.length + s.cq.pbl.capacity), some e.qp, e.body⟩
    log := s.log ++ [e] }

def postSend (s : CqSys) (q : ℕ) (wr : IbSendWr) : CqSys :=
  let sq := (s.qps q).sq
  let r := sq.qedrPostSend wr
  { s with
    qps := update s.qps q { s.qps q with sq := r.sq }
    sends :=
      match r.rc with
      | .ok () => update s.sends q (s.sends q ++ [⟨wr, r.sq.wqeWrId sq.wq.prod⟩])
      | .error _ => s.sends }

/-- A receive is posted; a QP with a shared queue has no RQ. -/
def postRecv (s : CqSys) (q : ℕ) (wr : IbRecvWr) : CqSys :=
  let rq := (s.qps q).rq
  match if (s.qps q).srq then none else rq.qedrPostRecv wr with
  | none => s
  | some r =>
    { s with
      qps := update s.qps q { s.qps q with rq := r.1 }
      recvs := update s.recvs q
        (s.recvs q ++ [⟨wr, r.2, r.1.rqeWrId rq.wq.prod⟩]) }

/-- The CQ is polled. The loop makes no more turns than the ring has elements. -/
def poll (s : CqSys) (numEntries : ℕ) : CqSys :=
  let p := (Poll.start numEntries s.cq s.qps).run s.mem s.cq.pbl.capacity
  { s with
    cq := p.cq
    qps := p.qps
    read := s.read + p.taken
    done := s.done ++ p.done
    calls := s.calls ++ [⟨numEntries, p.wcs⟩] }

def step (base : ℕ → ℕ) (s : CqSys) : CqEvent → CqSys
  | .postSend q wr => s.postSend q wr
  | .postRecv q wr => s.postRecv q wr
  | .reqCqe q status span => s.write base
    ⟨q, .requester status (BitVec.ofNat 16 (spans (reqNotices q s.log) + span)), span⟩
  | .respCqe q resp span => s.write base
    ⟨q, .responderRq { resp with
      rqConsOrSrqId := BitVec.ofNat 16 (spans (respNotices q s.log) + span) }, span⟩
  | .srqCqe q resp => s.write base ⟨q, .responderSrq resp, 1⟩
  | .poll numEntries => s.poll numEntries

def DeviceOk (s : CqSys) : CqEvent → Prop
  | .reqCqe q status span => s.log.length < s.read + s.cq.pbl.capacity ∧
    spans (reqNotices q s.log) + span ≤ (s.sends q).length ∧
    (status ≠ .ok → status ≠ .workRequestFlushedErr → 0 < span)
  | .respCqe q resp span => s.log.length < s.read + s.cq.pbl.capacity ∧
    (s.qps q).srq = false ∧ spans (respNotices q s.log) + span ≤ (s.recvs q).length ∧
    (resp.status ≠ .workRequestFlushedErr → span = 1)
  | .srqCqe q _ => s.log.length < s.read + s.cq.pbl.capacity ∧ (s.qps q).srq = true
  | _ => True

instance decidableDeviceOk (s : CqSys) (e : CqEvent) : Decidable (s.DeviceOk e) := by
  unfold DeviceOk
  cases e <;> infer_instance

end CqSys

/-! ## The ring -/

def cqeAt (n : ℕ) (log : List CqeLog) (j : ℕ) : Cqe :=
  match log[j]? with
  | some e => ⟨phase n (j + n), some e.qp, e.body⟩
  | none => ⟨false, none, .requester .ok 0⟩

def CqeLog.found (e : CqeLog) : ℕ × CqeBody := (e.qp, e.body)

structure RingInv (base : ℕ → ℕ) (s : CqSys) : Prop where
  cqAt : CqAt base s.cq s.read
  le : s.read ≤ s.log.length
  room : s.log.length ≤ s.read + s.cq.pbl.capacity
  phased : Phased (s.cq.pbl.elemAddr base) s.cq.pbl.capacity Cqe.toggle s.mem
    (cqeAt s.cq.pbl.capacity s.log) s.log.length

namespace RingInv

variable {base : ℕ → ℕ} {s : CqSys}

theorem start {cq : Cq} (h : CqAt base cq 0) (qps : ℕ → Qp) : RingInv base (.start cq qps) where
  cqAt := h
  le := le_rfl
  room := zero_le _
  phased := by
    refine ⟨fun k _ hk => ?_, nofun⟩
    change false = decide (k / cq.pbl.capacity % 2 = 1)
    have hlt : k < cq.pbl.capacity := by
      rw [← zero_add cq.pbl.capacity]
      exact hk
    rw [div_eq_of_lt hlt]
    rfl

variable (h : RingInv base s)

include h

theorem write (hroom : s.log.length < s.read + s.cq.pbl.capacity) (e : CqeLog) :
    RingInv base (s.write base e) := by
  have hlen : (s.log ++ [e]).length = s.log.length + 1 := length_append
  refine ⟨h.cqAt, ?_, ?_, ?_⟩
  · change s.read ≤ (s.log ++ [e]).length
    rw [hlen]
    exact h.le.trans (le_succ _)
  · change (s.log ++ [e]).length ≤ _
    rw [hlen]
    exact hroom
  · have hnew : cqeAt s.cq.pbl.capacity (s.log ++ [e]) s.log.length =
        ⟨phase s.cq.pbl.capacity (s.log.length + s.cq.pbl.capacity), some e.qp, e.body⟩ := by
      unfold cqeAt
      rw [getElem?_append_right le_rfl, Nat.sub_self]
      rfl
    have hold : Phased (s.cq.pbl.elemAddr base) s.cq.pbl.capacity Cqe.toggle s.mem
        (cqeAt s.cq.pbl.capacity (s.log ++ [e])) s.log.length := by
      refine ⟨h.phased.bits, fun j hj hle => ?_⟩
      rw [h.phased.items j hj hle, cqeAt, cqeAt, getElem?_append_left hj]
    have hwrite := hold.write h.cqAt.ring.apart h.cqAt.ring.elemAddr_add (by rw [hnew])
    rw [hnew, ← hlen] at hwrite
    exact hwrite

/-- The driver finds the CQEs that were not consumed. -/
theorem pending : Pending s.mem s.cq ((s.log.drop s.read).map CqeLog.found) := by
  have hround := h.cqAt.ring.elemAddr_add
  have hpos := h.cqAt.capacity_pos
  have hwalk : ∀ n r (d : Cq), d.pbl.toChainInfo = s.cq.pbl.toChainInfo → CqAt base d r →
      s.read ≤ r → r + n = s.log.length →
      Pending s.mem d ((s.log.drop r).map CqeLog.found) := by
    intro n
    induction n with
    | zero =>
      intro r d hd hat hr hn
      have hfresh := h.phased.fresh_iff hround hpos (r := r) (by omega) (by omega)
      rw [drop_eq_nil_of_le (by omega)]
      refine .inl ?_
      rw [Cq.isValidCqe, beq_eq_false_iff_ne, hat.latest, hat.toggle, hd]
      exact fun heq => absurd (hfresh.1 heq) (by omega)
    | succ n ih =>
      intro r d hd hat hr hn
      have hroom := h.room
      have hlt : r < s.log.length := by omega
      rw [drop_eq_getElem_cons hlt]
      refine ⟨?_, ih (r + 1) d.consumeCqe hd hat.consume (by omega) (by omega)⟩
      rw [hat.latest, hat.toggle, hd, h.phased.items r hlt (by omega), cqeAt,
        getElem?_eq_getElem hlt]
      rfl
  exact hwalk (s.log.length - s.read) s.read s.cq rfl h.cqAt le_rfl (Nat.add_sub_cancel' h.le)

end RingInv

/-! ## A poll in progress -/

/-- A call of `qedr_poll_cq` that has consumed `p.taken` CQEs. -/
structure PollInv (base : ℕ → ℕ) (s : CqSys) (p : Poll) : Prop where
  cqAt : CqAt base p.cq (s.read + p.taken)
  info : p.cq.pbl.toChainInfo = s.cq.pbl.toChainInfo
  le : s.read + p.taken ≤ s.log.length
  pending : Pending s.mem p.cq ((s.log.drop (s.read + p.taken)).map CqeLog.found)

namespace PollInv

variable {base : ℕ → ℕ} {s : CqSys} {p : Poll}

theorem start (h : RingInv base s) (n : ℕ) : PollInv base s (.start n s.cq s.qps) :=
  ⟨h.cqAt, rfl, h.le, h.pending⟩

/-- The first CQE that was not consumed is consumed, or it is left where it is. -/
theorem account (h : PollInv base s p) (hlt : s.read + p.taken < s.log.length) (q : ℕ)
    (r : Handled) : PollInv base s (p.account q r) := by
  have hpending := h.pending
  rw [drop_eq_getElem_cons hlt] at hpending
  unfold Poll.account
  cases r.consumed with
  | true => exact ⟨h.cqAt.consume, h.info, hlt, hpending.2⟩
  | false => exact { h with }

/-- A turn is about the first CQE that was not consumed. -/
theorem turn (h : PollInv base s p) (hend : ¬p.Ended s.mem) :
    ∃ e, s.log[s.read + p.taken]? = some e ∧ 0 < p.numEntries ∧
      p.turn s.mem = p.account e.qp (p.handle e.qp e.body) ∧ PollInv base s (p.turn s.mem) := by
  have hpending := h.pending
  have hlt : s.read + p.taken < s.log.length := by
    rcases h.le.lt_or_eq with hlt | heq
    · exact hlt
    · rw [heq, drop_length] at hpending
      exact absurd (hpending.elim (.inr ∘ .inl) (.inr ∘ .inr ∘ .inl)) hend
  rw [drop_eq_getElem_cons hlt] at hpending
  have hturn := turn_eq hpending.1
  refine ⟨s.log[s.read + p.taken], getElem?_eq_getElem hlt,
    pos_of_ne_zero fun hzero => hend (.inl hzero), hturn, ?_⟩
  rw [hturn]
  exact h.account hlt _ _

/-- **A whole call**: what its turns keep. -/
theorem run {I : Poll → Prop} (h : RingInv base s) (n : ℕ) (hstart : I (.start n s.cq s.qps))
    (hturn : ∀ p e, I p → s.log[s.read + p.taken]? = some e → 0 < p.numEntries →
      I (p.account e.qp (p.handle e.qp e.body))) (t : ℕ) :
    let p := (Poll.start n s.cq s.qps).run s.mem t
    PollInv base s p ∧ I p := by
  refine Loop.invariant (P := fun p => PollInv base s p ∧ I p) ⟨.start h n, hstart⟩ ?_ t
  rintro p - ⟨hp, hI⟩ hend
  obtain ⟨e, he, hpos, heq, hinv⟩ := hp.turn hend
  refine ⟨hinv, ?_⟩
  rw [heq]
  exact hturn _ e hI he hpos

theorem ringInv (h : PollInv base s p) (hring : RingInv base s) (qps : ℕ → Qp) (done : List WrDone)
    (calls : List PollCall) : RingInv base { s with
      cq := p.cq, qps := qps, read := s.read + p.taken, done := done, calls := calls } where
  cqAt := h.cqAt
  le := h.le
  room := by
    have hroom := hring.room
    rw [h.info]
    exact hroom.trans (by dsimp only; omega)
  phased := by
    rw [h.info]
    exact hring.phased

end PollInv

/-- The call returns if the driver can deal with the CQEs: it fills no more than the array, and if
it does not fill the array then no CQE is left. -/
theorem CqSys.poll_returns {base : ℕ → ℕ} {s : CqSys} (h : RingInv base s)
    (hw : ∀ q, (s.qps q).Words)
    (hh : ∀ e ∈ s.log.drop s.read, e.body.Harmless (s.qps e.qp)) (n : ℕ) :
    (Poll.start n s.cq s.qps).Returns s.mem s.cq.pbl.capacity ∧
      ((Poll.start n s.cq s.qps).run s.mem s.cq.pbl.capacity).wcs.length ≤ n := by
  have hharmless : ∀ x ∈ (s.log.drop s.read).map CqeLog.found, x.2.Harmless (s.qps x.1) := by
    intro x hx
    obtain ⟨e, he, rfl⟩ := mem_map.1 hx
    exact hh e he
  obtain ⟨t, hle, hret, hlen⟩ := returns_of_harmless (p := .start n s.cq s.qps) h.pending hw
    rfl hharmless
  rw [length_map, length_drop] at hle
  have hroom := h.room
  have hrun : (Poll.start n s.cq s.qps).run s.mem s.cq.pbl.capacity =
      (Poll.start n s.cq s.qps).run s.mem t := Loop.run_of_fin hret.1 (by omega)
  unfold Returns
  rw [hrun]
  exact ⟨hret, hlen.trans_eq (zero_add n)⟩

/-! ## Every call returns -/

/-- The QP after `qedr_create_qp` for a kernel client. A QP with a shared queue has no RQ, only
zeroed memory for it. -/
structure Qp.Created (qp : Qp) : Prop where
  sq : ∃ env dev attrs extPbl, qedrCreateSq env dev attrs extPbl = .ok qp.sq
  rq : qp.srq = false → ∃ env dev attrs extPbl, qedrCreateRq env dev attrs extPbl = .ok qp.rq
  noRq : qp.srq = true → qp.rq.wq.wqeCons = 0

theorem createRq_ok {env : DmaEnv} {dev : QedrDev} {attrs : QpInitAttr} {extPbl : Option DmaBlock}
    {rq : Rq} (h : qedrCreateRq env dev attrs extPbl = .ok rq) :
    qedrCheckQpAttrs dev attrs = true ∧
      ∃ pbl, qedChainAlloc env (rqChainParams attrs extPbl) = .ok pbl ∧ rq = .fresh attrs pbl := by
  unfold qedrCreateRq at h
  split at h
  · next hcheck => exact ⟨hcheck, exists_of_map_ok h⟩
  · exact nomatch h

theorem QpInitAttr.rqMaxWr_pos {dev : QedrDev} {attrs : QpInitAttr}
    (h : qedrCheckQpAttrs dev attrs = true) : 0 < attrs.rqMaxWr ∧ attrs.rqMaxWr < 2 ^ 15 := by
  simp only [qedrCheckQpAttrs, Bool.and_eq_true, decide_eq_true_eq] at h
  have hle : attrs.maxRecvWr ≤ 0x7FFF := h.1.1.2.trans (min_le_left _ _)
  unfold rqMaxWr
  omega

theorem Qp.Alike.trans {qp₁ qp₂ qp₃ : Qp} (h : qp₁.Alike qp₂) (h' : qp₂.Alike qp₃) :
    qp₁.Alike qp₃ where
  sqMaxWr := h'.sqMaxWr.trans h.sqMaxWr
  rqMaxWr := h'.rqMaxWr.trans h.rqMaxWr
  sqCons hmax := (h'.sqCons (h.sqMaxWr.trans hmax)).trans (h.sqCons hmax)
  rqCons hmax := (h'.rqCons (h.rqMaxWr.trans hmax)).trans (h.rqCons hmax)
  srq := h'.srq.trans h.srq

/-- The queues of a new QP are empty. -/
theorem Qp.Created.sqCons {qp : Qp} (h : qp.Created) : qp.sq.wq.wqeCons = 0 := by
  obtain ⟨env, dev, attrs, extPbl, hsq⟩ := h.sq
  obtain ⟨-, pbl, -, hfresh⟩ := createSq_ok hsq
  rw [hfresh]
  rfl

theorem Qp.Created.rqFresh {qp : Qp} (h : qp.Created) (hsrq : qp.srq = false) :
    qp.rq.wq.wqeCons = 0 ∧ qp.rq.wq.maxWr ≠ 0 := by
  obtain ⟨env, dev, attrs, extPbl, hrq⟩ := h.rq hsrq
  obtain ⟨hcheck, pbl, -, hfresh⟩ := createRq_ok hrq
  rw [hfresh]
  exact ⟨rfl, (QpInitAttr.rqMaxWr_pos hcheck).1.ne'⟩

/-- The same as far as the invariant is concerned. -/
def Qp.Kept (qp qp' : Qp) : Prop := qp'.Words ∧ qp.Alike qp'

def CqeBody.isRecv : CqeBody → Bool
  | .requester _ _ => false
  | _ => true

theorem Sq.qedrPollCqReq_done (sq : Sq) (q n hw : ℕ) (status : RdmaCqeReqSts) :
    ∀ d ∈ (sq.qedrPollCqReq q n hw status).2, ∀ wc ∈ d.wc, wc.qp = q ∧ wc.recv = false := by
  have hreq : ∀ (sq : Sq) n hw st force, ∀ d ∈ (sq.processReq q n hw st force).2, ∀ wc ∈ d.wc,
      wc.qp = q ∧ wc.recv = false := by
    intro sq n hw st force
    refine drain_forall (fun s wc hwc => ?_) _ _ _
    change wc ∈ (if _ then none else some (reqWc q st _)) at hwc
    split at hwc
    · exact nomatch hwc
    · obtain rfl := mem_some.1 hwc
      exact ⟨rfl, rfl⟩
  have hbefore : ∀ d ∈ (sq.reqBefore q n hw).2, ∀ wc ∈ d.wc, wc.qp = q ∧ wc.recv = false := by
    exact hreq sq n _ .success false
  refine qedrPollCqReq_induction (C := fun r => ∀ d ∈ r.2, ∀ wc ∈ d.wc, wc.qp = q ∧ wc.recv = false)
    status (hreq sq n hw) ?_ fun _ => hbefore
  intro x r st hx hr _ d hd
  rcases mem_append.1 hd with hd | hd
  · exact hbefore d (hx ▸ hd)
  · exact hreq x.1 1 hw st true d (hr ▸ hd)

theorem Rq.processRespFlush_done (rq : Rq) (q n hw : ℕ) :
    ∀ d ∈ (rq.processRespFlush q n hw).2, ∃ wc, d.wc = some wc ∧ wc.qp = q ∧ wc.recv = true :=
  drain_forall (fun _ => ⟨_, rfl, rfl, rfl⟩) _ _ _

/-- The entries that a turn fills are about the QP of the CQE. -/
theorem Poll.handle_done (p : Poll) (q : ℕ) (body : CqeBody) :
    ∀ d ∈ (p.handle q body).done, ∀ wc ∈ d.wc, wc.qp = q ∧ wc.recv = body.isRecv := by
  cases body with
  | requester status sqCons => exact Sq.qedrPollCqReq_done _ _ _ _ status
  | responderRq resp =>
    unfold handle
    dsimp only
    split
    · intro d hd wc hwc
      obtain ⟨wc', hsome, hwc'⟩ := Rq.processRespFlush_done _ _ _ _ d hd
      obtain rfl := mem_unique hsome hwc
      exact hwc'
    · intro d hd wc hwc
      rw [mem_singleton.1 hd] at hwc
      obtain rfl := mem_some.1 hwc
      exact ⟨rfl, rfl⟩
  | responderSrq resp =>
    intro d hd wc hwc
    rw [mem_singleton.1 hd] at hwc
    obtain rfl := mem_some.1 hwc
    refine ⟨?_, ?_⟩
    all_goals
      split <;> rfl
  | responderXrcSrq => exact nofun

/-- A CQE that is about receives leaves the SQ alone. -/
theorem Poll.handle_sq (p : Poll) (q : ℕ) {body : CqeBody} (h : body.isRecv = true) :
    (p.handle q body).qp.sq = (p.qps q).sq := by
  cases body with
  | requester status sqCons => exact nomatch h
  | responderRq resp =>
    unfold handle
    dsimp only
    split <;> rfl
  | responderSrq resp => rfl
  | responderXrcSrq => rfl

/-- A CQE that is about sends leaves the RQ alone. -/
theorem Poll.handle_rq (p : Poll) (q : ℕ) {body : CqeBody} (h : body.isRecv = false) :
    (p.handle q body).qp.rq = (p.qps q).rq := by
  cases body with
  | requester status sqCons => rfl
  | _ => exact nomatch h

section Log

variable {N : Type*} {f : List CqeLog → List N} {log : List CqeLog} {r : ℕ} {e : CqeLog}

/-- What some of the CQEs have to do with something, before and after one of them. -/
theorem take_drop_succ (hf : ∀ l l', f (l ++ l') = f l ++ f l') (he : log[r]? = some e) :
    f (log.take (r + 1)) = f (log.take r) ++ f [e] ∧
      f (log.drop r) = f [e] ++ f (log.drop (r + 1)) := by
  obtain ⟨hlt, rfl⟩ := List.getElem?_eq_some_iff.1 he
  refine ⟨?_, ?_⟩
  · rw [take_succ_eq_append_getElem hlt, hf]
  · rw [drop_eq_getElem_cons hlt, ← hf]
    rfl

section Turn

variable {D Q : Type*} {g : List WrDone → List D} {w : Qp → Q} {done : List WrDone} {p : Poll}
  {x : Handled} (hf : ∀ l l', f (l ++ l') = f l ++ f l') (hg : ∀ l l', g (l ++ l') = g l ++ g l')
  (he : log[r + p.taken]? = some e)

include hf hg he

/-- A turn for a CQE that is about the WRs in question: it is consumed, or some of them are left. -/
theorem account_turn {P : List N → List N → ℕ → Q → List D → Prop} {n : N} (hone : f [e] = [n])
    (h : (x.consumed = true ∧
      P (f (log.take (r + p.taken)) ++ [n]) (f (log.drop (r + p.taken + 1))) 0
        (w x.qp) (g (done ++ p.done) ++ g x.done)) ∨
      x.consumed = false ∧
        ∃ k, P (f (log.take (r + p.taken))) (n :: f (log.drop (r + p.taken + 1))) k
        (w x.qp) (g (done ++ p.done) ++ g x.done)) :
    let p' := p.account e.qp x
    ∃ k, P (f (log.take (r + p'.taken))) (f (log.drop (r + p'.taken))) k (w (p'.qps e.qp))
      (g (done ++ p'.done)) := by
  obtain ⟨htake, hdrop⟩ := take_drop_succ hf he
  rw [hone] at htake hdrop
  unfold account
  dsimp only
  rw [update_self, ← append_assoc, hg]
  rcases h with ⟨hc, h⟩ | ⟨hc, k, h⟩
  · rw [hc, if_pos rfl, ← add_assoc, htake]
    exact ⟨0, h⟩
  · rw [hc, if_neg nofun, hdrop]
    exact ⟨k, h⟩

theorem account_other {P : List N → List N → Q → List D → Prop} {q : ℕ} (hnil : f [e] = [])
    (hx : g x.done = []) (hq : q = e.qp → w x.qp = w (p.qps q))
    (h : P (f (log.take (r + p.taken))) (f (log.drop (r + p.taken))) (w (p.qps q))
      (g (done ++ p.done))) :
    let p' := p.account e.qp x
    P (f (log.take (r + p'.taken))) (f (log.drop (r + p'.taken))) (w (p'.qps q))
      (g (done ++ p'.done)) := by
  obtain ⟨htake, hdrop⟩ := take_drop_succ hf he
  rw [hnil, append_nil] at htake
  rw [hnil, nil_append] at hdrop
  have hqueue : w (update p.qps e.qp x.qp q) = w (p.qps q) := by
    rcases eq_or_ne q e.qp with heq | hne
    · rw [heq, update_self, hq heq, heq]
    · rw [update_of_ne hne]
  unfold account
  dsimp only
  rw [hqueue, ← append_assoc, hg, hx, append_nil]
  split
  · rwa [← add_assoc, htake, ← hdrop]
  · exact h

end Turn

/-- What holds of every CQE and those before it, when a CQE is written. -/
theorem forall_concat {P : List CqeLog → CqeLog → Prop}
    (h : ∀ j e, log[j]? = some e → P (log.take j) e) (he : P log e) (j : ℕ) (e' : CqeLog)
    (he' : (log ++ [e])[j]? = some e') : P ((log ++ [e]).take j) e' := by
  rcases lt_or_ge j log.length with hlt | hge
  · rw [getElem?_append_left hlt] at he'
    rw [take_append_of_le_length hlt.le]
    exact h j e' he'
  · obtain ⟨hlt, rfl⟩ := List.getElem?_eq_some_iff.1 he'
    have hj : j = log.length := by
      rw [length_append, length_singleton] at hlt
      omega
    rw [getElem_concat_length hj, hj, take_left]
    exact he

end Log

/-- The driver can deal with the CQEs that were not consumed. -/
structure CqInv (base : ℕ → ℕ) (s : CqSys) : Prop where
  ring : RingInv base s
  words : ∀ q, (s.qps q).Words
  harmless : ∀ e ∈ s.log.drop s.read, e.body.Harmless (s.qps e.qp)
  noSends : ∀ q, (s.qps q).sq.wq.maxWr = 0 → s.sends q = [] ∧ (s.qps q).sq.wq.wqeCons = 0
  hasRq : ∀ q, (s.qps q).srq = false → (s.qps q).rq.wq.maxWr ≠ 0
  calls : ∀ c ∈ s.calls, c.wcs.length ≤ c.numEntries
  returned : (s.calls.map PollCall.wcs).flatten = entries s.done

namespace CqInv

variable {base : ℕ → ℕ} {s : CqSys}

theorem start {cq : Cq} (hcq : CqAt base cq 0) {qps : ℕ → Qp} (hqps : ∀ q, (qps q).Created) :
    CqInv base (.start cq qps) where
  ring := .start hcq qps
  words q := by
    have hrq : (qps q).rq.wq.wqeCons = 0 := by
      cases hsrq : (qps q).srq with
      | true => exact (hqps q).noRq hsrq
      | false => exact ((hqps q).rqFresh hsrq).1
    exact ⟨(hqps q).sqCons.trans_lt (Nat.two_pow_pos 16), hrq.trans_lt (Nat.two_pow_pos 16)⟩
  harmless := nofun
  noSends q _ := ⟨rfl, (hqps q).sqCons⟩
  hasRq q hsrq := ((hqps q).rqFresh hsrq).2
  calls := nofun
  returned := rfl

variable (h : CqInv base s)

include h

/-- Each QP is as before, as far as the invariant is concerned. -/
theorem replaced {qps : ℕ → Qp} {sends : ℕ → List Sent} (recvs : ℕ → List Received)
    (hqps : ∀ q, (s.qps q).Kept (qps q))
    (hsends : ∀ q', (s.qps q').sq.wq.maxWr = 0 → sends q' = s.sends q') :
    CqInv base { s with qps := qps, sends := sends, recvs := recvs } where
  ring := { h.ring with }
  words q := (hqps q).1
  harmless e he := ((hqps e.qp).2.harmless_iff _).2 (h.harmless e he)
  noSends q hmax := by
    rw [(hqps q).2.sqMaxWr] at hmax
    dsimp only
    rw [hsends q hmax, (hqps q).2.sqCons hmax]
    exact h.noSends q hmax
  hasRq q hsrq := by
    rw [(hqps q).2.srq] at hsrq
    rw [(hqps q).2.rqMaxWr]
    exact h.hasRq q hsrq
  calls := h.calls
  returned := h.returned

theorem posted (q : ℕ) (qp : Qp) (halike : (s.qps q).Alike qp) (hw : qp.Words)
    {sends : ℕ → List Sent} (recvs : ℕ → List Received)
    (hsends : ∀ q', (s.qps q').sq.wq.maxWr = 0 → sends q' = s.sends q') :
    CqInv base { s with qps := update s.qps q qp, sends := sends, recvs := recvs } :=
  h.replaced recvs ((forall_update_iff s.qps fun q => (s.qps q).Kept).2
    ⟨⟨hw, halike⟩, fun q' _ => ⟨h.words q', .refl _⟩⟩) hsends

theorem postSend (q : ℕ) (wr : IbSendWr) : CqInv base (s.postSend q wr) := by
  have hpost : ((s.qps q).sq.qedrPostSend wr).sq.wq.maxWr = (s.qps q).sq.wq.maxWr ∧
      ((s.qps q).sq.qedrPostSend wr).sq.wq.wqeCons = (s.qps q).sq.wq.wqeCons := by
    by_cases hadm : (s.qps q).sq.Admits wr
    · rw [Sq.post_of_admits hadm]
      split <;> exact ⟨rfl, rfl⟩
    · obtain ⟨-, hsq, -⟩ := Sq.post_of_not_admits hadm
      rw [hsq]
      exact ⟨rfl, rfl⟩
  have hsends : ∀ q', (s.qps q').sq.wq.maxWr = 0 → (s.postSend q wr).sends q' = s.sends q' := by
    intro q' hmax
    unfold CqSys.postSend
    dsimp only
    cases hrc : ((s.qps q).sq.qedrPostSend wr).rc with
    | error e => rfl
    | ok u =>
      rcases eq_or_ne q' q with rfl | hne
      · have hadm : ¬(s.qps q').sq.Admits wr := fun hadm => hadm.1 hmax
        obtain ⟨⟨e, he⟩, -⟩ := Sq.post_of_not_admits hadm
        rw [hrc] at he
        exact nomatch he
      · exact update_of_ne hne _ _
  refine h.posted q { s.qps q with sq := ((s.qps q).sq.qedrPostSend wr).sq }
    ⟨hpost.1, rfl, fun _ => hpost.2, fun _ => rfl, rfl⟩ ⟨?_, (h.words q).2⟩ s.recvs hsends
  exact hpost.2.trans_lt (h.words q).1

theorem postRecv (q : ℕ) (wr : IbRecvWr) : CqInv base (s.postRecv q wr) := by
  unfold CqSys.postRecv Rq.qedrPostRecv
  dsimp only
  by_cases hsrq : (s.qps q).srq = true
  · rw [if_pos hsrq]
    exact h
  rw [if_neg hsrq]
  by_cases hadm : (s.qps q).rq.Admits wr
  · rw [if_pos hadm]
    exact h.posted q { s.qps q with rq := (s.qps q).rq.accept wr }
      ⟨rfl, rfl, fun _ => rfl, fun _ => rfl, rfl⟩ (h.words q) _ fun _ _ => rfl
  · rw [if_neg hadm]
    exact h

theorem write (hroom : s.log.length < s.read + s.cq.pbl.capacity) {e : CqeLog}
    (he : e.body.Harmless (s.qps e.qp)) : CqInv base (s.write base e) := by
  refine { h with ring := h.ring.write hroom e, harmless := ?_ }
  change ∀ e' ∈ (s.log ++ [e]).drop s.read, _
  rw [drop_append_of_le_length h.ring.le]
  exact forall_mem_append.2 ⟨h.harmless, forall_mem_singleton.2 he⟩

/-- The QPs in a call, and what is left of the array. -/
theorem polled (n t : ℕ) :
    let p := (Poll.start n s.cq s.qps).run s.mem t
    PollInv base s p ∧ (∀ q, (s.qps q).Kept (p.qps q)) ∧ p.wcs.length + p.numEntries = n := by
  refine PollInv.run (I := fun p => (∀ q, (s.qps q).Kept (p.qps q)) ∧
    p.wcs.length + p.numEntries = n) h.ring n
    ⟨fun q => ⟨h.words q, .refl _⟩, zero_add n⟩ ?_ t
  rintro p e ⟨hp, hsum⟩ he hn
  have hmem : e ∈ s.log.drop s.read := by
    rw [mem_iff_getElem?]
    exact ⟨p.taken, by rw [getElem?_drop, he]⟩
  have hfine := handle_fine (hp e.qp).1 hn
    (((hp e.qp).2.harmless_iff _).2 (h.harmless e hmem))
  refine ⟨fun q => ?_, ?_⟩
  · exact (forall_update_iff p.qps fun q => (s.qps q).Kept).2 ⟨⟨hfine.words,
      (hp e.qp).2.trans hfine.alike⟩, fun q _ => hp q⟩ q
  · have hcount := hfine.count
    change (entries (p.done ++ _)).length + (p.numEntries - _) = n
    change (entries p.done).length + _ = n at hsum
    rw [entries_append, length_append]
    omega

/-- **A call returns**, fills no more than the array, and leaves no CQE if it does not fill it. -/
theorem returns (n : ℕ) :
    let p := (Poll.start n s.cq s.qps).run s.mem s.cq.pbl.capacity
    (Poll.start n s.cq s.qps).Returns s.mem s.cq.pbl.capacity ∧ p.wcs.length ≤ n ∧
      (p.wcs.length < n → s.read + p.taken = s.log.length) := by
  obtain ⟨hret, hle⟩ := CqSys.poll_returns h.ring h.words h.harmless n
  obtain ⟨hinv, -, hsum⟩ := h.polled n s.cq.pbl.capacity
  refine ⟨hret, hle, fun hlt => hinv.le.eq_of_not_lt fun hmore => ?_⟩
  have hpending := hinv.pending
  rw [drop_eq_getElem_cons hmore] at hpending
  exact Poll.not_ended hpending.1 (by omega) hret.2 hret.1

theorem poll (n : ℕ) : CqInv base (s.poll n) := by
  have hret := (h.returns n).2.1
  obtain ⟨hinv, hqps, -⟩ := h.polled n s.cq.pbl.capacity
  unfold CqSys.poll
  dsimp only
  generalize (Poll.start n s.cq s.qps).run s.mem s.cq.pbl.capacity = p at hret hinv hqps
  have hinv' := h.replaced s.recvs hqps fun _ _ => rfl
  refine { hinv' with
    ring := hinv.ringInv h.ring _ _ _
    harmless := fun e he => ?_
    calls := forall_mem_append.2 ⟨h.calls, forall_mem_singleton.2 hret⟩
    returned := ?_ }
  · rw [← drop_drop] at he
    exact hinv'.harmless e (mem_of_mem_drop he)
  · dsimp only
    rw [map_append, flatten_append, h.returned, entries_append]
    exact congrArg _ (append_nil _)

theorem step {e : CqEvent} (he : s.DeviceOk e) : CqInv base (s.step base e) := by
  cases e with
  | postSend q wr => exact h.postSend q wr
  | postRecv q wr => exact h.postRecv q wr
  | reqCqe q status span =>
    obtain ⟨hroom, hspan, herr⟩ := he
    refine h.write hroom ?_
    by_cases hmax : (s.qps q).sq.wq.maxWr = 0
    · -- a queue with no entries has no sends, so the CQE completes none
      obtain ⟨hnil, hcons⟩ := h.noSends q hmax
      rw [hnil] at hspan
      have hzero := le_zero.1 hspan
      refine .inr ⟨?_, ?_⟩
      · by_contra hnot
        rw [not_or] at hnot
        have hpos := herr hnot.1 hnot.2
        omega
      · rw [hzero, hcons]
        rfl
    · exact .inl hmax
  | respCqe q resp span => exact h.write he.1 (.inl (h.hasRq q he.2.1))
  | srqCqe q resp => exact h.write he.1 he.2
  | poll n => exact h.poll n

end CqInv

end FastLinQ.Qedr
