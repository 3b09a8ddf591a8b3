import FastLinQ.Qedr.CqRun

/-!
# Receive completions

For each QP with an RQ, the receives that `qedr_poll_cq` has gone through are the first of those
that `qedr_post_recv` accepted, with their own ids and elements.

`qedr_post_recv` looks at the free elements of the chain only. The chain is a whole number of pages,
and most receives take fewer elements than the largest one, so it accepts more receives than the
shadow array has entries; the entry of the oldest receive is then overwritten. The result is about
the runs in which the clients do not make use of that (`CqSys.RecvOk`).
-/

namespace FastLinQ.Qedr

open Qed Completion Function List Option Received CqSys DmaEnv Nat Rq CqeLog Poll

/-! ## One receive -/

/-- What is to be reported for a receive under a CQE. -/
def respOut (q : ℕ) (resp : RdmaCqeResponder) (_ : Bool) (e : RqeWrId) : List IbWc :=
  [if resp.status = .workRequestFlushedErr then flushWc q e.wrId else respWc q resp e.wrId]

theorem completes_respTurn (wc : ℕ → IbWc) :
    Completes wq rqeWrId (respTurn wc) fun e => some (wc e.wrId) :=
  ⟨fun _ => ⟨_, _, rfl, rfl⟩, fun _ => rfl⟩

/-- What a completed receive has to do with: its id and its elements. -/
def WrDone.receipt (d : WrDone) : Option ℕ × List ℕ := (d.wc.map IbWc.wrId, d.elems)

def Received.receipt (x : Received) : Option ℕ × List ℕ := (some x.wr.wrId, x.elems)

/-- The shadow entry tells about the receive. -/
def Received.Faithful (x : Received) : Prop := x.entry = ⟨x.wr.wrId, x.elems.length⟩

/-- The elements of an RQ after the first `c` of the receives were completed, as `dones`. -/
structure ReceiptsAt (base : ℕ → ℕ) (recvs : List Received) (c : ℕ) (dones : List WrDone)
    (rq : Rq) :
    Prop where
  elems : ElemsAt base rq.wq.pbl (recvs.map elems) c
  maxSges_le : rq.wq.maxSges ≤ QEDR_MAX_RQE_ELEMENTS_PER_RQE
  receipts : dones.map WrDone.receipt = (recvs.take c).map receipt

namespace ReceiptsAt

variable {base : ℕ → ℕ} {recvs : List Received} {c : ℕ} {dones : List WrDone} {rq : Rq}

section

variable (h : ReceiptsAt base recvs c dones rq)

include h

theorem length_dones (hc : c ≤ recvs.length) : dones.length = c := by
  have hlen := congrArg length h.receipts
  rwa [length_map, length_map, length_take, min_eq_left hc] at hlen

theorem post (hc : c ≤ recvs.length) {wr : IbRecvWr} (hadm : rq.Admits wr) :
    wr.elems < 2 ^ 8 ∧
      ReceiptsAt base
        (recvs ++ [⟨wr, produceList wr.elems rq.wq.pbl, ⟨wr.wrId, wr.elems % 2 ^ 8⟩⟩]) c
        dones (rq.accept wr) := by
  have hmax := h.maxSges_le
  have hfour : QEDR_MAX_RQE_ELEMENTS_PER_RQE = 4 := rfl
  obtain ⟨hleft, hsge⟩ := not_or.1 hadm
  have hle : wr.elems ≤ QEDR_MAX_RQE_ELEMENTS_PER_RQE := by
    unfold IbRecvWr.elems
    split <;> omega
  refine ⟨by omega, ?_, h.maxSges_le, ?_⟩
  · rw [map_append]
    exact h.elems.post (by rwa [length_map]) (by omega)
  · rw [take_append_of_le_length hc]
    exact h.receipts

theorem turn (hq : QueueAt rq.wq rq.rqeWrId (recvs.map entry) c) (hlt : c < recvs.length)
    (hf : ∀ x ∈ recvs, x.Faithful) (wc : ℕ → IbWc) (hwc : ∀ id, (wc id).wrId = id) :
    ReceiptsAt base recvs (c + 1) (dones ++ [(rq.respTurn wc).2]) (rq.respTurn wc).1 := by
  have hentry : rq.rqeWrId rq.wq.cons = recvs[c].entry := by
    refine hq.entry ?_
    rw [getElem?_map, getElem?_eq_getElem hlt]
    rfl
  have hfaithful := hf _ (getElem_mem hlt)
  have hlen : c < (recvs.map Received.elems).length := by rwa [length_map]
  have hget : (recvs.map Received.elems)[c] = recvs[c].elems := getElem_map _
  obtain ⟨hconsumed, hnext⟩ := h.elems.complete hlen
  rw [hget] at hconsumed hnext
  have hsize : (rq.rqeWrId rq.wq.cons).wqeSize = recvs[c].elems.length := by
    rw [hentry, hfaithful]
  refine ⟨?_, h.maxSges_le, ?_⟩
  · change ElemsAt base (consumeN (rq.rqeWrId rq.wq.cons).wqeSize rq.wq.pbl) _ _
    rw [hsize]
    exact hnext
  · have hreceipt : (rq.respTurn wc).2.receipt = recvs[c].receipt := by
      change (some (wc (rq.rqeWrId rq.wq.cons).wrId).wrId,
        consumeList (rq.rqeWrId rq.wq.cons).wqeSize rq.wq.pbl) = _
      rw [hsize, hconsumed, hwc, hentry, hfaithful]
      rfl
    rw [map_append, h.receipts, take_succ_eq_append_getElem hlt, map_append,
      map_singleton, map_singleton, hreceipt]

end

end ReceiptsAt

/-! ## The receives of a QP -/

/-- The receives of QP `q`: the CQEs with the notices `past` are consumed, and `k` receives under
the first of the notices `future` were gone through. -/
structure RecvAt (base : ℕ → ℕ) (q : ℕ) (recvs : List Received)
    (past future : List (Notice RdmaCqeResponder)) (k : ℕ) (rq : Rq) (dones : List WrDone) :
    Prop where
  queue : QueueAt rq.wq rq.rqeWrId (recvs.map entry) (spans past + k)
  receipts : ReceiptsAt base recvs (spans past + k) dones rq
  maxWr_lt : rq.wq.maxWr < 2 ^ 16
  progress : Midway (respOut q) (recvs.map entry) past future k (entries dones)
  faithful : ∀ x ∈ recvs, x.Faithful

namespace RecvAt

variable {base : ℕ → ℕ} {q k : ℕ} {recvs : List Received}
  {past future rest : List (Notice RdmaCqeResponder)} {n : Notice RdmaCqeResponder} {rq : Rq}
  {dones : List WrDone}

theorem start {dev : QedrDev} {attrs : QpInitAttr} (hcheck : qedrCheckQpAttrs dev attrs = true)
    {pbl : Chain} (helems : ElemsAt base pbl [] 0) :
    RecvAt base q [] [] [] 0 (.fresh attrs pbl) [] where
  queue := .start _ _ _ _
  receipts := by
    refine ⟨helems, ?_, rfl⟩
    simp only [qedrCheckQpAttrs, Bool.and_eq_true, decide_eq_true_eq] at hcheck
    refine hcheck.2.trans ?_
    unfold QedrDev.maxSge
    split
    · exact (min_le_right _ _).trans (by decide)
    · decide
  maxWr_lt := mod_lt _ (Nat.two_pow_pos 16)
  progress := .start
  faithful := nofun

section

variable (h : RecvAt base q recvs past future k rq dones)

include h

theorem le_length : spans past + k ≤ recvs.length := by
  have hle := h.progress.served.le_length
  rwa [length_map] at hle

theorem length_dones : dones.length = spans past + k := h.receipts.length_dones h.le_length

theorem post {wr : IbRecvWr} (hadm : rq.Admits wr)
    (hroom : recvs.length < dones.length + rq.wq.maxWr) :
    RecvAt base q (recvs ++ [⟨wr, produceList wr.elems rq.wq.pbl,
      (rq.accept wr).rqeWrId rq.wq.prod⟩]) past future k (rq.accept wr) dones := by
  obtain ⟨hsmall, hreceipts⟩ := h.receipts.post h.le_length hadm
  have hentry : (rq.accept wr).rqeWrId rq.wq.prod = ⟨wr.wrId, wr.elems % 2 ^ 8⟩ := update_self ..
  rw [hentry]
  rw [h.length_dones] at hroom
  refine ⟨?_, hreceipts, h.maxWr_lt, ?_,
    forall_mem_append.2 ⟨h.faithful, forall_mem_singleton.2 ?_⟩⟩
  · rw [map_append]
    exact (h.queue.post (by rwa [length_map]) _).congr rfl rfl rfl rfl
  · rw [map_append]
    exact h.progress.post _
  · rw [Faithful, length_produceList, mod_eq_of_lt hsmall]

theorem notice (hn : spans (past ++ future) + n.span ≤ recvs.length) :
    RecvAt base q recvs past (future ++ [n]) k rq dones :=
  { h with progress := h.progress.notice (by rwa [length_map]) }

end

theorem one (h : RecvAt base q recvs past (n :: rest) k rq dones) (hspan : n.span = 1)
    (hflush : n.status.status ≠ .workRequestFlushedErr) {r : Rq × List WrDone}
    (hr : rq.processRespOne q n.status = r) :
    RecvAt base q recvs (past ++ [n]) rest 0 r.1 (dones ++ r.2) := by
  have hk : k = 0 := by
    rcases h.progress.partway with hzero | ⟨m, hm, hlt⟩
    · exact hzero
    · obtain rfl := mem_some.1 hm
      omega
  subst hk
  have hlt : spans past < recvs.length := by
    have hwithin := h.progress.within
    rw [length_map, hspan] at hwithin
    exact hwithin
  have hget : (recvs.map entry)[spans past]? = some recvs[spans past].entry := by
    rw [getElem?_map, getElem?_eq_getElem hlt]
    rfl
  have hcurrent := h.progress.current
  rw [hspan, add_zero, Nat.add_sub_cancel_left] at hcurrent
  have hserved := hcurrent.advance hget
  have hout : respOut q n.status (decide (0 = 0)) recvs[spans past].entry =
      entries (rq.processRespOne q n.status).2 := by
    rw [respOut, if_neg hflush, ← h.queue.entry hget]
    rfl
  rw [hout, ← entries_append] at hserved
  have hspans : spans (past ++ [n]) + 0 = spans past + 0 + 1 := by
    rw [spans_append, spans, spans, hspan]
  have hlen : spans past + 0 < (recvs.map entry).length := by
    rw [length_map]
    exact hlt
  have hqueue := (completes_respTurn (respWc q n.status)).queue h.queue hlen
  have hreceipts := h.receipts.turn h.queue hlt h.faithful (respWc q n.status) fun _ => rfl
  subst hr
  refine ⟨?_, ?_, h.maxWr_lt, .retired (by rw [hspan]; exact hserved), h.faithful⟩
  · rw [hspans]
    exact hqueue
  · rw [hspans]
    exact hreceipts

theorem flush (h : RecvAt base q recvs past (n :: rest) k rq dones)
    (hflush : n.status.status = .workRequestFlushedErr) (budget : ℕ) {r : Rq × List WrDone}
    (hr : rq.processRespFlush q budget ((spans past + n.span) % 2 ^ 16) = r) :
    (r.1.wq.wqeCons = (spans past + n.span) % 2 ^ 16 ∧
        RecvAt base q recvs (past ++ [n]) rest 0 r.1 (dones ++ r.2)) ∨
      (r.1.wq.wqeCons ≠ (spans past + n.span) % 2 ^ 16 ∧
        ∃ k', RecvAt base q recvs past (n :: rest) k' r.1 (dones ++ r.2)) := by
  have hle := h.progress.le_span
  have hwithin := h.progress.within
  have hlen : spans past + n.span ≤ recvs.length := by rwa [length_map] at hwithin
  have hstep : ∀ c ds (rq : Rq), spans past + k ≤ c → c < spans past + n.span →
      QueueAt rq.wq rq.rqeWrId (recvs.map entry) c →
      ReceiptsAt base recvs c (dones ++ ds) rq →
      ReceiptsAt base recvs (c + 1) (dones ++ (ds ++ [(rq.respTurn (flushWc q)).2]))
        (rq.respTurn (flushWc q)).1 := by
    intro c ds rq _ hc hq hx
    rw [← append_assoc]
    exact hx.turn hq (hc.trans_le hlen) h.faithful (flushWc q) fun _ => rfl
  have hout : ∀ c (e : RqeWrId), spans past + k ≤ c → c < spans past + n.span →
      (some (flushWc q e.wrId)).toList =
        respOut q n.status (decide (c + 1 = spans past + n.span)) e := by
    intro c e _ _
    rw [respOut, if_pos hflush]
    rfl
  obtain ⟨c, hcc, hca, hq, hm, hs, hx, -, -⟩ := drain_served (completes_respTurn (flushWc q))
    (X := fun c ds rq => ReceiptsAt base recvs c (dones ++ ds) rq) hstep hout h.queue h.maxWr_lt
    h.progress.current (Nat.add_le_add_left hle _) le_rfl hwithin
    (by rw [append_nil]; exact h.receipts) budget
  unfold processRespFlush at hr
  rw [hr] at hq hm hs hx
  rw [← entries_append] at hs
  have hiff := hq.wqeCons_eq_iff (hm ▸ h.maxWr_lt) hca hwithin
  rcases Midway.reached ((le_add_right _ k).trans hcc) hca hs with
    ⟨hend, hc, hmid⟩ | ⟨hend, k', hc, hmid⟩
  · rw [hc] at hq hx
    exact .inl ⟨hiff.2 hend, hq, hx, hm ▸ h.maxWr_lt, hmid, h.faithful⟩
  · rw [hc] at hq hx
    exact .inr ⟨fun heq => hend (hiff.1 heq), k', hq, hx, hm ▸ h.maxWr_lt, hmid, h.faithful⟩

end RecvAt

/-! ## The system -/

/-- The receives of QP `q` that were gone through. -/
def recvDones (q : ℕ) (done : List WrDone) : List WrDone :=
  done.filter fun d => d.wc.any fun wc => wc.qp == q && wc.recv

theorem recvDones_append (q : ℕ) (done done' : List WrDone) :
    recvDones q (done ++ done') = recvDones q done ++ recvDones q done' :=
  filter_append _ _

theorem recvDones_of_forall {q : ℕ} {done : List WrDone}
    (h : ∀ d ∈ done, ∃ wc, d.wc = some wc ∧ wc.qp = q ∧ wc.recv = true) :
    recvDones q done = done := by
  refine filter_eq_self.2 fun d hd => ?_
  obtain ⟨wc, hsome, hqp, hrecv⟩ := h d hd
  rw [hsome, any_some, hqp, hrecv, beq_self_eq_true]
  rfl

theorem recvDones_eq_nil {q q' : ℕ} {done : List WrDone} {recv : Bool}
    (h : ∀ d ∈ done, ∀ wc ∈ d.wc, wc.qp = q' ∧ wc.recv = recv) (hne : q' ≠ q ∨ recv = false) :
    recvDones q done = [] := by
  refine filter_eq_nil_iff.2 fun d hd hany => ?_
  obtain ⟨wc, hsome, hmatch⟩ := (any_eq_true _ _).1 hany
  obtain ⟨hqp, hrecv⟩ := h d hd wc hsome
  rw [hqp, hrecv, Bool.and_eq_true, beq_iff_eq] at hmatch
  exact hne.elim (fun hq => hq hmatch.1) fun hfalse =>
    absurd (hfalse.symm.trans hmatch.2) (by decide)

theorem respNotices_append (q : ℕ) (log log' : List CqeLog) :
    respNotices q (log ++ log') = respNotices q log ++ respNotices q log' :=
  filterMap_append

theorem respNotices_responder {e : CqeLog} {resp : RdmaCqeResponder}
    (h : e.body = .responderRq resp) : respNotices e.qp [e] = [⟨e.span, resp⟩] := by
  unfold respNotices
  rw [filterMap_cons, h]
  dsimp only
  rw [if_pos rfl]
  rfl

theorem respNotices_eq_nil {q : ℕ} {e : CqeLog} (h : e.qp ≠ q ∨ e.body.isRecv = false) :
    respNotices q [e] = [] := by
  unfold respNotices
  rw [filterMap_cons]
  cases hbody : e.body with
  | responderRq resp =>
    have hne : e.qp ≠ q := h.resolve_right fun hsend => by
      rw [hbody] at hsend
      exact nomatch hsend
    dsimp only
    rw [if_neg hne]
    rfl
  | requester status sqCons => rfl
  | responderSrq resp => rfl
  | responderXrcSrq => rfl

/-- A CQE of a responder is about the RQ or the shared queue of its QP; in the first case it carries
the number of receives that are completed with it. -/
def CqeLog.Answers (srq : ℕ → Bool) (log : List CqeLog) (e : CqeLog) : Prop :=
  match e.body with
  | .requester _ _ => True
  | .responderRq resp => srq e.qp = false ∧
    resp.rqConsOrSrqId.toNat = (spans (respNotices e.qp log) + e.span) % 2 ^ 16 ∧
    (resp.status ≠ .workRequestFlushedErr → e.span = 1)
  | .responderSrq _ => srq e.qp = true
  | .responderXrcSrq => False

/-- Where the receives of all QPs with an RQ stand, after `r` CQEs were consumed. -/
def RecvsAt (srq : ℕ → Bool) (s : CqSys) (r : ℕ) (qps : ℕ → Qp) (done : List WrDone) : Prop :=
  ∀ q, srq q = false → ∃ base k, RecvAt base q (s.recvs q) (respNotices q (s.log.take r))
    (respNotices q (s.log.drop r)) k (qps q).rq (recvDones q done)

structure RecvInv (base : ℕ → ℕ) (srq : ℕ → Bool) (s : CqSys) : Prop where
  cq : CqInv base s
  shared : ∀ q, (s.qps q).srq = srq q
  answers : ∀ j (e : CqeLog), s.log[j]? = some e → e.Answers srq (s.log.take j)
  recvs : RecvsAt srq s s.read s.qps s.done

section Turn

variable {srq : ℕ → Bool} {s : CqSys} {p : Poll} {e : CqeLog} {base : ℕ → ℕ}

theorem RecvsAt.account (h : RecvsAt srq s (s.read + p.taken) p.qps (s.done ++ p.done))
    (he : s.log[s.read + p.taken]? = some e)
    (hans : e.Answers srq (s.log.take (s.read + p.taken))) :
    let p' := p.account e.qp (p.handle e.qp e.body)
    RecvsAt srq s (s.read + p'.taken) p'.qps (s.done ++ p'.done) := by
  intro p' q hq
  obtain ⟨base, k, hk⟩ := h q hq
  refine ⟨base, ?_⟩
  by_cases hother : e.qp ≠ q ∨ e.body.isRecv = false
  · exact ⟨k, account_other (P := fun past future => RecvAt base q (s.recvs q) past future k)
      (respNotices_append q) (recvDones_append q) he (respNotices_eq_nil hother)
      (recvDones_eq_nil (p.handle_done e.qp e.body) hother)
      (fun hq => by
        subst hq
        exact p.handle_rq _ (hother.resolve_left fun hne => hne rfl)) hk⟩
  · rw [not_or, not_not] at hother
    obtain ⟨rfl, hrecv⟩ := hother
    rw [Answers] at hans
    cases hbody : e.body with
    | requester status sqCons =>
      rw [hbody] at hrecv
      exact absurd rfl hrecv
    | responderRq resp =>
      rw [hbody] at hans
      obtain ⟨-, hcons, hone⟩ := hans
      obtain ⟨-, hfuture⟩ := take_drop_succ (respNotices_append e.qp) he
      rw [respNotices_responder hbody] at hfuture
      rw [hfuture] at hk
      refine account_turn (P := RecvAt base e.qp (s.recvs e.qp))
        (respNotices_append _) (recvDones_append _) he (respNotices_responder hbody) ?_
      rw [hbody]
      unfold handle
      dsimp only
      by_cases hflush : resp.status = .workRequestFlushedErr
      · have hturn := hk.flush hflush p.numEntries rfl
        have hdone := (p.qps e.qp).rq.processRespFlush_done e.qp p.numEntries
          resp.rqConsOrSrqId.toNat
        rw [← hcons] at hturn
        rw [if_pos hflush, recvDones_of_forall hdone]
        refine hturn.imp (And.imp_left fun heq => ?_) (And.imp_left fun hne => ?_)
        · exact beq_iff_eq.2 heq.symm
        · exact beq_eq_false_iff_ne.2 hne.symm
      · have hat := hk.one (hone hflush) hflush rfl
        have hdone : ∀ d ∈ ((p.qps e.qp).rq.processRespOne e.qp resp).2,
            ∃ wc, d.wc = some wc ∧ wc.qp = e.qp ∧ wc.recv = true := by
          intro d hd
          rw [mem_singleton.1 hd]
          exact ⟨_, rfl, rfl, rfl⟩
        rw [if_neg hflush, recvDones_of_forall hdone]
        exact .inl ⟨rfl, hat⟩
    | responderSrq resp =>
      rw [hbody] at hans
      exact absurd (hq.symm.trans hans) (by decide)
    | responderXrcSrq =>
      rw [hbody] at hans
      exact hans.elim

end Turn

namespace CqSys

/-- A receive is posted only while fewer than `max_wr` of the accepted ones are outstanding. -/
def Spares (s : CqSys) : CqEvent → Prop
  | .postRecv q wr => (s.qps q).srq = false → (s.qps q).rq.Admits wr →
    (s.recvs q).length < (recvDones q s.done).length + (s.qps q).rq.wq.maxWr
  | _ => True

instance decidableSpares (s : CqSys) (e : CqEvent) : Decidable (s.Spares e) := by
  unfold Spares
  rcases e with _ | _ <;> infer_instance

/-- The device keeps its promises, and the clients spare the shadow array. -/
def RecvOk (s : CqSys) (e : CqEvent) : Prop := s.DeviceOk e ∧ s.Spares e
  deriving Decidable

end CqSys

namespace RecvInv

variable {base : ℕ → ℕ} {srq : ℕ → Bool} {s : CqSys}

theorem start {cq : Cq} (hcq : CqAt base cq 0) {qps : ℕ → Qp} (hqps : ∀ q, (qps q).Created)
    (hrqs : ∀ q, (qps q).srq = false → ∃ env dev attrs extPbl,
      qedrCreateRq env dev attrs extPbl = .ok (qps q).rq ∧
        env.Disjoint QED_CHAIN_PAGE_SIZE (rqChainParams attrs extPbl).pageCnt) :
    RecvInv base (fun q => (qps q).srq) (.start cq qps) where
  cq := .start hcq hqps
  shared _ := rfl
  answers := nofun
  recvs q hq := by
    obtain ⟨env, dev, attrs, extPbl, hrq, hd⟩ := hrqs q hq
    obtain ⟨hcheck, pbl, halloc, hfresh⟩ := createRq_ok hrq
    refine ⟨env.addr, 0, ?_⟩
    change RecvAt env.addr q [] [] [] 0 (qps q).rq []
    rw [hfresh]
    exact .start hcheck (wqChain_of_alloc halloc hd)

variable (h : RecvInv base srq s)

include h

theorem postSend (q : ℕ) (wr : IbSendWr) : RecvInv base srq (s.postSend q wr) := by
  have hqp : ∀ q', ((s.postSend q wr).qps q').srq = (s.qps q').srq ∧
      ((s.postSend q wr).qps q').rq = (s.qps q').rq :=
    (forall_update_iff s.qps fun q' qp => qp.srq = (s.qps q').srq ∧ qp.rq = (s.qps q').rq).2
      ⟨⟨rfl, rfl⟩, fun _ _ => ⟨rfl, rfl⟩⟩
  refine ⟨h.cq.postSend q wr, fun q' => (hqp q').1.trans (h.shared q'), h.answers, fun q' hq' => ?_⟩
  obtain ⟨base', k, hk⟩ := h.recvs q' hq'
  refine ⟨base', k, ?_⟩
  rw [(hqp q').2]
  exact hk

theorem postRecv {q : ℕ} {wr : IbRecvWr} (hs : s.Spares (.postRecv q wr)) :
    RecvInv base srq (s.postRecv q wr) := by
  have hcq := h.cq.postRecv q wr
  unfold CqSys.postRecv qedrPostRecv at hcq ⊢
  dsimp only at hcq ⊢
  by_cases hsrq : (s.qps q).srq = true
  · rw [if_pos hsrq]
    exact h
  rw [if_neg hsrq] at hcq ⊢
  by_cases hadm : (s.qps q).rq.Admits wr
  · rw [if_pos hadm] at hcq ⊢
    refine ⟨hcq, (forall_update_iff s.qps fun q' qp => qp.srq = srq q').2
      ⟨h.shared q, fun q' _ => h.shared q'⟩, h.answers, fun q' hq' => ?_⟩
    obtain ⟨base', k, hk⟩ := h.recvs q' hq'
    refine ⟨base', k, ?_⟩
    dsimp only
    rcases eq_or_ne q' q with rfl | hne
    · rw [update_self, update_self]
      exact hk.post hadm (hs (Bool.eq_false_iff.2 hsrq) hadm)
    · rw [update_of_ne hne, update_of_ne hne]
      exact hk
  · rw [if_neg hadm]
    exact h

theorem write {e : CqeLog} (hcq : CqInv base (s.write base e)) (hans : e.Answers srq s.log)
    (hspan : ∀ resp, e.body = .responderRq resp →
      spans (respNotices e.qp s.log) + e.span ≤ (s.recvs e.qp).length) :
    RecvInv base srq (s.write base e) where
  cq := hcq
  shared := h.shared
  answers := forall_concat (P := fun log e => e.Answers srq log) h.answers hans
  recvs q hq := by
    obtain ⟨base', k, hk⟩ := h.recvs q hq
    refine ⟨base', k, ?_⟩
    change RecvAt base' q (s.recvs q) (respNotices q ((s.log ++ [e]).take s.read))
      (respNotices q ((s.log ++ [e]).drop s.read)) k (s.qps q).rq (recvDones q s.done)
    rw [take_append_of_le_length h.cq.ring.le, drop_append_of_le_length h.cq.ring.le,
      respNotices_append q (s.log.drop s.read)]
    by_cases hother : e.qp ≠ q ∨ e.body.isRecv = false
    · rw [respNotices_eq_nil hother, append_nil]
      exact hk
    · rw [not_or, not_not] at hother
      obtain ⟨rfl, hrecv⟩ := hother
      cases hbody : e.body with
      | requester status sqCons =>
        rw [hbody] at hrecv
        exact absurd rfl hrecv
      | responderRq resp =>
        rw [respNotices_responder hbody]
        refine hk.notice ?_
        rw [← respNotices_append, take_append_drop]
        exact hspan resp hbody
      | responderSrq resp =>
        rw [Answers, hbody] at hans
        exact absurd (hq.symm.trans hans) (by decide)
      | responderXrcSrq =>
        rw [Answers, hbody] at hans
        exact hans.elim

theorem poll (n : ℕ) : RecvInv base srq (s.poll n) where
  cq := h.cq.poll n
  shared q := ((h.cq.polled n s.cq.pbl.capacity).2.1 q).2.srq.trans (h.shared q)
  answers := h.answers
  recvs := by
    refine (PollInv.run (I := fun p => RecvsAt srq s (s.read + p.taken) p.qps (s.done ++ p.done))
      h.cq.ring n ?_ ?_ s.cq.pbl.capacity).2
    · intro q hq
      change ∃ base k, RecvAt base q (s.recvs q) _ _ k (s.qps q).rq (recvDones q (s.done ++ []))
      rw [append_nil]
      exact h.recvs q hq
    · intro p e hp he _
      exact hp.account he (h.answers _ e he)

theorem step {e : CqEvent} (he : s.RecvOk e) : RecvInv base srq (s.step base e) := by
  have hcq := h.cq.step he.1
  cases e with
  | postSend q wr => exact h.postSend q wr
  | postRecv q wr => exact h.postRecv he.2
  | reqCqe q status span => exact h.write hcq trivial nofun
  | respCqe q resp span =>
    obtain ⟨-, hsrq, hspan, hone⟩ := he.1
    refine h.write hcq ⟨(h.shared q).symm.trans hsrq, BitVec.toNat_ofNat _ _, hone⟩ fun _ _ => hspan
  | srqCqe q resp => exact h.write hcq ((h.shared q).symm.trans he.1.2) nofun
  | poll n => exact h.poll n

end RecvInv

/-- **Receive completions carry the right ids.** In every run of a CQ and its QPs in which the
device keeps its promises and no receive is accepted while `max_wr` of them are outstanding: for
every QP with an RQ, the receives that the calls went through are the first `c` of the accepted
ones, each with its own id and the elements that were produced for it. These are all receives under
the consumed CQEs, and none beyond those that the device has completed. A call that comes next
returns, and leaves no CQE if it does not fill its array. -/
theorem recv_completions_in_order {env : DmaEnv} {pageSize numEntries : ℕ} {cq : Cq}
    (hcreate : qedrCreateCq env pageSize numEntries = .ok cq)
    (hd : env.Disjoint QED_CHAIN_PAGE_SIZE (cqChainParams pageSize numEntries).pageCnt)
    {qps : ℕ → Qp} (hqps : ∀ q, (qps q).Created)
    (hrqs : ∀ q, (qps q).srq = false → ∃ env dev attrs extPbl,
      qedrCreateRq env dev attrs extPbl = .ok (qps q).rq ∧
        env.Disjoint QED_CHAIN_PAGE_SIZE (rqChainParams attrs extPbl).pageCnt) {l : List CqEvent}
    (h : Run.Meets RecvOk (step env.addr) (.start cq qps) l) :
    let s := l.foldl (step env.addr) (.start cq qps)
    (∀ q, (qps q).srq = false → ∃ c,
      spans (respNotices q (s.log.take s.read)) ≤ c ∧ c ≤ spans (respNotices q s.log) ∧
        spans (respNotices q s.log) ≤ (s.recvs q).length ∧
        (recvDones q s.done).map WrDone.receipt = ((s.recvs q).take c).map receipt) ∧
    (s.calls.map PollCall.wcs).flatten = entries s.done ∧
    ∀ n, (start n s.cq s.qps).Returns s.mem s.cq.pbl.capacity ∧
      (((start n s.cq s.qps).run s.mem s.cq.pbl.capacity).wcs.length < n →
        (s.poll n).read = s.log.length) := by
  intro s
  have hinv : RecvInv env.addr (fun q => (qps q).srq) s :=
    h.invariant (fun _ _ hs he => hs.step he) (.start (cqAt_of_create hcreate hd) hqps hrqs)
  refine ⟨fun q hq => ?_, hinv.cq.returned, fun n => ?_⟩
  · obtain ⟨base, k, hk⟩ := hinv.recvs q hq
    have hleft := hk.progress.served.left
    have hwithin := hk.progress.served.within
    rw [← respNotices_append, take_append_drop] at hleft hwithin
    rw [length_map] at hwithin
    exact ⟨_, le_add_right _ k, (le_add_right _ _).trans_eq hleft, hwithin, hk.receipts.receipts⟩
  · obtain ⟨hret, -, hleft⟩ := hinv.cq.returns n
    exact ⟨hret, hleft⟩

def oneRecvWr : QpInitAttr := ⟨1, 1, 1, 1, false⟩

/-- Receives with the given ids are posted, and as many completed and polled. -/
def recvAll (ids : List ℕ) : List CqEvent :=
  ids.map (fun id => .postRecv 0 ⟨id, 1⟩) ++
    ids.map (fun _ => .respCqe 0 ⟨.ok, 0, 64, 0, false, false⟩ 1) ++ [.poll 10]

/-- Two receives, one after the other. -/
theorem recv_completions_in_order_two :
    ∃ sq rq cq,
      qedrCreateSq (.backToBack 0x10000 QED_CHAIN_PAGE_SIZE) roceDev oneRecvWr none = .ok sq ∧
      qedrCreateRq (.backToBack 0x20000 QED_CHAIN_PAGE_SIZE) roceDev oneRecvWr none = .ok rq ∧
      qedrCreateCq (.backToBack 0x30000 QED_CHAIN_PAGE_SIZE) 0x1000 10 = .ok cq ∧
      let env := backToBack 0x30000 QED_CHAIN_PAGE_SIZE
      let s := (recvAll [1] ++ recvAll [2]).foldl (step env.addr)
        (.start cq fun _ => ⟨sq, rq, false⟩)
      ∃ c, spans (respNotices 0 (s.log.take s.read)) ≤ c ∧ c ≤ spans (respNotices 0 s.log) ∧
        spans (respNotices 0 s.log) ≤ (s.recvs 0).length ∧
        (recvDones 0 s.done).map WrDone.receipt = ((s.recvs 0).take c).map receipt := by
  have hs : qedrCreateSq (.backToBack 0x10000 QED_CHAIN_PAGE_SIZE) roceDev oneRecvWr none =
    .ok _ := rfl
  have hr : qedrCreateRq (.backToBack 0x20000 QED_CHAIN_PAGE_SIZE) roceDev oneRecvWr none =
    .ok _ := rfl
  have hc : qedrCreateCq (.backToBack 0x30000 QED_CHAIN_PAGE_SIZE) 0x1000 10 = .ok _ := rfl
  refine ⟨_, _, _, hs, hr, hc, ?_⟩
  exact (recv_completions_in_order hc (backToBack_disjoint _ _ _)
    (fun _ => ⟨⟨_, _, _, _, hs⟩, fun _ => ⟨_, _, _, _, hr⟩, fun h => absurd h (by decide)⟩)
    (fun _ _ => ⟨_, _, _, _, hr, backToBack_disjoint _ _ _⟩)
    (l := recvAll [1] ++ recvAll [2]) (by decide +kernel)).1 0 rfl

/-- With `max_wr` equal to one, two outstanding receives are accepted: both are reported with the id
of the second one. -/
theorem not_recv_completions_in_order :
    ∃ sq rq cq,
      qedrCreateSq (.backToBack 0x10000 QED_CHAIN_PAGE_SIZE) roceDev oneRecvWr none = .ok sq ∧
      qedrCreateRq (.backToBack 0x20000 QED_CHAIN_PAGE_SIZE) roceDev oneRecvWr none = .ok rq ∧
      qedrCreateCq (.backToBack 0x30000 QED_CHAIN_PAGE_SIZE) 0x1000 10 = .ok cq ∧
      let env := backToBack 0x30000 QED_CHAIN_PAGE_SIZE
      let s := (recvAll [1, 2]).foldl (step env.addr) (.start cq fun _ => ⟨sq, rq, false⟩)
      Run.Meets DeviceOk (step env.addr) (.start cq fun _ => ⟨sq, rq, false⟩)
          (recvAll [1, 2]) ∧
        (s.recvs 0).map (fun x => x.wr.wrId) = [1, 2] ∧
        (recvDones 0 s.done).map (fun d => d.wc.map IbWc.wrId) = [some 2, some 2] := by
  refine ⟨_, _, _, rfl, rfl, rfl, ?_, ?_, ?_⟩
  all_goals decide +kernel

end FastLinQ.Qedr
