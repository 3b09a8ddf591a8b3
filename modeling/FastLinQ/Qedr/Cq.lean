import FastLinQ.Foundations.Loop
import FastLinQ.Qedr.Receive

/-!
# Polling a completion queue

The device writes CQEs into the ring of a completion queue (CQ), with a toggle bit that changes in
every turn of the ring. `qedr_poll_cq` goes through the CQEs that look new, and fills the client's
array of work completions. A CQE that covers more requests than there is room for stays in the ring
and is gone on with in the next call.

The memory of the ring does not change in a call. `fault` is a division by zero, in
`qedr_inc_sw_cons` of a queue without a shadow array, or the use of a shared receive queue (SRQ) by
`process_resp_one_srq` for a QP that has none. The number of entries is a natural number.
-/

namespace FastLinQ.Qedr

open Qed Completion

/-! ## The ring -/

/-- `enum rdma_cqe_type`, of which the field has two bits, with the data of each type. -/
inductive CqeBody
  | requester (status : RdmaCqeReqSts) (sqCons : BitVec 16)
  | responderRq (resp : RdmaCqeResponder)
  | responderSrq (resp : RdmaCqeResponder)
  | responderXrcSrq
  deriving DecidableEq, Repr

/-- `union rdma_cqe`; `qp` is the handle of the QP, or NULL. -/
structure Cqe where
  toggle : Bool
  qp : Option ℕ
  body : CqeBody
  deriving DecidableEq, Repr

structure Cq where
  pbl : Chain
  latestCqe : ℕ
  toggleCqe : ℕ
  pblToggle : Bool

def QEDR_CQE_SIZE : ℕ := 32

def QEDR_MAX_CQES : ℕ := (512 * 1024 / 8 - 1) * QED_CHAIN_PAGE_SIZE / QEDR_CQE_SIZE

def qedrAlignCqEntries (pageSize entries : ℕ) : ℕ :=
  ((entries + 1) * QEDR_CQE_SIZE + (pageSize - 1)) / pageSize * pageSize / QEDR_CQE_SIZE

def cqChainParams (pageSize entries : ℕ) : ChainParams :=
  qedChainParamsInit .toConsume .pbl .u32 (min (qedrAlignCqEntries pageSize entries) QEDR_MAX_CQES)
    QEDR_CQE_SIZE

/-- `qed_chain_get_last_elem` of a chain with a page table. -/
def qedChainGetLastElem (c : Chain) : ℕ :=
  c.ppVirtAddrTbl.getD (c.pageCnt - 1) 0 + c.elemSize * (c.usablePerPage - 1)

/-- A CQ over its chain. The first call of `consume_cqe` finds NULL in `latest_cqe`, so that it does
not toggle. -/
def Cq.fresh (pbl : Chain) : Cq where
  pbl := (qedChainConsume pbl).2
  latestCqe := (qedChainConsume pbl).1
  toggleCqe := qedChainGetLastElem pbl
  pblToggle := true

/-- `qedr_create_cq` for a kernel client. -/
def qedrCreateCq (env : DmaEnv) (pageSize entries : ℕ) : Except AllocErr Cq :=
  if QEDR_MAX_CQES < entries then .error .einval
  else (qedChainAlloc env (cqChainParams pageSize entries)).map .fresh

namespace Cq

def isValidCqe (cq : Cq) (cqe : Cqe) : Bool := cqe.toggle == cq.pblToggle

def consumeCqe (cq : Cq) : Cq where
  pbl := (qedChainConsume cq.pbl).2
  latestCqe := (qedChainConsume cq.pbl).1
  toggleCqe := cq.toggleCqe
  pblToggle := if cq.latestCqe = cq.toggleCqe then !cq.pblToggle else cq.pblToggle

end Cq

/-! ## Polling -/

/-- The queues of `struct qedr_qp`, and whether it takes its receives from a shared queue. -/
structure Qp where
  sq : Sq
  rq : Rq
  srq : Bool

/-- A call of `qedr_poll_cq`: the number of entries that are left of the client's array, the CQ, the
QPs, the requests that were gone through so far, and the number of CQEs that were consumed. -/
structure Poll where
  numEntries : ℕ
  cq : Cq
  qps : ℕ → Qp
  done : List WrDone
  taken : ℕ
  fault : Bool

namespace Poll

def wcs (p : Poll) : List IbWc := entries p.done

/-- What a turn did to the QP `q`: its queues after the turn, the requests that were gone through,
whether it came to a fault, and whether the CQE is consumed. -/
structure Handled where
  qp : Qp
  done : List WrDone
  fault : Bool
  consumed : Bool

/-- `qedr_inc_sw_cons` divides by the size of the shadow array for each request that is gone
through. -/
def incFault (maxWr : ℕ) (done : List WrDone) : Bool := maxWr == 0 && !done.isEmpty

/-- The switch of `qedr_poll_cq`; for a type that it does not know it only prints an error. -/
def handle (p : Poll) (q : ℕ) (body : CqeBody) : Handled :=
  let qp := p.qps q
  match body with
  | .requester status sqCons =>
    let r := qp.sq.qedrPollCqReq q p.numEntries sqCons.toNat status
    -- try_consume_req_cqe
    ⟨{ qp with sq := r.1 }, r.2, incFault qp.sq.wq.maxWr r.2, sqCons.toNat == r.1.wq.wqeCons⟩
  | .responderRq resp =>
    if resp.status = .workRequestFlushedErr then
      let r := qp.rq.processRespFlush q p.numEntries resp.rqConsOrSrqId.toNat
      -- try_consume_resp_cqe
      ⟨{ qp with rq := r.1 }, r.2, incFault qp.rq.wq.maxWr r.2,
        resp.rqConsOrSrqId.toNat == r.1.wq.wqeCons⟩
    else
      let r := qp.rq.processRespOne q resp
      ⟨{ qp with rq := r.1 }, r.2, incFault qp.rq.wq.maxWr r.2, true⟩
  -- qedr_inc_srq_wr_cons writes to the SRQ, which may be NULL
  | .responderSrq resp => ⟨qp, [processRespOneSrq q resp], !qp.srq, true⟩
  | .responderXrcSrq => ⟨qp, [], false, false⟩

def account (p : Poll) (q : ℕ) (h : Handled) : Poll where
  numEntries := p.numEntries - (entries h.done).length
  cq := if h.consumed then p.cq.consumeCqe else p.cq
  qps := Function.update p.qps q h.qp
  done := p.done ++ h.done
  taken := if h.consumed then p.taken + 1 else p.taken
  fault := h.fault

/-- One turn of the loop of `qedr_poll_cq`. -/
def turn (mem : ℕ → Cqe) (p : Poll) : Poll :=
  let cqe := mem p.cq.latestCqe
  match cqe.qp with
  | none => p
  | some q => p.account q (p.handle q cqe.body)

/-- The loop is left: the array is full, there is no new CQE, or the new CQE has no QP. -/
def Ended (mem : ℕ → Cqe) (p : Poll) : Prop :=
  p.numEntries = 0 ∨ p.cq.isValidCqe (mem p.cq.latestCqe) = false ∨
    (mem p.cq.latestCqe).qp = none ∨ p.fault = true
  deriving Decidable

def start (numEntries : ℕ) (cq : Cq) (qps : ℕ → Qp) : Poll := ⟨numEntries, cq, qps, [], 0, false⟩

/-- The loop of `qedr_poll_cq` after `t` turns. -/
def run (mem : ℕ → Cqe) (p : Poll) (t : ℕ) : Poll :=
  Loop.run (Ended mem) (fun p (_ : Unit) => p.turn mem) (fun _ => ()) p t

def Returns (mem : ℕ → Cqe) (p : Poll) (t : ℕ) : Prop :=
  (p.run mem t).Ended mem ∧ (p.run mem t).fault = false

end Poll

end FastLinQ.Qedr
