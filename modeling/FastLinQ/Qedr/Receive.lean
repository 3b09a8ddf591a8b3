import FastLinQ.Qedr.Elems
import FastLinQ.Qedr.Send

/-!
# Posting and completing receives

`qedr_post_recv` gives a receive one element of the chain for each SGE, or one if it has none, and
remembers its id and its size in the shadow array. A completion queue entry (CQE) of the responder
is about one receive, or says that all receives up to a number are flushed.
-/

namespace FastLinQ.Qedr

open Qed Completion

structure IbRecvWr where
  wrId : ℕ
  numSge : ℕ
  deriving DecidableEq, Repr

structure RqeWrId where
  wrId : ℕ
  wqeSize : ℕ
  deriving DecidableEq, Repr

/-- The receive side of `struct qedr_qp`. -/
structure Rq where
  wq : HwqInfo
  rqeWrId : ℕ → RqeWrId

def QpInitAttr.rqMaxWr (attrs : QpInitAttr) : ℕ := max attrs.maxRecvWr 1 % 2 ^ 16

/-- The chain of an RQ: room for the receives the client asks for, of the largest size. -/
def rqChainParams (attrs : QpInitAttr) (extPbl : Option DmaBlock) : ChainParams :=
  wqChainParams (attrs.rqMaxWr * QEDR_MAX_RQE_ELEMENTS_PER_RQE % 2 ^ 32)
    QEDR_RQE_ELEMENT_SIZE extPbl

def Rq.fresh (attrs : QpInitAttr) (pbl : Chain) : Rq where
  wq := .fresh pbl attrs.maxRecvSge attrs.rqMaxWr
  rqeWrId := fun _ => ⟨0, 0⟩

/-- The RQ part of `qedr_create_qp` for a kernel client. -/
def qedrCreateRq (env : DmaEnv) (dev : QedrDev) (attrs : QpInitAttr) (extPbl : Option DmaBlock) :
    Except AllocErr Rq :=
  if qedrCheckQpAttrs dev attrs then
    (qedChainAlloc env (rqChainParams attrs extPbl)).map (Rq.fresh attrs)
  else .error .einval

/-! ## Posting -/

/-- The elements of a receive: firmware requires between 1 and 4. -/
def IbRecvWr.elems (wr : IbRecvWr) : ℕ := if wr.numSge = 0 then 1 else wr.numSge

namespace Rq

/-- The test of `qedr_post_recv`. -/
def Admits (rq : Rq) (wr : IbRecvWr) : Prop :=
  ¬(qedChainGetElemLeftU32 rq.wq.pbl < QEDR_MAX_RQE_ELEMENTS_PER_RQE ∨ rq.wq.maxSges < wr.numSge)
  deriving Decidable

def accept (rq : Rq) (wr : IbRecvWr) : Rq where
  wq := { ({ rq.wq with pbl := produceN wr.elems rq.wq.pbl } : HwqInfo).qedrIncSwProd with
    dbValue := (rq.wq.dbValue + 1) % 2 ^ 16 }
  rqeWrId := Function.update rq.rqeWrId rq.wq.prod ⟨wr.wrId, wr.elems % 2 ^ 8⟩

/-- One turn of `qedr_post_recv`, with the elements that it wrote; `none` for `-ENOMEM`. -/
def qedrPostRecv (rq : Rq) (wr : IbRecvWr) : Option (Rq × List ℕ) :=
  if rq.Admits wr then some (rq.accept wr, produceList wr.elems rq.wq.pbl) else none

end Rq

/-! ## Completing -/

/-- `enum rdma_cqe_responder_status_enum`; `other` are values it does not have. -/
inductive RdmaCqeRespSts
  | ok
  | localAccessErr
  | localLengthErr
  | localQpOperationErr
  | localProtectionErr
  | memoryMgtOperationErr
  | remoteInvalidRequestErr
  | workRequestFlushedErr
  | other
  deriving DecidableEq, Repr

structure RdmaCqeResponder where
  status : RdmaCqeRespSts
  rqConsOrSrqId : BitVec 16
  length : BitVec 32
  srqWrId : ℕ
  /-- `QEDR_RESP_IMM`. -/
  imm : Bool
  /-- `QEDR_RESP_RDMA`. -/
  rdma : Bool
  deriving DecidableEq, Repr

/-- `qedr_cqe_resp_status_to_ib`. -/
def RdmaCqeRespSts.toIb : RdmaCqeRespSts → IbWcStatus
  | .localAccessErr => .locAccessErr
  | .localLengthErr => .locLenErr
  | .localQpOperationErr => .locQpOpErr
  | .localProtectionErr => .locProtErr
  | .memoryMgtOperationErr => .mwBindErr
  | .remoteInvalidRequestErr => .remInvRdReqErr
  | .ok => .success
  | _ => .generalErr

/-- `__process_resp_one`. -/
def respWc (qp : ℕ) (resp : RdmaCqeResponder) (wrId : ℕ) : IbWc where
  qp := qp
  recv := true
  status := resp.status.toIb
  wrId := wrId
  opcode := some (if resp.status = .ok ∧ resp.imm ∧ resp.rdma then .recvRdmaWithImm else .recv)
  byteLen := if resp.status = .ok then some resp.length.toNat else none

def flushWc (qp wrId : ℕ) : IbWc := ⟨qp, true, .wrFlushErr, wrId, none, some 0⟩

namespace Rq

/-- A receive is completed with the entry `wc`. -/
def respTurn (wc : ℕ → IbWc) (rq : Rq) : Rq × WrDone :=
  let e := rq.rqeWrId rq.wq.cons
  ({ wq := rq.wq.complete e.wqeSize
     rqeWrId := Function.update rq.rqeWrId rq.wq.cons { e with wqeSize := 2 ^ 8 - 1 } },
    ⟨consumeList e.wqeSize rq.wq.pbl, some (wc e.wrId)⟩)

def processRespOne (qp : ℕ) (resp : RdmaCqeResponder) (rq : Rq) : Rq × List WrDone :=
  let r := rq.respTurn (respWc qp resp)
  (r.1, [r.2])

def processRespFlush (qp numEntries hwCons : ℕ) (rq : Rq) : Rq × List WrDone :=
  drain (fun s => s.wq.wqeCons == hwCons) (respTurn (flushWc qp)) (·.wc.isSome)
    (Word.sub 16 hwCons rq.wq.wqeCons) numEntries rq

end Rq

/-- `process_resp_one_srq`: the id is in the CQE. -/
def processRespOneSrq (qp : ℕ) (resp : RdmaCqeResponder) : WrDone where
  elems := []
  wc := some (if resp.status = .workRequestFlushedErr then flushWc qp resp.srqWrId
    else respWc qp resp resp.srqWrId)

end FastLinQ.Qedr
