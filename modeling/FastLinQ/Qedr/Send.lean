import FastLinQ.Foundations.Completion
import FastLinQ.Qedr.Queue

/-!
# Posting and completing sends

`__qedr_post_send` builds a work queue element (WQE) for a WR: a header in the first element of the
chain it is given, further elements for the second half of the header and for the scatter-gather
entries (SGE) or the inline data. The size of the WQE, in elements, is written into the header and
into the shadow entry; `process_req` consumes as many elements when the WR is completed. A WR that
turns out to be bad after elements were produced for it is rejected, and the producer of the chain
is put back.

Of the elements only their places are modelled, and of the header only `wqe_size`. Of an SGE only
the length matters. A queue with `max_wr` zero makes `qedr_wq_is_full` divide by zero.
-/

namespace FastLinQ.Qedr

open Qed Completion Function

/-! ## Data -/

/-- `enum ib_wr_opcode`; `other` are those that `__qedr_post_send` does not know. -/
inductive IbWrOpcode
  | rdmaWrite
  | rdmaWriteWithImm
  | send
  | sendWithImm
  | rdmaRead
  | atomicCmpAndSwp
  | atomicFetchAndAdd
  | sendWithInv
  | rdmaReadWithInv
  | localInv
  | regMr
  | other (opcode : ℕ)
  deriving DecidableEq, Repr

inductive IbWcOpcode
  | send
  | rdmaWrite
  | rdmaRead
  | compSwap
  | fetchAdd
  | localInv
  | regMr
  | recv
  | recvRdmaWithImm
  deriving DecidableEq, Repr

inductive IbWcStatus
  | success
  | locLenErr
  | locQpOpErr
  | locProtErr
  | wrFlushErr
  | mwBindErr
  | badRespErr
  | locAccessErr
  | remInvReqErr
  | remAccessErr
  | remOpErr
  | retryExcErr
  | rnrRetryExcErr
  | remInvRdReqErr
  | generalErr
  deriving DecidableEq, Repr

/-- `enum rdma_cqe_requester_status_enum`; `other` are values it does not have. -/
inductive RdmaCqeReqSts
  | ok
  | badResponseErr
  | localLengthErr
  | localQpOperationErr
  | localProtectionErr
  | memoryMgtOperationErr
  | remoteInvalidRequestErr
  | remoteAccessErr
  | remoteOperationErr
  | rnrNakRetryCntErr
  | transportRetryCntErr
  | workRequestFlushedErr
  | xrcViolationErr
  | sigErr
  | other
  deriving DecidableEq, Repr

/-- `struct ib_send_wr`; an SGE is its length. -/
structure IbSendWr where
  wrId : ℕ
  opcode : IbWrOpcode
  sgList : List (BitVec 32)
  /-- `IB_SEND_SIGNALED`. -/
  signaled : Bool
  /-- `IB_SEND_INLINE`. -/
  inline : Bool
  deriving DecidableEq, Repr

structure WqeWrId where
  wrId : ℕ
  opcode : IbWcOpcode
  bytesLen : ℕ
  wqeSize : ℕ
  signaled : Bool
  deriving DecidableEq, Repr

/-- The send side of `struct qedr_qp`. -/
structure Sq where
  wq : HwqInfo
  wqeWrId : ℕ → WqeWrId
  prevWqeSize : ℕ
  maxInlineData : ℕ
  signaled : Bool
  iwarp : Bool

/-- The chain of an SQ: room for the WRs the client asks for, of the largest size. -/
def sqChainParams (attrs : QpInitAttr) (extPbl : Option DmaBlock) : ChainParams :=
  let nSqEntries := max (min attrs.maxSendWr maxSqe) 1
  wqChainParams (nSqEntries * QEDR_MAX_SQE_ELEMENTS_PER_SQE % 2 ^ 32) QEDR_SQE_ELEMENT_SIZE extPbl

def Sq.fresh (dev : QedrDev) (attrs : QpInitAttr) (pbl : Chain) : Sq where
  wq := .fresh pbl attrs.maxSendSge
    (min (attrs.maxSendWr * dev.wqMultiplier % 2 ^ 32) maxSqe % 2 ^ 16)
  wqeWrId := fun _ => ⟨0, .send, 0, 0, false⟩
  prevWqeSize := 0
  maxInlineData :=
    if dev.iwarp then IWARP_REQ_MAX_INLINE_DATA_SIZE else ROCE_REQ_MAX_INLINE_DATA_SIZE
  signaled := attrs.sigAllWr
  iwarp := dev.iwarp

/-- The SQ part of `qedr_create_qp` for a kernel client. -/
def qedrCreateSq (env : DmaEnv) (dev : QedrDev) (attrs : QpInitAttr) (extPbl : Option DmaBlock) :
    Except AllocErr Sq :=
  if qedrCheckQpAttrs dev attrs then
    (qedChainAlloc env (sqChainParams attrs extPbl)).map (Sq.fresh dev attrs)
  else .error .einval

/-! ## Building a WQE -/

def sgeDataLen (sgList : List (BitVec 32)) : ℕ :=
  sgList.foldl (fun len sge => (len + sge.toNat) % 2 ^ 32) 0

/-- A WQE under construction: the chain, the elements it was given so far, the size in its header,
whether `*bad_wr` is set, and what goes into the shadow entry. -/
structure SqBuild where
  pbl : Chain
  elems : List ℕ
  wqeSize : ℕ
  bad : Bool
  /-- Whether the size is stored. -/
  stored : Bool
  bytesLen : Option ℕ

namespace SqBuild

def start (pbl : Chain) : SqBuild := ⟨pbl, [], 0, false, false, none⟩

def produce (b : SqBuild) : SqBuild :=
  { b with
    pbl := (qedChainProduce b.pbl).2
    elems := b.elems ++ [(qedChainProduce b.pbl).1] }

/-- The loop over one SGE of the inline data, for at most the given number of turns; each turn
copies at least one byte. `segSiz` bytes are left in the current element. -/
def copySge : ℕ → SqBuild → ℕ → ℕ → SqBuild × ℕ
  | 0, b, segSiz, _ => (b, segSiz)
  | t + 1, b, segSiz, len =>
    if len = 0 then (b, segSiz)
    else
      -- New segment required
      let r := if segSiz = 0 then
          ({ b.produce with wqeSize := (b.wqeSize + 1) % 2 ^ 8 }, QEDR_SQE_ELEMENT_SIZE)
        else (b, segSiz)
      let cur := min len r.2
      copySge t r.1 (r.2 - cur) (len - cur)

/-- The loop over the SGEs of the inline data. -/
def copySges (b : SqBuild) (sgList : List (BitVec 32)) : SqBuild × ℕ :=
  sgList.foldl (fun r sge => copySge sge.toNat r.1 r.2 sge.toNat) (b, 0)

/-- `qedr_prepare_sq_inline_data`, with the length it returns. -/
def qedrPrepareSqInlineData (b : SqBuild) (maxInlineData : ℕ) (wr : IbSendWr) (dataSize : ℕ) :
    SqBuild × ℕ :=
  if maxInlineData < dataSize then ({ b with bad := true }, 0)
  else if dataSize = 0 then (b, dataSize)
  else ((b.copySges wr.sgList).1, dataSize)

/-- `qedr_prepare_sq_sges`; `sized` is false if it is given no size to increase. -/
def qedrPrepareSqSges (b : SqBuild) (sized : Bool) (wr : IbSendWr) : SqBuild :=
  let b := produce^[wr.sgList.length] b
  if sized then { b with wqeSize := (b.wqeSize + wr.sgList.length) % 2 ^ 8 } else b

def qedrPrepareSqRdmaData (b : SqBuild) (maxInlineData : ℕ) (wr : IbSendWr) (dataSize : ℕ) :
    SqBuild × ℕ :=
  if wr.inline && (wr.opcode == .rdmaWriteWithImm || wr.opcode == .rdmaWrite) then
    b.qedrPrepareSqInlineData maxInlineData wr dataSize
  else (b.qedrPrepareSqSges true wr, dataSize)

def qedrPrepareSqSendData (b : SqBuild) (maxInlineData : ℕ) (wr : IbSendWr) (dataSize : ℕ) :
    SqBuild × ℕ :=
  if wr.inline then b.qedrPrepareSqInlineData maxInlineData wr dataSize
  else (b.qedrPrepareSqSges true wr, dataSize)

/-- The end of a branch of the switch: the size goes into the shadow entry, for some opcodes with
the length. -/
def store (b : SqBuild) : SqBuild := { b with stored := true }

def storeLen (r : SqBuild × ℕ) : SqBuild := { r.1 with stored := true, bytesLen := some r.2 }

/-- A header of two elements. -/
def header (b : SqBuild) : SqBuild := ({ b with wqeSize := 2 } : SqBuild).produce

def reject (b : SqBuild) : SqBuild := { b with bad := true }

end SqBuild

def qedrIbToWcOpcode : IbWrOpcode → IbWcOpcode
  | .rdmaWrite | .rdmaWriteWithImm => .rdmaWrite
  | .sendWithImm | .send | .sendWithInv => .send
  | .rdmaRead | .rdmaReadWithInv => .rdmaRead
  | .atomicCmpAndSwp => .compSwap
  | .atomicFetchAndAdd => .fetchAdd
  | .regMr => .regMr
  | .localInv => .localInv
  | .other _ => .send

namespace Sq

/-- The switch of `__qedr_post_send`, after the first element. -/
def buildWqe (sq : Sq) (b : SqBuild) (wr : IbSendWr) : SqBuild :=
  let dataSize := sgeDataLen wr.sgList
  match wr.opcode with
  | .sendWithImm =>
    -- SEND with immediate not supported over iWARP
    if sq.iwarp then b.reject
    else .storeLen (b.header.qedrPrepareSqSendData sq.maxInlineData wr dataSize)
  | .send | .sendWithInv =>
    .storeLen (b.header.qedrPrepareSqSendData sq.maxInlineData wr dataSize)
  | .rdmaWriteWithImm =>
    -- RDMA WRITE with immediate not supported over iWARP
    if sq.iwarp then b.reject
    else .storeLen (b.header.qedrPrepareSqRdmaData sq.maxInlineData wr dataSize)
  | .rdmaWrite | .rdmaRead | .rdmaReadWithInv =>
    .storeLen (b.header.qedrPrepareSqRdmaData sq.maxInlineData wr dataSize)
  | .atomicCmpAndSwp | .atomicFetchAndAdd =>
    .store ((({ b with wqeSize := 4 } : SqBuild).produce.produce).qedrPrepareSqSges false wr)
  | .localInv => .store { b with wqeSize := 1 }
  | .regMr => .store b.header
  | .other _ => b.reject

def qedrWqIsFull (sq : Sq) : Bool := (sq.wq.prod + 1) % sq.wq.maxWr == sq.wq.cons

def qedrCanPostSend (sq : Sq) (wr : IbSendWr) : Bool :=
  !sq.qedrWqIsFull && wr.sgList.length ≤ sq.wq.maxSges &&
    QEDR_MAX_SQE_ELEMENTS_PER_SQE ≤ qedChainGetElemLeftU32 sq.wq.pbl

end Sq

inductive SendErr
  | enomem
  | einval
  /-- The division by zero. -/
  | divide
  deriving DecidableEq, Repr

/-- What a call of `__qedr_post_send` does: its return code, the queue after it, the elements that
it wrote and the size in the header. -/
structure PostResult where
  rc : Except SendErr Unit
  sq : Sq
  elems : List ℕ
  wqeSize : ℕ

namespace Sq

/-- The shadow entry of the WR, without its id. -/
def shadow (sq : Sq) (b : SqBuild) (wr : IbSendWr) : WqeWrId :=
  let e := sq.wqeWrId sq.wq.prod
  { wrId := e.wrId
    opcode := qedrIbToWcOpcode wr.opcode
    bytesLen := b.bytesLen.getD e.bytesLen
    wqeSize := if b.stored then b.wqeSize else e.wqeSize
    signaled := wr.signaled || sq.signaled }

/-- The queue after a WR that was rejected with `*bad_wr`: the producer is put back to its position
before this WR was processed, and `prev_wqe_size` is restored from the header. -/
def restore (sq : Sq) (b : SqBuild) (wr : IbSendWr) (wqe : ℕ) : Sq :=
  { sq with
    wq := { sq.wq with pbl := qedChainSetProd b.pbl sq.wq.dbValue wqe }
    wqeWrId := update sq.wqeWrId sq.wq.prod (sq.shadow b wr)
    prevWqeSize := sq.prevWqeSize }

def accept (sq : Sq) (b : SqBuild) (wr : IbSendWr) : Sq :=
  { sq with
    wq := { ({ sq.wq with pbl := b.pbl } : HwqInfo).qedrIncSwProd with
      dbValue := (sq.wq.dbValue + 1) % 2 ^ 16 }
    wqeWrId := update sq.wqeWrId sq.wq.prod { sq.shadow b wr with wrId := wr.wrId }
    prevWqeSize := if b.stored then b.wqeSize else sq.prevWqeSize }

def build (sq : Sq) (wr : IbSendWr) : SqBuild := sq.buildWqe (SqBuild.start sq.wq.pbl).produce wr

def qedrPostSend (sq : Sq) (wr : IbSendWr) : PostResult :=
  if sq.wq.maxWr = 0 then ⟨.error .divide, sq, [], 0⟩
  else if !sq.qedrCanPostSend wr then ⟨.error .enomem, sq, [], 0⟩
  else
    let wqe := (qedChainProduce sq.wq.pbl).1
    let b := sq.build wr
    if b.bad then ⟨.error .einval, sq.restore b wr wqe, b.elems, b.wqeSize⟩
    else ⟨.ok (), sq.accept b wr, b.elems, b.wqeSize⟩

end Sq

/-! ## Completing -/

/-- `struct ib_wc`: the QP, which of its queues the entry is about, and the fields that are filled;
`none` where a field is left as it was. -/
structure IbWc where
  qp : ℕ
  recv : Bool
  status : IbWcStatus
  wrId : ℕ
  opcode : Option IbWcOpcode
  byteLen : Option ℕ
  deriving DecidableEq, Repr

/-- The entry that `process_req` fills. -/
def reqWc (qp : ℕ) (status : IbWcStatus) (e : WqeWrId) : IbWc where
  qp := qp
  recv := false
  status := status
  wrId := e.wrId
  opcode := some e.opcode
  byteLen :=
    match e.opcode with
    | .rdmaWrite | .rdmaRead | .send => some e.bytesLen
    | .compSwap | .fetchAdd => some 8
    | _ => none

/-- What a turn of a completion loop does: the elements it consumes and the entry it fills, if any.
-/
structure WrDone where
  elems : List ℕ
  wc : Option IbWc
  deriving DecidableEq, Repr

def entries (ds : List WrDone) : List IbWc := ds.filterMap WrDone.wc

namespace Sq

/-- One turn of `process_req`. Counting `wqe_size` down to zero leaves it at 255. -/
def reqTurn (qp : ℕ) (status : IbWcStatus) (force : Bool) (sq : Sq) : Sq × WrDone :=
  let e := sq.wqeWrId sq.wq.cons
  ({ sq with
      wq := sq.wq.complete e.wqeSize
      wqeWrId := update sq.wqeWrId sq.wq.cons { e with wqeSize := 2 ^ 8 - 1 } },
    ⟨consumeList e.wqeSize sq.wq.pbl,
      if !e.signaled && !force then none else some (reqWc qp status e)⟩)

/-- `process_req`. The loop has come to `hw_cons` after as many turns as the 16-bit counters are
apart. -/
def processReq (qp numEntries hwCons : ℕ) (status : IbWcStatus) (force : Bool) (sq : Sq) :
    Sq × List WrDone :=
  drain (fun s => s.wq.wqeCons == hwCons) (reqTurn qp status force) (·.wc.isSome)
    (Word.sub 16 hwCons sq.wq.wqeCons) numEntries sq

end Sq

/-- The inner switch of `qedr_poll_cq_req`. -/
def RdmaCqeReqSts.wcStatus : RdmaCqeReqSts → IbWcStatus
  | .badResponseErr => .badRespErr
  | .localLengthErr => .locLenErr
  | .localQpOperationErr => .locQpOpErr
  | .localProtectionErr => .locProtErr
  | .memoryMgtOperationErr => .mwBindErr
  | .remoteInvalidRequestErr => .remInvReqErr
  | .remoteAccessErr => .remAccessErr
  | .remoteOperationErr => .remOpErr
  | .rnrNakRetryCntErr => .rnrRetryExcErr
  | .transportRetryCntErr => .retryExcErr
  | _ => .generalErr

def Sq.qedrPollCqReq (qp numEntries sqCons : ℕ) (status : RdmaCqeReqSts) (sq : Sq) :
    Sq × List WrDone :=
  if status = .ok then sq.processReq qp numEntries sqCons .success false
  else if status = .workRequestFlushedErr then
    sq.processReq qp numEntries sqCons .wrFlushErr true
  else
    -- process all WQE before the consumer
    let r := sq.processReq qp numEntries (Word.sub 16 sqCons 1) .success false
    -- if we have extra WC fill it with actual error info
    if (entries r.2).length < numEntries then
      let r' := r.1.processReq qp 1 sqCons status.wcStatus true
      (r'.1, r.2 ++ r'.2)
    else r

end FastLinQ.Qedr
