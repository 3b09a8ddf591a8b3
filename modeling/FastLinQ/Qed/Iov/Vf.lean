import FastLinQ.Qed.Dev

/-!
# What a PF keeps for a VF

The PF holds one `VfInfo` for each of its VFs: the identifiers of the function, the queue zones and
status blocks that it was given, the queues that are open on them and the RSS configuration. The
checks of the mailbox handlers on a queue (`qedIovValidateRxq`, `qedIovValidateTxq`) and on a status
block (`qedIovValidateSb`) read that record only.
-/

namespace FastLinQ.Qed

open List

/-- `sizeof(unsigned long) * 8`. -/
def MAX_QUEUES_PER_QZONE : ℕ := 64

def QED_MAX_QUEUE_VF_CHAINS_PER_PF : ℕ := 16
def QED_MAX_CNQ_VF_CHAINS_PER_PF : ℕ := 16

def QED_MAX_VF_CHAINS_PER_PF : ℕ := QED_MAX_QUEUE_VF_CHAINS_PER_PF + QED_MAX_CNQ_VF_CHAINS_PER_PF

def QED_MAX_NUM_OF_LL2_CONNS_VF : ℕ := 1

def QED_RSS_IND_TABLE_SIZE : ℕ := 128

/-- `struct qed_queue_cid`: a queue that was opened in firmware. -/
structure QueueCid where
  relQueueId : ℕ
  absQueueId : ℕ
  sbIguId : ℕ
  sbIdx : ℕ
  cid : ℕ
  opaqueFid : ℕ
  isRx : Bool
  vfid : ℕ
  vfQid : ℕ
  qidUsageIdx : ℕ
  vfLegacyCid : Bool
  deriving DecidableEq, Repr

/-- `struct qed_vf_queue_cid`; `none` is the null pointer. -/
structure VfQueueCid where
  isTx : Bool
  pCid : Option QueueCid
  deriving DecidableEq, Repr

/-- `struct qed_vf_queue`: a queue zone of the VF and the queues that are open on it. -/
structure VfQueue where
  fwRxQid : ℕ
  fwTxQid : ℕ
  cids : ℕ → VfQueueCid

structure VfLl2Queue where
  cid : ℕ
  qid : ℕ
  used : Bool
  deriving DecidableEq, Repr

inductive VfState
  | free
  | acquired
  | enabled
  | reset
  | stopped
  deriving DecidableEq, Repr

/-- `struct qed_vf_info`. The RSS table that the PF has on record never exceeds the table of the
ramrod. -/
structure VfInfo where
  state : VfState
  init : Bool
  malicious : Bool
  opaqueFid : ℕ
  capabilities : ℕ
  vportId : ℕ
  rssEngId : ℕ
  rssEnabled : Bool
  rssIndTblValid : Bool
  rssIndTblSize : ℕ
  rssTblSize : ℕ
  rssTblSize_le : rssTblSize ≤ QED_RSS_IND_TABLE_SIZE
  relativeVfId : ℕ
  absVfId : ℕ
  vportInstance : ℕ
  numRxqs : ℕ
  numTxqs : ℕ
  numCnqs : ℕ
  actualNumRxqs : ℕ
  actualNumTxqs : ℕ
  cnqSbStartId : ℕ
  numSbs : ℕ
  vfQueues : ℕ → VfQueue
  vfLl2Queues : ℕ → VfLl2Queue
  iguSbs : ℕ → ℕ

/-! ## Setting up a VF -/

/-- `struct qed_iov_vf_init_params`. -/
structure VfInitParams where
  relVfId : ℕ
  numQueues : ℕ
  numCnqs : ℕ
  vportId : ℕ
  rssEngId : ℕ
  reqRxQueue : ℕ → ℕ
  reqTxQueue : ℕ → ℕ

/-- What the PF has for its VFs: its own opaque FID, the first VF of the PF, the number of Ethernet
CIDs, and the free status blocks. -/
structure VfPool where
  opaqueFid : ℕ
  firstVfInPf : ℕ
  ethCids : ℕ
  freeSbs : ℕ
  iguSbs : ℕ → ℕ

/-- The chains that a VF gets: one for each queue and each CNQ that it asks for, as long as there
are status blocks. -/
def VfPool.chains (pool : VfPool) (p : VfInitParams) : ℕ :=
  min (min p.numQueues pool.ethCids + p.numCnqs) pool.freeSbs % 2 ^ 8

/-- What becomes of a ramrod: there is no SPQ entry for it, or it is posted and fails or succeeds.
-/
inductive SpFate
  | noEntry
  | failed
  | done
  deriving DecidableEq, Repr

def SpFate.posted : SpFate → Bool
  | .noEntry => false
  | .failed | .done => true

inductive VfRamrodKind
  | rxQueueStart
  | rxQueueStop
  | rxQueueUpdate
  | txQueueStart
  | txQueueStop
  | ll2RxStart
  | ll2RxStop
  | ll2TxStart
  | ll2TxStop
  deriving DecidableEq, Repr

/-- A ramrod that the PF posts for a VF, with the status block and the queue that it names. -/
structure VfRamrod where
  kind : VfRamrodKind
  opaqueFid : ℕ
  cid : ℕ
  sbId : Option ℕ
  queueId : Option ℕ
  deriving DecidableEq, Repr

/-! ## The checks of the handlers -/

/-- The first queue of a direction that is open on a queue zone. -/
def VfQueue.firstCid (q : VfQueue) (isTx : Bool) : Option QueueCid :=
  (range MAX_QUEUES_PER_QZONE).findSome? fun i =>
    if (q.cids i).isTx = isTx then (q.cids i).pCid else none

def qedIovGetVfRxQueueCid (q : VfQueue) : Option QueueCid := q.firstCid false

inductive ValidateQMode
  | na
  | enable
  | disable
  deriving DecidableEq, Repr

def qedIovValidateQueueMode (vf : VfInfo) (qid : ℕ) (mode : ValidateQMode) (isTx : Bool) : Bool :=
  match mode, (vf.vfQueues qid).firstCid isTx with
  | .na, _ => true
  | mode, some _ => mode == .enable
  | mode, none => mode == .disable

def qedIovValidateRxq (vf : VfInfo) (rxQid : ℕ) (mode : ValidateQMode) : Bool :=
  if vf.numRxqs ≤ rxQid then false else qedIovValidateQueueMode vf rxQid mode false

def qedIovValidateTxq (vf : VfInfo) (txQid : ℕ) (mode : ValidateQMode) : Bool :=
  if vf.numTxqs ≤ txQid then false else qedIovValidateQueueMode vf txQid mode true

def qedIovValidateSb (vf : VfInfo) (sbIdx : ℕ) : Bool :=
  (range vf.numSbs).any fun i => vf.iguSbs i == sbIdx

/-- The queue that is open at a place of the queue zones of the VF. -/
def VfInfo.OpenAt (vf : VfInfo) (qid idx : ℕ) (isTx : Bool) (c : QueueCid) : Prop :=
  idx < MAX_QUEUES_PER_QZONE ∧ (vf.vfQueues qid).cids idx = ⟨isTx, some c⟩

theorem firstCid_eq_some {vf : VfInfo} {qid : ℕ} {isTx : Bool} {c : QueueCid}
    (h : (vf.vfQueues qid).firstCid isTx = some c) : ∃ idx, vf.OpenAt qid idx isTx c := by
  obtain ⟨idx, hmem, hc⟩ := exists_of_findSome?_eq_some h
  split at hc
  case isTrue hTx =>
    exact ⟨idx, mem_range.mp hmem, by rw [← hTx, ← hc]⟩
  case isFalse => nomatch hc

/-- A queue passes as enabled if it is one of the VF and a queue is open on it. -/
theorem validateRxq_enable {vf : VfInfo} {qid : ℕ} :
    qedIovValidateRxq vf qid .enable ↔
      qid < vf.numRxqs ∧ ∃ c, (vf.vfQueues qid).firstCid false = some c := by
  unfold qedIovValidateRxq
  split
  case isTrue h => simp [Nat.not_lt.mpr h]
  case isFalse h =>
    unfold qedIovValidateQueueMode
    cases hc : (vf.vfQueues qid).firstCid false <;> simp [Nat.not_le.mp h]

/-- VF 0, with a vport, one queue zone and no queues open. -/
def plainVf : VfInfo where
  state := .enabled
  init := true
  malicious := false
  opaqueFid := 0
  capabilities := 0
  vportId := 1
  rssEngId := 1
  rssEnabled := false
  rssIndTblValid := false
  rssIndTblSize := 1
  rssTblSize := 1
  rssTblSize_le := by decide
  relativeVfId := 0
  absVfId := 0
  vportInstance := 1
  numRxqs := 1
  numTxqs := 1
  numCnqs := 0
  actualNumRxqs := 1
  actualNumTxqs := 1
  cnqSbStartId := 1
  numSbs := 1
  vfQueues := fun _ => ⟨5, 5, fun _ => ⟨false, none⟩⟩
  vfLl2Queues := fun _ => ⟨0, 0, false⟩
  iguSbs := fun _ => 0

end FastLinQ.Qed
