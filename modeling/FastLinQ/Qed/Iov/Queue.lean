import FastLinQ.Qed.Iov.Ll2

/-!
# Queues of a VF

The mailbox handlers that open, close and update the queues of a VF. A queue is opened on one of the
queue zones of the VF with one of its status blocks; what firmware is told about it is put down in a
`QueueCid`, and closing or updating the queue only uses that.

Each handler is given with the ramrods that it posts and the places of the arrays of the record that
it uses. `VfInfo.Owns` says that such a ramrod names the VF and what the VF was given,
`VfAccess.InArray` that a place is in its array.
-/

namespace FastLinQ.Qed

open List VfInfo Nat QueueCid Option

def QED_IOV_LEGACY_QID_RX : ℕ := 0
def QED_IOV_LEGACY_QID_TX : ℕ := 1
def QED_IOV_QID_INVALID : ℕ := 0xFE

def VFPF_ACQUIRE_CAP_PRE_FP_HSI : ℕ := 1
def VFPF_ACQUIRE_CAP_100G : ℕ := 2
def VFPF_ACQUIRE_CAP_QUEUE_QIDS : ℕ := 4

inductive VfAccess
  | iguSbs (i : ℕ)
  | vfQueues (i : ℕ)
  | handlers (i : ℕ)
  deriving DecidableEq, Repr

structure MbxReply where
  mngr : CxtMngr
  vf : VfInfo
  ramrods : List VfRamrod
  accesses : List VfAccess

/-- The acquire message of the VF had a capability. -/
def VfInfo.hasCap (vf : VfInfo) (cap : ℕ) : Bool := vf.capabilities &&& cap != 0

/-- `qed_iov_vf_mbx_qid`, for the value of the QID TLV if there is one. -/
def qedIovVfMbxQid (vf : VfInfo) (isTx : Bool) (qidTlv : Option ℕ) : ℕ :=
  if !vf.hasCap VFPF_ACQUIRE_CAP_QUEUE_QIDS then
    if isTx then QED_IOV_LEGACY_QID_TX else QED_IOV_LEGACY_QID_RX
  else
    match qidTlv with
    | none => QED_IOV_QID_INVALID
    | some qid => if MAX_QUEUES_PER_QZONE ≤ qid then QED_IOV_QID_INVALID else qid

def qedIovValidateQueue (vf : VfInfo) (qid : ℕ) (mode : ValidateQMode) (isTx : Bool) : Bool :=
  if isTx then qedIovValidateTxq vf qid mode else qedIovValidateRxq vf qid mode

/-- What the check of a queue reads of `vf_queues`. -/
def queueReads (vf : VfInfo) (qid : ℕ) (mode : ValidateQMode) (isTx : Bool) : List VfAccess :=
  if mode = .na ∨ (if isTx then vf.numTxqs else vf.numRxqs) ≤ qid then [] else [.vfQueues qid]

/-- What the check of a status block may read of `igu_sbs`. -/
def sbReads (vf : VfInfo) : List VfAccess := (range vf.numSbs).map .iguSbs

/-- A queue is opened or closed at a place of a queue zone. -/
def VfInfo.setCid (vf : VfInfo) (qid idx : ℕ) (q : VfQueueCid) : VfInfo :=
  { vf with
    vfQueues := Function.update vf.vfQueues qid
      { vf.vfQueues qid with cids := Function.update (vf.vfQueues qid).cids idx q } }

/-! ## Opening a queue -/

/-- `struct vfpf_start_rxq_tlv` and `struct vfpf_start_txq_tlv`, with the QID TLV of the request. -/
structure StartQueueReq where
  qid : ℕ
  hwSb : ℕ
  sbIndex : ℕ
  qidTlv : Option ℕ
  deriving DecidableEq, Repr

/-- What a queue meets: whether there is memory for it, and what becomes of its ramrod. -/
structure QueueFate where
  alloc : Bool
  ramrod : SpFate
  deriving DecidableEq, Repr

/-- `qed_eth_queue_to_cid` for a queue of a VF. -/
def qedEthQueueToCid (hw : Ll2Hw) (alloc : Bool) (mngr : CxtMngr) (vf : VfInfo)
    (req : StartQueueReq)
    (isTx : Bool) (idx queueId : ℕ) : CxtMngr × Option QueueCid :=
  let legacy := !vf.hasCap VFPF_ACQUIRE_CAP_QUEUE_QIDS
  let acquired :=
    if legacy then (mngr, some (req.qid % 2 ^ 8))
    else qedCxtAcquireCid hw.maxNumVfs mngr PROTOCOLID_ETH vf.relativeVfId
  match acquired.2 with
  | none => (acquired.1, none)
  | some cid =>
    match qedFwVport hw.resc vf.vportId, qedFwL2Queue hw.resc queueId, alloc with
    | some _, some absQueueId, true =>
      (acquired.1, some
        { relQueueId := queueId
          absQueueId := absQueueId
          sbIguId := req.hwSb
          sbIdx := req.sbIndex
          cid := cid
          opaqueFid := vf.opaqueFid
          isRx := !isTx
          vfid := vf.relativeVfId
          vfQid := req.qid % 2 ^ 8
          qidUsageIdx := idx
          vfLegacyCid := legacy })
    | _, _, _ =>
      (if legacy then acquired.1
        else qedCxtReleaseCid hw.maxNumVfs acquired.1 cid vf.relativeVfId, none)

def qedEthQueueCidRelease (hw : Ll2Hw) (mngr : CxtMngr) (c : QueueCid) : CxtMngr :=
  if c.vfLegacyCid then mngr else qedCxtReleaseCid hw.maxNumVfs mngr c.cid c.vfid

/-- The ramrod of `qed_eth_rxq_start_ramrod`. -/
def QueueCid.rxqStart (c : QueueCid) : VfRamrod :=
  ⟨.rxQueueStart, c.opaqueFid, c.cid, some c.sbIguId, some c.absQueueId⟩

/-- The ramrod of `qed_eth_txq_start_ramrod`. -/
def QueueCid.txqStart (c : QueueCid) : VfRamrod :=
  ⟨.txQueueStart, c.opaqueFid, c.cid, some c.sbIguId, some c.absQueueId⟩

/-- A queue that passed the checks is opened in firmware, and put down if that succeeds. -/
def openQueue (hw : Ll2Hw) (req : StartQueueReq) (f : QueueFate) (mngr : CxtMngr) (vf : VfInfo)
    (isTx : Bool) (ramrod : QueueCid → VfRamrod) (idx queueId : ℕ) (reads : List VfAccess) :
    MbxReply :=
  match qedEthQueueToCid hw f.alloc mngr vf req isTx idx queueId with
  | (m, none) => ⟨m, vf, [], reads⟩
  | (m, some c) =>
    let ramrods := if f.ramrod.posted then [ramrod c] else []
    if f.ramrod = .done then ⟨m, vf.setCid req.qid idx ⟨isTx, some c⟩, ramrods, reads⟩
    else ⟨qedEthQueueCidRelease hw m c, vf, ramrods, reads⟩

/-- The handler of a start message: the queue zone is checked in a mode, and the queue has an id
that the direction takes from the queue zone. -/
def mbxStartQueue (hw : Ll2Hw) (req : StartQueueReq) (f : QueueFate) (mngr : CxtMngr) (vf : VfInfo)
    (isTx : Bool) (ramrod : QueueCid → VfRamrod) (mode : ValidateQMode) (queueId : ℕ) : MbxReply :=
  if !qedIovValidateQueue vf req.qid mode isTx then
    ⟨mngr, vf, [], queueReads vf req.qid mode isTx⟩
  else if !qedIovValidateSb vf req.hwSb then
    ⟨mngr, vf, [], queueReads vf req.qid mode isTx ++ sbReads vf⟩
  else if qedIovVfMbxQid vf isTx req.qidTlv = QED_IOV_QID_INVALID then
    ⟨mngr, vf, [], queueReads vf req.qid mode isTx ++ sbReads vf⟩
  else if ((vf.vfQueues req.qid).cids (qedIovVfMbxQid vf isTx req.qidTlv)).pCid.isSome then
    ⟨mngr, vf, [], queueReads vf req.qid mode isTx ++ sbReads vf ++ [.vfQueues req.qid]⟩
  else
    openQueue hw req f mngr vf isTx ramrod (qedIovVfMbxQid vf isTx req.qidTlv) queueId
      (queueReads vf req.qid mode isTx ++ sbReads vf ++ [.vfQueues req.qid])

/-- The id of an Rx queue is cut to 8 bits. -/
def qedIovVfMbxStartRxq (hw : Ll2Hw) (req : StartQueueReq) (f : QueueFate) (mngr : CxtMngr)
    (vf : VfInfo) : MbxReply :=
  mbxStartQueue hw req f mngr vf false rxqStart .disable
    ((vf.vfQueues req.qid).fwRxQid % 2 ^ 8)

def qedIovVfMbxStartTxq (hw : Ll2Hw) (req : StartQueueReq) (f : QueueFate) (mngr : CxtMngr)
    (vf : VfInfo) : MbxReply :=
  mbxStartQueue hw req f mngr vf true txqStart .na (vf.vfQueues req.qid).fwTxQid

/-! ## Closing a queue -/

/-- `struct vfpf_stop_rxqs_tlv` and `struct vfpf_stop_txqs_tlv`, with the QID TLV of the request. -/
structure StopQueueReq where
  num : ℕ
  qid : ℕ
  qidTlv : Option ℕ
  deriving DecidableEq, Repr

def QueueCid.rxqStop (c : QueueCid) : VfRamrod :=
  ⟨.rxQueueStop, c.opaqueFid, c.cid, none, some c.absQueueId⟩

/-- The ramrod of `qed_eth_pf_tx_queue_stop`, which has no data. -/
def QueueCid.txqStop (c : QueueCid) : VfRamrod := ⟨.txQueueStop, c.opaqueFid, c.cid, none, none⟩

/-- `qed_iov_vf_stop_rxqs` and `qed_iov_vf_stop_txqs`. -/
def stopQueue (hw : Ll2Hw) (qid idx : ℕ) (fate : SpFate) (mngr : CxtMngr) (vf : VfInfo)
    (isTx : Bool)
    (ramrod : QueueCid → VfRamrod) : MbxReply :=
  if !qedIovValidateQueue vf qid .na isTx then ⟨mngr, vf, [], []⟩
  else
    match (vf.vfQueues qid).cids idx with
    | ⟨_, none⟩ => ⟨mngr, vf, [], [.vfQueues qid]⟩
    | ⟨tx, some c⟩ =>
      if tx ≠ isTx then ⟨mngr, vf, [], [.vfQueues qid]⟩
      else
        let ramrods := if fate.posted then [ramrod c] else []
        if fate = .done then
          ⟨qedEthQueueCidRelease hw mngr c, vf.setCid qid idx ⟨tx, none⟩, ramrods, [.vfQueues qid]⟩
        else ⟨mngr, vf, ramrods, [.vfQueues qid]⟩

def mbxStopQueue (hw : Ll2Hw) (req : StopQueueReq) (fate : SpFate) (mngr : CxtMngr) (vf : VfInfo)
    (isTx : Bool) (ramrod : QueueCid → VfRamrod) : MbxReply :=
  if req.num ≠ 1 then ⟨mngr, vf, [], []⟩
  else if qedIovVfMbxQid vf isTx req.qidTlv = QED_IOV_QID_INVALID then ⟨mngr, vf, [], []⟩
  else stopQueue hw req.qid (qedIovVfMbxQid vf isTx req.qidTlv) fate mngr vf isTx ramrod

def qedIovVfMbxStopRxqs (hw : Ll2Hw) (req : StopQueueReq) (fate : SpFate) (mngr : CxtMngr)
    (vf : VfInfo) : MbxReply :=
  mbxStopQueue hw req fate mngr vf false rxqStop

def qedIovVfMbxStopTxqs (hw : Ll2Hw) (req : StopQueueReq) (fate : SpFate) (mngr : CxtMngr)
    (vf : VfInfo) : MbxReply :=
  mbxStopQueue hw req fate mngr vf true txqStop

/-! ## Updating Rx queues -/

/-- `struct vfpf_update_rxq_tlv`: a 16-bit queue index and an 8-bit number. -/
structure UpdateRxqReq where
  rxQid : BitVec 16
  numRxqs : BitVec 8
  qidTlv : Option ℕ
  deriving DecidableEq, Repr

/-- The loop that checks `n` queues from `i` on; the check gets 16 bits of `i`, the array all of
it. -/
def updateChecks (vf : VfInfo) (idx : ℕ) : ℕ → ℕ → List VfAccess × Bool
  | 0, _ => ([], true)
  | n + 1, i =>
    if !qedIovValidateRxq vf (i % 2 ^ 16) .na then ([], false)
    else if ((vf.vfQueues i).cids idx).pCid.isNone || ((vf.vfQueues i).cids idx).isTx then
      ([.vfQueues i], false)
    else (.vfQueues i :: (updateChecks vf idx n (i + 1)).1, (updateChecks vf idx n (i + 1)).2)

def QueueCid.rxqUpdate (c : QueueCid) : VfRamrod :=
  ⟨.rxQueueUpdate, c.opaqueFid, c.cid, none, some c.absQueueId⟩

/-- `qed_sp_eth_rx_queues_update` from handler `i` on: the first ramrod that fails is the last. -/
def qedSpEthRxQueuesUpdate (fates : ℕ → SpFate) : ℕ → List QueueCid → List VfRamrod
  | _, [] => []
  | i, c :: l =>
    match fates i with
    | .noEntry => []
    | .failed => [c.rxqUpdate]
    | .done => c.rxqUpdate :: qedSpEthRxQueuesUpdate fates (i + 1) l

/-- The queue of a turn of the second loop, in 16 bits. -/
def UpdateRxqReq.qid (req : UpdateRxqReq) (j : ℕ) : ℕ := (req.rxQid.toNat + j) % 2 ^ 16

/-- The queues of the handlers; after the checks none of them is null. -/
def UpdateRxqReq.handlers (req : UpdateRxqReq) (vf : VfInfo) (idx : ℕ) : List QueueCid :=
  (range req.numRxqs.toNat).filterMap fun j => ((vf.vfQueues (req.qid j)).cids idx).pCid

def qedIovVfMbxUpdateRxqs (req : UpdateRxqReq) (fates : ℕ → SpFate) (mngr : CxtMngr) (vf : VfInfo) :
    MbxReply :=
  let idx := qedIovVfMbxQid vf false req.qidTlv
  let checks := updateChecks vf idx req.numRxqs.toNat req.rxQid.toNat
  if idx = QED_IOV_QID_INVALID then ⟨mngr, vf, [], []⟩
  else if vf.hasCap VFPF_ACQUIRE_CAP_QUEUE_QIDS && req.numRxqs.toNat != 1 then ⟨mngr, vf, [], []⟩
  else if !checks.2 then ⟨mngr, vf, [], checks.1⟩
  else
    ⟨mngr, vf, qedSpEthRxQueuesUpdate fates 0 (req.handlers vf idx),
      checks.1 ++ (range req.numRxqs.toNat).flatMap
        fun j => [.vfQueues (req.qid j), .handlers j]⟩

/-! ## What belongs to a VF -/

def VfAccess.InArray : VfAccess → Prop
  | .iguSbs i => i < QED_MAX_VF_CHAINS_PER_PF
  | .vfQueues i => i < QED_MAX_QUEUE_VF_CHAINS_PER_PF
  | .handlers i => i < QED_MAX_QUEUE_VF_CHAINS_PER_PF

def VfInfo.HasSb (vf : VfInfo) (sb : ℕ) : Prop := ∃ i < vf.numSbs, vf.iguSbs i = sb

/-- The absolute id of a queue of the VF in a direction. -/
def VfInfo.HasQueue (hw : Ll2Hw) (vf : VfInfo) (isTx : Bool) (queueId : ℕ) : Prop :=
  ∃ i < vf.numRxqs, qedFwL2Queue hw.resc
    (if isTx then (vf.vfQueues i).fwTxQid else (vf.vfQueues i).fwRxQid) = some queueId

/-- A ramrod names the VF by its opaque FID, status blocks and queues of the VF, and the LL2 queue
that its id gives it. The ramrods that close an LL2 queue go by the CID. -/
structure VfInfo.Owns (hw : Ll2Hw) (vf : VfInfo) (fid : ℕ) (r : VfRamrod) : Prop where
  opaqueFid : r.opaqueFid = fid
  sb : ∀ sb, r.sbId = some sb → vf.HasSb sb
  queue : ∀ queueId, r.queueId = some queueId →
    match r.kind with
    | .rxQueueStart | .rxQueueStop | .rxQueueUpdate => vf.HasQueue hw false queueId
    | .txQueueStart | .txQueueStop => vf.HasQueue hw true queueId
    | .ll2RxStart => queueId = qedLl2HandleToQueueId hw vf.relativeVfId
    | .ll2RxStop | .ll2TxStart | .ll2TxStop => True

structure VfInfo.OwnsCid (hw : Ll2Hw) (vf : VfInfo) (fid : ℕ) (isTx : Bool) (c : QueueCid) :
    Prop where
  opaqueFid : c.opaqueFid = fid
  sb : vf.HasSb c.sbIguId
  queue : vf.HasQueue hw isTx c.absQueueId

/-- What the PF gave a VF and no message changes. -/
structure SameGrant (v vf : VfInfo) : Prop where
  numRxqs : vf.numRxqs = v.numRxqs
  numTxqs : vf.numTxqs = v.numTxqs
  numSbs : vf.numSbs = v.numSbs
  numCnqs : vf.numCnqs = v.numCnqs
  iguSbs : vf.iguSbs = v.iguSbs
  fwRxQid : ∀ i, (vf.vfQueues i).fwRxQid = (v.vfQueues i).fwRxQid
  fwTxQid : ∀ i, (vf.vfQueues i).fwTxQid = (v.vfQueues i).fwTxQid
  relativeVfId : vf.relativeVfId = v.relativeVfId
  cnqSbStartId : vf.cnqSbStartId ≤ v.cnqSbStartId

/-- The bounds that the arrays of a VF were made for. -/
structure VfInfo.Granted (v : VfInfo) : Prop where
  numRxqs : v.numRxqs ≤ QED_MAX_QUEUE_VF_CHAINS_PER_PF
  numTxqs : v.numTxqs = v.numRxqs
  numCnqs : v.numCnqs ≤ QED_MAX_CNQ_VF_CHAINS_PER_PF
  numSbs : v.cnqSbStartId + v.numCnqs ≤ v.numSbs
  chains : v.numSbs ≤ QED_MAX_VF_CHAINS_PER_PF

/-- The record of a VF that was given `v`, with queues that are open with its FID and what it was
given. -/
structure VfOwn (hw : Ll2Hw) (v : VfInfo) (fid : ℕ) (vf : VfInfo) : Prop where
  grant : SameGrant v vf
  cids : ∀ qid idx isTx c, (vf.vfQueues qid).cids idx = ⟨isTx, some c⟩ → v.OwnsCid hw fid isTx c

/-- What a message leaves keeps to what the VF was given. -/
structure MbxReply.Contained (hw : Ll2Hw) (v : VfInfo) (fid : ℕ) (r : MbxReply) : Prop where
  own : VfOwn hw v fid r.vf
  ramrods : ∀ p ∈ r.ramrods, v.Owns hw fid p
  accesses : ∀ a ∈ r.accesses, a.InArray

section Contained

variable {hw : Ll2Hw} {v vf : VfInfo} {fid qid : ℕ} {mngr m : CxtMngr} {isTx : Bool}

/-! ### The places that are used -/

theorem VfOwn.qid_lt (h : VfOwn hw v fid vf) (hv : v.Granted) {mode : ValidateQMode}
    (hq : qedIovValidateQueue vf qid mode isTx) : qid < v.numRxqs := by
  have hrx := h.grant.numRxqs
  have htx := h.grant.numTxqs
  have heq := hv.numTxqs
  refine Nat.lt_of_not_le fun hle => ?_
  cases isTx with
  | false => simp [qedIovValidateQueue, qedIovValidateRxq, hrx, hle] at hq
  | true => simp [qedIovValidateQueue, qedIovValidateTxq, htx, heq, hle] at hq

/-- A queue of the VF is in `vf_queues`. -/
theorem VfInfo.Granted.inQueues (hv : v.Granted) (hq : qid < v.numRxqs) :
    (VfAccess.vfQueues qid).InArray :=
  lt_of_lt_of_le hq hv.numRxqs

section

variable (h : VfOwn hw v fid vf)

include h

theorem VfOwn.queueReads (hv : v.Granted) (qid : ℕ) (mode : ValidateQMode) (isTx : Bool) :
    ∀ a ∈ queueReads vf qid mode isTx, a.InArray := by
  have hrx := h.grant.numRxqs
  have htx := h.grant.numTxqs.trans hv.numTxqs
  have hnum : (if isTx then vf.numTxqs else vf.numRxqs) = v.numRxqs := by
    cases isTx <;> simp [hrx, htx]
  unfold Qed.queueReads
  rw [hnum]
  split
  case isTrue => nofun
  case isFalse hne => simpa using hv.inQueues (not_le.mp (not_or.mp hne).2)

theorem VfOwn.sbReads (hv : v.Granted) : ∀ a ∈ sbReads vf, a.InArray := by
  intro a ha
  obtain ⟨i, hi, rfl⟩ := mem_map.mp ha
  have hlt := mem_range.mp hi
  rw [h.grant.numSbs] at hlt
  exact lt_of_lt_of_le hlt hv.chains

/-! ### The record -/

theorem VfOwn.quiet {reads : List VfAccess} (hreads : ∀ a ∈ reads, a.InArray) :
    MbxReply.Contained hw v fid ⟨m, vf, [], reads⟩ :=
  ⟨h, by nofun, hreads⟩

theorem VfOwn.of_same {vf' : VfInfo} (hgrant : SameGrant v vf') (hq : vf'.vfQueues = vf.vfQueues) :
    VfOwn hw v fid vf' :=
  ⟨hgrant, fun qid idx isTx c hc => h.cids qid idx isTx c (hq ▸ hc)⟩

end

theorem setCid_cids (qid idx : ℕ) (q : VfQueueCid) (qid' idx' : ℕ) :
    ((vf.setCid qid idx q).vfQueues qid').cids idx' =
      if qid' = qid ∧ idx' = idx then q else (vf.vfQueues qid').cids idx' := by
  unfold setCid
  by_cases hqid : qid' = qid
  · subst hqid
    by_cases hidx : idx' = idx
    · subst hidx
      simp
    · simp [hidx]
  · simp [hqid]

theorem setCid_zone (qid idx : ℕ) (q : VfQueueCid) (i : ℕ) :
    ((vf.setCid qid idx q).vfQueues i).fwRxQid = (vf.vfQueues i).fwRxQid ∧
      ((vf.setCid qid idx q).vfQueues i).fwTxQid = (vf.vfQueues i).fwTxQid := by
  unfold setCid
  by_cases hi : i = qid
  · subst hi
    simp
  · simp [hi]

/-- Opening or closing a queue keeps the grant; the queue has to be one of the VF. -/
theorem VfOwn.setCid (h : VfOwn hw v fid vf) {idx : ℕ} {q : VfQueueCid}
    (hq : ∀ c, q.pCid = some c → v.OwnsCid hw fid q.isTx c) :
    VfOwn hw v fid (vf.setCid qid idx q) := by
  refine ⟨{ h.grant with
    fwRxQid := fun i => (setCid_zone qid idx q i).1.trans (h.grant.fwRxQid i)
    fwTxQid := fun i => (setCid_zone qid idx q i).2.trans (h.grant.fwTxQid i) },
    fun qid' idx' isTx c hc => ?_⟩
  rw [setCid_cids] at hc
  split at hc
  · subst hc
    exact hq c rfl
  · exact h.cids qid' idx' isTx c hc

theorem VfOwn.hasSb (h : VfOwn hw v fid vf) {sb : ℕ} (hsb : qedIovValidateSb vf sb) :
    v.HasSb sb := by
  obtain ⟨i, hi, heq⟩ := any_eq_true.mp hsb
  rw [h.grant.numSbs] at hi
  rw [h.grant.iguSbs] at heq
  exact ⟨i, mem_range.mp hi, by simpa using heq⟩

/-! ### The ramrods -/

variable {c : QueueCid}

theorem VfInfo.OwnsCid.rxqStart (h : v.OwnsCid hw fid false c) : v.Owns hw fid c.rxqStart :=
  ⟨h.opaqueFid, fun _ hsb => some.inj hsb ▸ h.sb, fun _ hq => some.inj hq ▸ h.queue⟩

theorem VfInfo.OwnsCid.txqStart (h : v.OwnsCid hw fid true c) : v.Owns hw fid c.txqStart :=
  ⟨h.opaqueFid, fun _ hsb => some.inj hsb ▸ h.sb, fun _ hq => some.inj hq ▸ h.queue⟩

theorem VfInfo.OwnsCid.rxqStop (h : v.OwnsCid hw fid false c) : v.Owns hw fid c.rxqStop :=
  ⟨h.opaqueFid, nofun, fun _ hq => some.inj hq ▸ h.queue⟩

theorem VfInfo.OwnsCid.txqStop (h : v.OwnsCid hw fid true c) : v.Owns hw fid c.txqStop :=
  ⟨h.opaqueFid, nofun, nofun⟩

theorem VfInfo.OwnsCid.rxqUpdate (h : v.OwnsCid hw fid false c) : v.Owns hw fid c.rxqUpdate :=
  ⟨h.opaqueFid, nofun, fun _ hq => some.inj hq ▸ h.queue⟩

/-- A ramrod that may not be posted. -/
theorem owns_of_posted {fate : SpFate} {r : VfRamrod} (h : fate.posted → v.Owns hw fid r) :
    ∀ p ∈ (if fate.posted then [r] else []), v.Owns hw fid p := by
  intro p hp
  split at hp
  case isTrue hposted => exact mem_singleton.mp hp ▸ h hposted
  case isFalse => nomatch hp

/-! ### The handlers -/

theorem queueToCid_some {alloc : Bool} {req : StartQueueReq} {idx queueId : ℕ}
    (h : (qedEthQueueToCid hw alloc mngr vf req isTx idx queueId).2 = some c) :
    c.opaqueFid = vf.opaqueFid ∧ c.sbIguId = req.hwSb ∧
      qedFwL2Queue hw.resc queueId = some c.absQueueId := by
  unfold qedEthQueueToCid at h
  dsimp only at h
  split at h
  · nomatch h
  · split at h
    case h_1 _ habs =>
      obtain rfl := some.inj h
      exact ⟨rfl, rfl, habs⟩
    case h_2 => nomatch h

variable {ramrod : QueueCid → VfRamrod}

section

variable (h : VfOwn hw v fid vf)

include h

theorem VfOwn.openQueue {req : StartQueueReq} {f : QueueFate} {idx queueId : ℕ}
    {reads : List VfAccess} (hram : ∀ c, v.OwnsCid hw fid isTx c → v.Owns hw fid (ramrod c))
    (hreads : ∀ a ∈ reads, a.InArray) (hsb : v.HasSb req.hwSb)
    (hok : (openQueue hw req f mngr vf isTx ramrod idx queueId reads).ramrods ≠ [] →
      vf.opaqueFid = fid ∧
        ∀ id, qedFwL2Queue hw.resc queueId = some id → v.HasQueue hw isTx id) :
    (openQueue hw req f mngr vf isTx ramrod idx queueId reads).Contained hw v fid := by
  unfold Qed.openQueue at hok ⊢
  rcases heq : qedEthQueueToCid hw f.alloc mngr vf req isTx idx queueId with ⟨m, _ | c⟩
  · exact h.quiet hreads
  rw [heq] at hok
  -- the queue is only put down if its ramrod was posted
  have hc : f.ramrod.posted → v.OwnsCid hw fid isTx c := fun hp => by
    obtain ⟨hfid, hsbId, habs⟩ := queueToCid_some (congrArg Prod.snd heq)
    obtain ⟨hvf, hqueue⟩ := hok (by dsimp only; split <;> simp)
    exact ⟨hfid.trans hvf, hsbId ▸ hsb, hqueue _ habs⟩
  have hrams : ∀ p ∈ (if f.ramrod.posted then [ramrod c] else []), v.Owns hw fid p :=
    owns_of_posted fun hp => hram c (hc hp)
  dsimp only
  split
  case isTrue hdone =>
    refine ⟨h.setCid fun c' hc' => ?_, hrams, hreads⟩
    obtain rfl := some.inj hc'
    exact hc (by rw [hdone]; rfl)
  · exact ⟨h, hrams, hreads⟩

section

variable (hv : v.Granted)

include hv

theorem VfOwn.startQueue (req : StartQueueReq) (f : QueueFate) (mode : ValidateQMode) {queueId : ℕ}
    (hram : ∀ c, v.OwnsCid hw fid isTx c → v.Owns hw fid (ramrod c))
    (hok : (mbxStartQueue hw req f mngr vf isTx ramrod mode queueId).ramrods ≠ [] →
      vf.opaqueFid = fid ∧
        queueId = if isTx then (v.vfQueues req.qid).fwTxQid else (v.vfQueues req.qid).fwRxQid) :
    (mbxStartQueue hw req f mngr vf isTx ramrod mode queueId).Contained hw v fid := by
  have hreads := h.queueReads hv req.qid mode isTx
  have hsbs := forall_mem_append.mpr ⟨hreads, h.sbReads hv⟩
  revert hok
  unfold mbxStartQueue
  split
  · exact fun _ => h.quiet hreads
  case isFalse hval =>
    have hlt : req.qid < v.numRxqs := h.qid_lt hv (by simpa using hval)
    have hall : ∀ a ∈ Qed.queueReads vf req.qid mode isTx ++ Qed.sbReads vf ++
        [VfAccess.vfQueues req.qid], a.InArray :=
      forall_mem_append.mpr ⟨hsbs, by simpa using hv.inQueues hlt⟩
    split
    · exact fun _ => h.quiet hsbs
    case isFalse hsb =>
      split
      · exact fun _ => h.quiet hsbs
      · split
        · exact fun _ => h.quiet hall
        · intro hok
          refine h.openQueue hram hall (h.hasSb (by simpa using hsb)) fun hne => ?_
          obtain ⟨hfid, hid⟩ := hok hne
          exact ⟨hfid, fun id habs => ⟨req.qid, hlt, hid ▸ habs⟩⟩

theorem VfOwn.startRxq (req : StartQueueReq) (f : QueueFate)
    (hok : (qedIovVfMbxStartRxq hw req f mngr vf).ramrods ≠ [] →
      vf.opaqueFid = fid ∧ (vf.vfQueues req.qid).fwRxQid < 2 ^ 8) :
    (qedIovVfMbxStartRxq hw req f mngr vf).Contained hw v fid :=
  h.startQueue hv req f .disable (fun _ => OwnsCid.rxqStart) fun hne =>
    ⟨(hok hne).1, (mod_eq_of_lt (hok hne).2).trans (h.grant.fwRxQid _)⟩

theorem VfOwn.startTxq (req : StartQueueReq) (f : QueueFate)
    (hok : (qedIovVfMbxStartTxq hw req f mngr vf).ramrods ≠ [] → vf.opaqueFid = fid) :
    (qedIovVfMbxStartTxq hw req f mngr vf).Contained hw v fid :=
  h.startQueue hv req f .na (fun _ => OwnsCid.txqStart) fun hne =>
    ⟨hok hne, h.grant.fwTxQid _⟩

theorem VfOwn.stopQueue (idx : ℕ) (fate : SpFate)
    (hram : ∀ c, v.OwnsCid hw fid isTx c → v.Owns hw fid (ramrod c)) :
    (stopQueue hw qid idx fate mngr vf isTx ramrod).Contained hw v fid := by
  unfold Qed.stopQueue
  split
  · exact h.quiet nofun
  case isFalse hval =>
    have hread : ∀ a ∈ [VfAccess.vfQueues qid], a.InArray := by
      simpa using hv.inQueues (h.qid_lt hv (by simpa using hval))
    split
    · exact h.quiet hread
    case h_2 tx c hcid =>
      have hc := h.cids qid idx tx c hcid
      split
      · exact h.quiet hread
      case isFalse htx =>
        obtain rfl := Decidable.not_not.mp htx
        dsimp only
        split
        · exact ⟨h.setCid nofun, owns_of_posted fun _ => hram c hc, hread⟩
        · exact ⟨h, owns_of_posted fun _ => hram c hc, hread⟩

theorem VfOwn.mbxStop (req : StopQueueReq) (fate : SpFate)
    (hram : ∀ c, v.OwnsCid hw fid isTx c → v.Owns hw fid (ramrod c)) :
    (mbxStopQueue hw req fate mngr vf isTx ramrod).Contained hw v fid := by
  unfold mbxStopQueue
  split
  · exact h.quiet nofun
  · split
    · exact h.quiet nofun
    · exact h.stopQueue hv _ fate hram

/-- The checks of an update use queues of the VF, and if they pass all the queues are open. -/
theorem VfOwn.updateChecks (idx n i : ℕ) (hi : i ≤ 2 ^ 16 - 1) :
    (∀ a ∈ (updateChecks vf idx n i).1, a.InArray) ∧
      ((updateChecks vf idx n i).2 → ∀ j < n, i + j < v.numRxqs ∧
        ((vf.vfQueues (i + j)).cids idx).isTx = false) := by
  have hmax := hv.numRxqs
  unfold QED_MAX_QUEUE_VF_CHAINS_PER_PF at hmax
  induction n generalizing i with
  | zero => exact ⟨nofun, fun _ j hj => absurd hj (not_lt_zero j)⟩
  | succ n ih =>
    unfold Qed.updateChecks
    split
    · exact ⟨nofun, nofun⟩
    case isFalse hval =>
      -- the 16 bits of the index are the index, as the queues before it were in bounds
      rw [mod_eq_of_lt (by omega)] at hval
      have hrxq : qedIovValidateQueue vf i .na false := by simpa [qedIovValidateQueue] using hval
      have hlt := h.qid_lt hv hrxq
      split
      · exact ⟨by simpa using hv.inQueues hlt, nofun⟩
      case isFalse hopen =>
        obtain ⟨hreads, hrest⟩ := ih (i + 1) (by omega)
        refine ⟨?_, fun hok j hj => ?_⟩
        · simpa using ⟨hv.inQueues hlt, hreads⟩
        · cases j with
          | zero => exact ⟨hlt, by simp_all⟩
          | succ j => simpa [Nat.add_assoc, Nat.add_comm 1] using hrest hok j (by omega)

end

end

theorem owns_rxQueuesUpdate {fates : ℕ → SpFate} {i : ℕ} {l : List QueueCid}
    (h : ∀ c ∈ l, v.OwnsCid hw fid false c) :
    ∀ p ∈ qedSpEthRxQueuesUpdate fates i l, v.Owns hw fid p := by
  induction l generalizing i with
  | nil => nofun
  | cons c l ih =>
    have hc := (h c mem_cons_self).rxqUpdate
    unfold qedSpEthRxQueuesUpdate
    cases fates i with
    | noEntry => nofun
    | failed => simpa using hc
    | done =>
      simpa using ⟨hc, fun p hp => ih (fun c' hc' => h c' (mem_cons_of_mem c hc')) p hp⟩

theorem VfOwn.updateRxqs (h : VfOwn hw v fid vf) (hv : v.Granted) (req : UpdateRxqReq)
    (fates : ℕ → SpFate) : (qedIovVfMbxUpdateRxqs req fates mngr vf).Contained hw v fid := by
  have hmax := hv.numRxqs
  unfold QED_MAX_QUEUE_VF_CHAINS_PER_PF at hmax
  obtain ⟨hreads, hopen⟩ := h.updateChecks hv (qedIovVfMbxQid vf false req.qidTlv)
    req.numRxqs.toNat req.rxQid.toNat (by have := req.rxQid.isLt; omega)
  unfold qedIovVfMbxUpdateRxqs
  dsimp only
  split
  · exact h.quiet nofun
  · split
    · exact h.quiet nofun
    · split
      · exact h.quiet hreads
      case isFalse hok =>
        have hopen := hopen (by simpa using hok)
        have hqid : ∀ j < req.numRxqs.toNat, req.qid j = req.rxQid.toNat + j := fun j hj =>
          mod_eq_of_lt (by have := (hopen j hj).1; omega)
        refine ⟨h, owns_rxQueuesUpdate fun c hc => ?_, forall_mem_append.mpr ⟨hreads, ?_⟩⟩
        · obtain ⟨j, hj, hc⟩ := mem_filterMap.mp hc
          have hj := mem_range.mp hj
          rw [hqid j hj] at hc
          refine h.cids (req.rxQid.toNat + j) (qedIovVfMbxQid vf false req.qidTlv) false c ?_
          exact congrArg₂ VfQueueCid.mk (hopen j hj).2 hc
        · intro a ha
          obtain ⟨j, hj, ha⟩ := mem_flatMap.mp ha
          have hj := mem_range.mp hj
          have hlt := (hopen j hj).1
          rw [hqid j hj] at ha
          rcases mem_cons.mp ha with rfl | ha
          · exact hv.inQueues hlt
          · obtain rfl := mem_singleton.mp ha
            exact lt_of_lt_of_le (lt_of_le_of_lt (le_add_left j _) hlt) hv.numRxqs

end Contained

end FastLinQ.Qed
