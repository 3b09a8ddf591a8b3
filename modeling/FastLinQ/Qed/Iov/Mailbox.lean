import FastLinQ.Qed.Iov.Queue
import FastLinQ.Qed.Iov.Rss

/-!
# The mailbox of a VF

All messages that a VF can send to its PF, with what the handlers do to the record of the VF, the
ramrods that they post for queues and LL2 connections, and the places of the arrays of the record
that they use. Messages with no such effect are `MbxStep.other`. Between messages the VF may be
reset.

A VF is confined (`Confined`) if all that was posted and used so far belongs to it. Three fields of
the messages get there unchecked: the opaque FID of an acquire message, the status block of an LL2
connection and the number of CNQs of an RDMA start; and the id of an Rx queue is cut to 8 bits.
`confined_run` is the statement for runs in which they are in order.
-/

namespace FastLinQ.Qed

open Run List Nat Option VfAccess

def VFPF_ACQUIRE_CAP_ROCE : ℕ := 1 <<< 5
def VFPF_ACQUIRE_CAP_IWARP : ℕ := 1 <<< 6

def VFPF_RDMA_ACQUIRE_CAP_CNQ_SB_START_ID : ℕ := 1

def VFPF_ACQUIRE_OS_WINDOWS : ℕ := 1

def ETH_HSI_VER_MAJOR : ℕ := 3
def ETH_HSI_VER_NO_PKT_LEN_TUNN : ℕ := 5

def QED_MAX_MC_ADDRS : ℕ := 64

def QED_RFS_NTUPLE_QID_RSS : ℕ := 0xffff

structure MbxHw extends Ll2Hw where
  isCmt : Bool
  isVfRdma : Bool

instance : Coe MbxHw Ll2Hw := ⟨MbxHw.toLl2Hw⟩

/-! ## Acquire -/

/-- `struct vfpf_acquire_tlv`. -/
structure AcquireReq where
  capabilities : ℕ
  opaqueFid : ℕ
  osType : ℕ
  ethFpHsiMajor : ℕ
  ethFpHsiMinor : ℕ
  numRxqs : ℕ
  numTxqs : ℕ
  numSbs : ℕ
  numMacFilters : ℕ
  numVlanFilters : ℕ
  numMcFilters : ℕ
  numCids : ℕ
  deriving DecidableEq, Repr

/-- What the PF has for the VF besides its queues, and whether firmware starts the VF. -/
structure AcquireEnv where
  numMacFilters : ℕ
  numVlanFilters : ℕ
  numCids : ℕ
  vfStart : Bool
  deriving DecidableEq, Repr

def AcquireReq.hasCap (req : AcquireReq) (cap : ℕ) : Bool := req.capabilities &&& cap != 0

/-- The message gets past the checks of the state of the VF, of the HSI and of the 100G support. -/
def AcquireReq.admitted (hw : MbxHw) (vf : VfInfo) (req : AcquireReq) : Bool :=
  (vf.state == .free || vf.state == .stopped) &&
    (req.ethFpHsiMajor == ETH_HSI_VER_MAJOR || req.hasCap VFPF_ACQUIRE_CAP_PRE_FP_HSI) &&
    (!hw.isCmt || req.hasCap VFPF_ACQUIRE_CAP_100G)

/-- The minor version that the PF goes by. -/
def AcquireReq.minor (req : AcquireReq) : ℕ :=
  if req.ethFpHsiMajor = ETH_HSI_VER_MAJOR then req.ethFpHsiMinor else ETH_HSI_VER_NO_PKT_LEN_TUNN

def AcquireReq.lacks (vf : VfInfo) (req : AcquireReq) (env : AcquireEnv) : Bool :=
  let numSbs :=
    if req.hasCap VFPF_ACQUIRE_CAP_ROCE || req.hasCap VFPF_ACQUIRE_CAP_IWARP then vf.numSbs
    else vf.numRxqs
  decide (vf.numRxqs < req.numRxqs) || decide (vf.numTxqs < req.numTxqs) ||
    decide (numSbs < req.numSbs) || decide (env.numMacFilters < req.numMacFilters) ||
    decide (env.numVlanFilters < req.numVlanFilters) ||
    decide (QED_MAX_MC_ADDRS < req.numMcFilters) || decide (env.numCids < req.numCids)

/-- `qed_iov_vf_mbx_acquire_resc`; `none` if the VF is refused. -/
def qedIovVfMbxAcquireResc (vf : VfInfo) (req : AcquireReq) (env : AcquireEnv) : Option VfInfo :=
  if req.lacks vf env then
    if req.minor = ETH_HSI_VER_NO_PKT_LEN_TUNN ∧ req.osType = VFPF_ACQUIRE_OS_WINDOWS then some vf
    else none
  else some { vf with
    actualNumRxqs := min vf.numRxqs req.numRxqs
    actualNumTxqs := min vf.numTxqs req.numTxqs }

/-- The queues and status blocks that the response to an acquire message lists. -/
def acquireReads (vf : VfInfo) (req : AcquireReq) : List VfAccess :=
  (range (min vf.numRxqs req.numRxqs)).map .iguSbs ++
    (range (min vf.numRxqs req.numRxqs)).map .vfQueues

def VfInfo.storeAcquire (vf : VfInfo) (req : AcquireReq) : VfInfo :=
  { vf with capabilities := req.capabilities, opaqueFid := req.opaqueFid }

def qedIovVfMbxAcquire (hw : MbxHw) (req : AcquireReq) (env : AcquireEnv) (mngr : CxtMngr)
    (vf : VfInfo) : MbxReply :=
  if !req.admitted hw vf then ⟨mngr, vf, [], []⟩
  else
    match qedIovVfMbxAcquireResc (vf.storeAcquire req) req env with
    | none => ⟨mngr, vf.storeAcquire req, [], acquireReads vf req⟩
    | some vf' =>
      if env.vfStart then ⟨mngr, { vf' with state := .acquired }, [], acquireReads vf req⟩
      else ⟨mngr, vf', [], acquireReads vf req⟩

/-! ## The vport -/

/-- What a start of the vport meets: the addresses of the status blocks, whether the ramrod for the
vport succeeds, whether a VLAN is forced on the vport, and the ramrods that this sends. -/
structure VportStartEnv where
  sbAddr : ℕ → ℕ
  started : Bool
  forcedVlan : Bool
  fates : ℕ → SpFate

/-- The places of `vf_queues` up to a number. -/
def queuesBelow (n : ℕ) : List VfAccess := (range n).map .vfQueues

/-- What `qed_iov_enable_vf_traffic` and the loop over the status blocks use. -/
def vportStartReads (env : VportStartEnv) (vf : VfInfo) : List VfAccess :=
  sbReads vf ++ queuesBelow vf.numRxqs ++
    ((range vf.numRxqs).takeWhile fun i => env.sbAddr i != 0).map .iguSbs

theorem one_le_rssIndTableSize : 1 ≤ QED_RSS_IND_TABLE_SIZE := by decide

/-- The record after `qed_iov_vf_mbx_start_vport`. -/
def VfInfo.startVport (vf : VfInfo) (started : Bool) : VfInfo :=
  { vf with
    state := .enabled
    rssEnabled := false
    rssTblSize := 1
    rssTblSize_le := one_le_rssIndTableSize
    rssIndTblSize := 1
    rssIndTblValid := false
    vportInstance := if started then (vf.vportInstance + 1) % 2 ^ 8 else vf.vportInstance }

/-- The Rx queues that `qed_iov_configure_vport_forced` updates. -/
def VfInfo.rxCids (vf : VfInfo) : List QueueCid :=
  (range QED_MAX_QUEUE_VF_CHAINS_PER_PF).filterMap fun i => qedIovGetVfRxQueueCid (vf.vfQueues i)

def qedIovVfMbxStartVport (env : VportStartEnv) (mngr : CxtMngr) (vf : VfInfo) : MbxReply :=
  if env.started && (vf.startVport true).vportInstance != 0 && env.forcedVlan then
    ⟨mngr, vf.startVport true, qedSpEthRxQueuesUpdate env.fates 0 vf.rxCids,
      vportStartReads env vf ++ queuesBelow QED_MAX_QUEUE_VF_CHAINS_PER_PF⟩
  else ⟨mngr, vf.startVport env.started, [], vportStartReads env vf⟩

/-- `qed_iov_validate_active_rxq` and `qed_iov_validate_active_txq`. -/
def VfInfo.active (vf : VfInfo) : Bool :=
  (range vf.numRxqs).any (fun i => qedIovValidateQueueMode vf i .enable false) ||
    (range vf.numTxqs).any (fun i => qedIovValidateQueueMode vf i .enable true)

def qedIovVfMbxStopVport (mngr : CxtMngr) (vf : VfInfo) : MbxReply :=
  if vf.vportInstance = 0 then ⟨mngr, vf, [], []⟩
  else if vf.active then
    ⟨mngr, { vf with malicious := true }, [], queuesBelow vf.numRxqs ++ queuesBelow vf.numTxqs⟩
  else
    ⟨mngr, { vf with vportInstance := vf.vportInstance - 1 }, [],
      queuesBelow vf.numRxqs ++ queuesBelow vf.numTxqs⟩

/-- The queues that the check of an RSS table may look at. -/
def rssReads (vf : VfInfo) : Option RssTlv → List VfAccess
  | none => []
  | some tlv =>
    if tlv.ind then
      (((range (rssTableSize vf tlv)).map tlv.rssIndTable).filter (· < vf.numRxqs)).map .vfQueues
    else []

def mbxVportUpdate (env : VportUpdateEnv) (tlv : Option RssTlv) (mngr : CxtMngr) (vf : VfInfo) :
    MbxReply :=
  ⟨mngr, (qedIovVfMbxVportUpdate env vf tlv).1, [], rssReads vf tlv⟩

/-! ## Coalescing -/

def qedIovVfPfGetCoalesce (qid : ℕ) (isTx : Bool) (mngr : CxtMngr) (vf : VfInfo) : MbxReply :=
  if !qedIovValidateQueue vf qid .enable isTx then ⟨mngr, vf, [], queueReads vf qid .enable isTx⟩
  else ⟨mngr, vf, [], queueReads vf qid .enable isTx ++ [.vfQueues qid]⟩

def qedIovVfPfSetCoalesce (qid rxCoal txCoal : ℕ) (mngr : CxtMngr) (vf : VfInfo) : MbxReply :=
  let rxReads := queueReads vf qid .enable false
  let txReads := queueReads vf qid .enable true
  if !qedIovValidateQueue vf qid .enable false && rxCoal != 0 then ⟨mngr, vf, [], rxReads⟩
  else if !qedIovValidateQueue vf qid .enable true && txCoal != 0 then
    ⟨mngr, vf, [], rxReads ++ txReads⟩
  else
    ⟨mngr, vf, [], rxReads ++ txReads ++
      if rxCoal != 0 || txCoal != 0 then [.vfQueues qid] else []⟩

/-! ## Close and release -/

def VfInfo.openCids (vf : VfInfo) : List QueueCid :=
  (range QED_MAX_QUEUE_VF_CHAINS_PER_PF).flatMap fun i =>
    (range MAX_QUEUES_PER_QZONE).filterMap fun j => ((vf.vfQueues i).cids j).pCid

def VfInfo.closeQueues (vf : VfInfo) : VfInfo :=
  { vf with
    vfQueues := fun i =>
      if i < QED_MAX_QUEUE_VF_CHAINS_PER_PF then
        { vf.vfQueues i with
          cids := fun j =>
            if j < MAX_QUEUES_PER_QZONE then { (vf.vfQueues i).cids j with pCid := none }
            else (vf.vfQueues i).cids j }
      else vf.vfQueues i }

/-- The loop of `qed_iov_vf_cleanup` over the queues. -/
def releaseQueues (hw : MbxHw) (mngr : CxtMngr) (vf : VfInfo) : CxtMngr :=
  vf.openCids.foldl (qedEthQueueCidRelease hw) mngr

def qedIovVfMbxRelease (hw : MbxHw) (mngr : CxtMngr) (vf : VfInfo) : MbxReply :=
  ⟨releaseQueues hw mngr vf,
    { vf.closeQueues with
      vportInstance := 0
      capabilities := 0
      state := if vf.state ≠ .stopped ∧ vf.state ≠ .free then .stopped else vf.state },
    [], queuesBelow QED_MAX_QUEUE_VF_CHAINS_PER_PF⟩

/-! ## RDMA -/

/-- `struct vfpf_rdma_acquire_tlv`. -/
structure RdmaAcquireReq where
  capabilities : ℕ
  numCnqs : ℕ
  cnqSbStartId : ℕ
  deriving DecidableEq, Repr

def RdmaAcquireReq.hasStart (req : RdmaAcquireReq) : Bool :=
  req.capabilities &&& VFPF_RDMA_ACQUIRE_CAP_CNQ_SB_START_ID != 0

def cnqSbs (vf : VfInfo) (cnqs : List ℕ) : List VfAccess :=
  cnqs.map fun i => .iguSbs (vf.cnqSbStartId + i)

/-- The record with the first status block for CNQs that the VF publishes. -/
def VfInfo.publishCnqs (vf : VfInfo) (req : RdmaAcquireReq) : VfInfo :=
  { vf with
    cnqSbStartId := if req.hasStart then min vf.cnqSbStartId req.cnqSbStartId else vf.cnqSbStartId }

def qedIovVfPfRdmaAcquire (hw : MbxHw) (req : RdmaAcquireReq) (mngr : CxtMngr) (vf : VfInfo) :
    MbxReply :=
  if !hw.isVfRdma then ⟨mngr, vf, [], []⟩
  else if qedLl2HandleToQueueId hw vf.relativeVfId = QED_LL2_INVALID_QID then
    ⟨mngr, vf, [], []⟩
  else if min vf.numCnqs req.numCnqs = 0 ∨ vf.numCnqs < req.numCnqs then ⟨mngr, vf, [], []⟩
  else if req.hasStart && decide (req.cnqSbStartId < max vf.actualNumRxqs vf.actualNumTxqs) then
    ⟨mngr, vf, [], []⟩
  else
    ⟨mngr, vf.publishCnqs req, [],
      cnqSbs (vf.publishCnqs req) (range req.numCnqs) ++ queuesBelow req.numCnqs⟩

/-- `struct vfpf_rdma_start_tlv`, with what it meets: the parameters are copied, and the ramrod is
built. -/
structure RdmaStartReq where
  sbAddr : ℕ → ℕ
  desiredCnq : ℕ
  params : Bool
  startFw : Bool

def qedIovVfPfRdmaStart (req : RdmaStartReq) (mngr : CxtMngr) (vf : VfInfo) : MbxReply :=
  if !req.params then ⟨mngr, vf, [], []⟩
  else
    ⟨mngr, vf, [], cnqSbs vf ((range vf.numCnqs).takeWhile fun i => req.sbAddr i != 0) ++
      if req.startFw then cnqSbs vf (range req.desiredCnq) ++ queuesBelow req.desiredCnq
      else []⟩

/-! ## Filters -/

/-- The check of the queue never refuses: it compares a truth value with
`QED_IOV_VALIDATE_Q_DISABLE`, which is 2. -/
def qedIovVfMbxFilterCfg (qid : ℕ) (mngr : CxtMngr) (vf : VfInfo) : MbxReply :=
  ⟨mngr, vf, [],
    if qid ≠ QED_RFS_NTUPLE_QID_RSS ∧ qid < QED_MAX_QUEUE_VF_CHAINS_PER_PF then [.vfQueues qid]
    else []⟩

/-! ## The mailbox -/

inductive MbxMsg
  | acquire (req : AcquireReq) (env : AcquireEnv)
  | vportStart (env : VportStartEnv)
  | vportTeardown
  | startRxq (req : StartQueueReq) (f : QueueFate)
  | startTxq (req : StartQueueReq) (f : QueueFate)
  | stopRxqs (req : StopQueueReq) (fate : SpFate)
  | stopTxqs (req : StopQueueReq) (fate : SpFate)
  | updateRxq (req : UpdateRxqReq) (fates : ℕ → SpFate)
  | vportUpdate (env : VportUpdateEnv) (tlv : Option RssTlv)
  | close
  | intCleanup
  | release
  | coalesceUpdate (qid rxCoal txCoal : ℕ)
  | coalesceRead (qid : ℕ) (isTx : Bool)
  | establishLl2Conn (req : EstLl2Conn) (fates : Ll2Fates)
  | terminateLl2Conn (req : TerminateLl2Conn) (fates : Ll2Fates)
  | rdmaAcquire (req : RdmaAcquireReq)
  | rdmaStart (req : RdmaStartReq)
  | filterCfg (qid : ℕ)
  | other

/-- What the reply to an LL2 message has for the mailbox. -/
def Ll2Reply.toMbx (r : Ll2Reply) : MbxReply := ⟨r.mngr, r.vf, r.ramrods, r.sbReads.map .iguSbs⟩

/-- The switch of `qed_iov_process_mbx_req`. -/
def qedIovProcessMbxReq (hw : MbxHw) (mngr : CxtMngr) (vf : VfInfo) : MbxMsg → MbxReply
  | .acquire req env => qedIovVfMbxAcquire hw req env mngr vf
  | .vportStart env => qedIovVfMbxStartVport env mngr vf
  | .vportTeardown => qedIovVfMbxStopVport mngr vf
  | .startRxq req f => qedIovVfMbxStartRxq hw req f mngr vf
  | .startTxq req f => qedIovVfMbxStartTxq hw req f mngr vf
  | .stopRxqs req fate => qedIovVfMbxStopRxqs hw req fate mngr vf
  | .stopTxqs req fate => qedIovVfMbxStopTxqs hw req fate mngr vf
  | .updateRxq req fates => qedIovVfMbxUpdateRxqs req fates mngr vf
  | .vportUpdate env tlv => mbxVportUpdate env tlv mngr vf
  | .close => ⟨mngr, vf, [], queuesBelow vf.numRxqs⟩
  | .intCleanup => ⟨mngr, vf, [], sbReads vf⟩
  | .release => qedIovVfMbxRelease hw mngr vf
  | .coalesceUpdate qid rxCoal txCoal => qedIovVfPfSetCoalesce qid rxCoal txCoal mngr vf
  | .coalesceRead qid isTx => qedIovVfPfGetCoalesce qid isTx mngr vf
  | .establishLl2Conn req fates =>
    (qedIovVfPfEstablishLl2Connection hw req fates mngr vf).toMbx
  | .terminateLl2Conn req fates => (qedIovVfPfTerminateLl2Conn hw req fates mngr vf).toMbx
  | .rdmaAcquire req => qedIovVfPfRdmaAcquire hw req mngr vf
  | .rdmaStart req => qedIovVfPfRdmaStart req mngr vf
  | .filterCfg qid => qedIovVfMbxFilterCfg qid mngr vf
  | .other => ⟨mngr, vf, [], []⟩

/-- The PF and one of its VFs, with all that was posted and used for the VF so far. -/
structure MbxSys where
  mngr : CxtMngr
  vf : VfInfo
  pendingFlr : Bool
  ramrods : List VfRamrod
  accesses : List VfAccess

inductive MbxStep
  | msg (m : MbxMsg)
  | flr
  | flrCleanup (fates : FlrFates)

/-- `qed_iov_execute_vf_flr_cleanup`: the queues are closed, then comes what the reset does to the
LL2 connections. -/
def mbxFlrCleanup (hw : MbxHw) (fates : FlrFates) (s : MbxSys) : MbxSys :=
  if !s.pendingFlr then s
  else
    let r := qedIovExecuteVfFlrCleanup hw fates
      ⟨releaseQueues hw s.mngr s.vf, s.vf.closeQueues, true, []⟩
    ⟨r.mngr, r.vf, r.pendingFlr, s.ramrods,
      s.accesses ++ queuesBelow QED_MAX_QUEUE_VF_CHAINS_PER_PF ++ sbReads s.vf⟩

/-- A message of a VF that counts as malicious is ignored. -/
def MbxSys.step (hw : MbxHw) (s : MbxSys) : MbxStep → MbxSys
  | .msg m =>
    if s.vf.malicious then s
    else
      let r := qedIovProcessMbxReq hw s.mngr s.vf m
      ⟨r.mngr, r.vf, s.pendingFlr, s.ramrods ++ r.ramrods, s.accesses ++ r.accesses⟩
  | .flr => { s with vf := { s.vf with state := .reset }, pendingFlr := true }
  | .flrCleanup fates => mbxFlrCleanup hw fates s

/-! ## Confinement -/

/-- All that was posted and used for the VF belongs to it. -/
structure Confined (hw : MbxHw) (v : VfInfo) (fid : ℕ) (s : MbxSys) : Prop where
  ramrods : ∀ r ∈ s.ramrods, v.Owns hw fid r
  accesses : ∀ a ∈ s.accesses, a.InArray

/-- The fields that no handler checks are in order, where the reply shows that they were used: a
queue is opened, and an LL2 connection opened or closed, with the FID of the VF; the id of an Rx
queue has 8 bits; the status block of an LL2 connection is one of the VF; and the CNQs are as many
as the arrays have room for. -/
def MbxMsg.InOrder (fid : ℕ) (vf : VfInfo) (r : MbxReply) : MbxMsg → Prop
  | .startRxq req _ =>
    r.ramrods ≠ [] → vf.opaqueFid = fid ∧ (vf.vfQueues req.qid).fwRxQid < 2 ^ 8
  | .startTxq _ _ | .terminateLl2Conn _ _ => r.ramrods ≠ [] → vf.opaqueFid = fid
  | .establishLl2Conn req _ =>
    (r.accesses ≠ [] → req.sbId < vf.numSbs) ∧ (r.ramrods ≠ [] → vf.opaqueFid = fid)
  | .rdmaStart req =>
    req.params → req.startFw → req.desiredCnq ≤ QED_MAX_QUEUE_VF_CHAINS_PER_PF ∧
      vf.cnqSbStartId + req.desiredCnq ≤ QED_MAX_VF_CHAINS_PER_PF
  | _ => True

def MbxStep.InOrder (hw : MbxHw) (fid : ℕ) (s : MbxSys) : MbxStep → Prop
  | .msg m =>
    s.vf.malicious = false → m.InOrder fid s.vf (qedIovProcessMbxReq hw s.mngr s.vf m)
  | _ => True

section Handlers

variable {hw : MbxHw} {v vf : VfInfo} {fid : ℕ} {mngr : CxtMngr}

/-! ### The places that are used -/

theorem queuesBelow_inArray {n : ℕ} (hn : n ≤ QED_MAX_QUEUE_VF_CHAINS_PER_PF) :
    ∀ a ∈ queuesBelow n, a.InArray := by
  intro a ha
  obtain ⟨i, hi, rfl⟩ := mem_map.mp ha
  exact lt_of_lt_of_le (mem_range.mp hi) hn

theorem cnqSbs_inArray {cnqs : List ℕ} {n : ℕ} (hlt : ∀ i ∈ cnqs, i < n)
    (hn : vf.cnqSbStartId + n ≤ QED_MAX_VF_CHAINS_PER_PF) : ∀ a ∈ cnqSbs vf cnqs, a.InArray := by
  intro a ha
  obtain ⟨i, hi, rfl⟩ := mem_map.mp ha
  exact Nat.lt_of_lt_of_le (Nat.add_lt_add_left (hlt i hi) _) hn

/-- The status blocks of the CNQs that a VF was given are in `igu_sbs`. -/
theorem SameGrant.cnqs_le (h : SameGrant v vf) (hv : v.Granted) :
    vf.cnqSbStartId + vf.numCnqs ≤ QED_MAX_VF_CHAINS_PER_PF := by
  have hstart := h.cnqSbStartId
  have hcnqs := h.numCnqs
  have hsbs := hv.numSbs
  have hchains := hv.chains
  omega

section

variable (h : VfOwn hw v fid vf)

include h

theorem VfOwn.numRxqs_le (hv : v.Granted) : vf.numRxqs ≤ QED_MAX_QUEUE_VF_CHAINS_PER_PF :=
  h.grant.numRxqs ▸ hv.numRxqs

/-! ### The handlers -/

theorem VfOwn.acquire (hv : v.Granted) (req : AcquireReq) (env : AcquireEnv) :
    (qedIovVfMbxAcquire hw req env mngr vf).Contained hw v fid := by
  have hrx := h.numRxqs_le hv
  have hreads : ∀ a ∈ acquireReads vf req, a.InArray := by
    refine forall_mem_append.mpr ⟨fun a ha => ?_, queuesBelow_inArray (by omega)⟩
    obtain ⟨i, hi, rfl⟩ := mem_map.mp ha
    have hlt := mem_range.mp hi
    change i < QED_MAX_QUEUE_VF_CHAINS_PER_PF + QED_MAX_CNQ_VF_CHAINS_PER_PF
    omega
  have hstored : VfOwn hw v fid (vf.storeAcquire req) := h.of_same { h.grant with } rfl
  unfold qedIovVfMbxAcquire
  split
  · exact h.quiet (forall_mem_nil _)
  · split
    · exact hstored.quiet hreads
    case h_2 vf' hresc =>
      have hvf' : VfOwn hw v fid vf' := by
        unfold qedIovVfMbxAcquireResc at hresc
        split at hresc
        · split at hresc
          · exact some.inj hresc ▸ hstored
          · cases hresc
        · exact some.inj hresc ▸ hstored.of_same { hstored.grant with } rfl
      split
      · exact ⟨hvf'.of_same { hvf'.grant with } rfl, forall_mem_nil _, hreads⟩
      · exact hvf'.quiet hreads

theorem VfOwn.startVport (hv : v.Granted) (env : VportStartEnv) :
    (qedIovVfMbxStartVport env mngr vf).Contained hw v fid := by
  have hrx := h.numRxqs_le hv
  have hreads : ∀ a ∈ vportStartReads env vf, a.InArray := by
    refine forall_mem_append.mpr
      ⟨forall_mem_append.mpr ⟨h.sbReads hv, queuesBelow_inArray hrx⟩, fun a ha => ?_⟩
    obtain ⟨i, hi, rfl⟩ := mem_map.mp ha
    have hlt := mem_range.mp ((takeWhile_sublist _).mem hi)
    change i < QED_MAX_QUEUE_VF_CHAINS_PER_PF + QED_MAX_CNQ_VF_CHAINS_PER_PF
    omega
  have hstart : ∀ started, VfOwn hw v fid (vf.startVport started) := fun started =>
    h.of_same { h.grant with } rfl
  unfold qedIovVfMbxStartVport
  split
  · refine ⟨hstart true, owns_rxQueuesUpdate fun c hc => ?_,
      forall_mem_append.mpr ⟨hreads, queuesBelow_inArray (le_refl _)⟩⟩
    obtain ⟨i, -, hfirst⟩ := mem_filterMap.mp hc
    obtain ⟨idx, -, hcid⟩ := firstCid_eq_some hfirst
    exact h.cids i idx false c hcid
  · exact (hstart _).quiet hreads

theorem VfOwn.stopVport (hv : v.Granted) :
    (qedIovVfMbxStopVport mngr vf).Contained hw v fid := by
  have htx := h.grant.numTxqs.trans hv.numTxqs ▸ hv.numRxqs
  have hreads :=
    forall_mem_append.mpr ⟨queuesBelow_inArray (h.numRxqs_le hv), queuesBelow_inArray htx⟩
  unfold qedIovVfMbxStopVport
  split
  · exact h.quiet (forall_mem_nil _)
  · split
    · exact ⟨h.of_same { h.grant with } rfl, forall_mem_nil _, hreads⟩
    · exact ⟨h.of_same { h.grant with } rfl, forall_mem_nil _, hreads⟩

end

theorem vportUpdate_vf (vf : VfInfo) (env : VportUpdateEnv) (tlv : Option RssTlv) :
    (qedIovVfMbxVportUpdate env vf tlv).1 = vf ∨
      ∃ t, (qedIovVfMbxVportUpdate env vf tlv).1 = vf.saveRss t := by
  have hrss : ∀ mask accepted, (qedIovVpUpdateRssParam vf tlv mask accepted).vf = vf ∨
      ∃ t, (qedIovVpUpdateRssParam vf tlv mask accepted).vf = vf.saveRss t := by
    intro mask accepted
    unfold qedIovVpUpdateRssParam
    split
    · exact .inl rfl
    case h_2 t =>
      split
      · exact .inl rfl
      · exact .inr ⟨t, rfl⟩
  unfold qedIovVfMbxVportUpdate
  split
  · exact .inl rfl
  · split
    · exact .inl rfl
    · dsimp only
      split
      · exact hrss _ _
      · split
        · exact hrss _ _
        · exact hrss _ _

section

variable (h : VfOwn hw v fid vf)

include h

theorem VfOwn.vportUpdate (hv : v.Granted) (env : VportUpdateEnv) (tlv : Option RssTlv) :
    (mbxVportUpdate env tlv mngr vf).Contained hw v fid := by
  have hvf : VfOwn hw v fid (qedIovVfMbxVportUpdate env vf tlv).1 := by
    rcases vportUpdate_vf vf env tlv with heq | ⟨t, heq⟩
    · exact heq.symm ▸ h
    · exact heq.symm ▸ h.of_same { h.grant with } rfl
  refine hvf.quiet fun a ha => ?_
  unfold rssReads at ha
  split at ha
  · nomatch ha
  · split at ha
    · obtain ⟨qid, hqid, rfl⟩ := mem_map.mp ha
      have hlt : qid < vf.numRxqs := by simpa using (mem_filter.mp hqid).2
      exact lt_of_lt_of_le hlt (h.numRxqs_le hv)
    · nomatch ha

theorem VfOwn.inQueues (hv : v.Granted) {qid : ℕ} {isTx : Bool}
    (hq : qedIovValidateQueue vf qid .enable isTx) :
    ∀ a ∈ [vfQueues qid], a.InArray := by
  simpa using hv.inQueues (h.qid_lt hv hq)

theorem VfOwn.getCoalesce (hv : v.Granted) (qid : ℕ) (isTx : Bool) :
    (qedIovVfPfGetCoalesce qid isTx mngr vf).Contained hw v fid := by
  have hreads := h.queueReads hv qid .enable isTx
  unfold qedIovVfPfGetCoalesce
  split
  · exact h.quiet hreads
  case isFalse hval =>
    exact h.quiet (forall_mem_append.mpr ⟨hreads, h.inQueues hv (by simpa using hval)⟩)

theorem VfOwn.setCoalesce (hv : v.Granted) (qid rxCoal txCoal : ℕ) :
    (qedIovVfPfSetCoalesce qid rxCoal txCoal mngr vf).Contained hw v fid := by
  have hrx := h.queueReads hv qid .enable false
  have htx := h.queueReads hv qid .enable true
  have hboth := forall_mem_append.mpr ⟨hrx, htx⟩
  unfold qedIovVfPfSetCoalesce
  split
  · exact h.quiet hrx
  case isFalse hrxq =>
    split
    · exact h.quiet hboth
    case isFalse htxq =>
      refine h.quiet (forall_mem_append.mpr ⟨hboth, ?_⟩)
      split
      case isFalse => nofun
      case isTrue hcoal =>
        -- one of the two values is set, and then the check of that direction has passed
        rcases Bool.or_eq_true_iff.mp hcoal with hc | hc
        · have hval : qedIovValidateQueue vf qid .enable false := by simpa [hc] using hrxq
          exact h.inQueues hv hval
        · have hval : qedIovValidateQueue vf qid .enable true := by simpa [hc] using htxq
          exact h.inQueues hv hval

theorem VfOwn.closeQueues : VfOwn hw v fid vf.closeQueues := by
  refine ⟨{ h.grant with fwRxQid := fun i => ?_, fwTxQid := fun i => ?_ },
    fun qid idx isTx c hc => ?_⟩
  · rw [← h.grant.fwRxQid i]
    unfold VfInfo.closeQueues
    dsimp only
    split <;> rfl
  · rw [← h.grant.fwTxQid i]
    unfold VfInfo.closeQueues
    dsimp only
    split <;> rfl
  · unfold VfInfo.closeQueues at hc
    dsimp only at hc
    split at hc
    · dsimp only at hc
      split at hc
      · nomatch hc
      · exact h.cids qid idx isTx c hc
    · exact h.cids qid idx isTx c hc

theorem VfOwn.release : (qedIovVfMbxRelease hw mngr vf).Contained hw v fid :=
  ⟨h.closeQueues.of_same { h.closeQueues.grant with } rfl, nofun,
    queuesBelow_inArray (le_refl _)⟩

theorem VfOwn.rdmaAcquire (hv : v.Granted) (req : RdmaAcquireReq) :
    (qedIovVfPfRdmaAcquire hw req mngr vf).Contained hw v fid := by
  unfold qedIovVfPfRdmaAcquire
  split
  · exact h.quiet (forall_mem_nil _)
  split
  · exact h.quiet (forall_mem_nil _)
  split
  · exact h.quiet (forall_mem_nil _)
  case isFalse hnum =>
    split
    · exact h.quiet (forall_mem_nil _)
    · have hcnqs := not_lt.mp (not_or.mp hnum).2
      have hnum := h.grant.numCnqs ▸ hv.numCnqs
      have hle := h.grant.cnqs_le hv
      have hstart : (vf.publishCnqs req).cnqSbStartId ≤ vf.cnqSbStartId := by
        unfold VfInfo.publishCnqs
        dsimp only
        split <;> omega
      have hpub : VfOwn hw v fid (vf.publishCnqs req) :=
        h.of_same { h.grant with cnqSbStartId := hstart.trans h.grant.cnqSbStartId } rfl
      refine hpub.quiet (forall_mem_append.mpr ⟨?_, queuesBelow_inArray (hcnqs.trans hnum)⟩)
      exact cnqSbs_inArray (fun i hi => mem_range.mp hi) (by omega)

theorem VfOwn.rdmaStart (hv : v.Granted) {req : RdmaStartReq}
    (hcnq : req.params → req.startFw → req.desiredCnq ≤ QED_MAX_QUEUE_VF_CHAINS_PER_PF ∧
      vf.cnqSbStartId + req.desiredCnq ≤ QED_MAX_VF_CHAINS_PER_PF) :
    (qedIovVfPfRdmaStart req mngr vf).Contained hw v fid := by
  unfold qedIovVfPfRdmaStart
  split
  · exact h.quiet (forall_mem_nil _)
  case isFalse hparams =>
    refine h.quiet (forall_mem_append.mpr ⟨?_, ?_⟩)
    · exact cnqSbs_inArray
        (fun i hi => mem_range.mp ((takeWhile_sublist _).mem hi)) (h.grant.cnqs_le hv)
    · split
      case isFalse => nofun
      case isTrue hfw =>
        obtain ⟨hqueues, hsbs⟩ := hcnq (by simpa using hparams) hfw
        exact forall_mem_append.mpr
          ⟨cnqSbs_inArray (fun i hi => mem_range.mp hi) hsbs, queuesBelow_inArray hqueues⟩

/-! ### LL2 connections -/

/-- The ramrods that start the queues of a connection, if its status block is one of the VF. -/
theorem VfOwn.ll2Start (req : EstLl2Conn) (fates : Ll2Fates) (cid : ℕ)
    (hlt : req.sbId < vf.numSbs) (hfid : vf.opaqueFid = fid) :
    ∀ r ∈ (ll2StartRx hw vf req fates cid
        (qedLl2HandleToQueueId hw vf.relativeVfId)).1 ++ (ll2StartTx vf req fates cid).1,
      v.Owns hw fid r := by
  have hown : v.HasSb (vf.iguSbs req.sbId) :=
    ⟨req.sbId, h.grant.numSbs ▸ hlt, by rw [h.grant.iguSbs]⟩
  have hrx : v.Owns hw fid ⟨.ll2RxStart, vf.opaqueFid, cid,
      some (vf.iguSbs req.sbId), some (qedLl2HandleToQueueId hw vf.relativeVfId)⟩ :=
    ⟨hfid, fun _ heq => some.inj heq ▸ hown, fun _ heq => by
      rw [← some.inj heq, h.grant.relativeVfId]⟩
  have htx :
      v.Owns hw fid ⟨.ll2TxStart, vf.opaqueFid, cid, some (vf.iguSbs req.sbId), none⟩ :=
    ⟨hfid, fun _ heq => some.inj heq ▸ hown, nofun⟩
  unfold ll2StartRx ll2StartTx Qed.ll2Start
  cases qedFwVport hw.resc vf.vportId <;> cases req.rxCbRegistered <;> cases req.txCbRegistered <;>
    cases fates.rx.posted <;> cases fates.tx.posted <;> simp [hrx, htx]

omit h in
/-- They come with reads of the status block, and no others are made. -/
theorem ll2Start_reads (hw : Ll2Hw) (vf : VfInfo) (req : EstLl2Conn) (fates : Ll2Fates)
    (cid absQid : ℕ) :
    let rx := ll2StartRx hw vf req fates cid absQid
    let tx := ll2StartTx vf req fates cid
    (rx.1 ≠ [] → rx.2.1 ≠ []) ∧ (rx.1 ++ tx.1 ≠ [] → rx.2.1 ++ tx.2.1 ≠ []) ∧
      ∀ i ∈ rx.2.1 ++ tx.2.1, i = req.sbId := by
  unfold ll2StartRx ll2StartTx
  cases qedFwVport hw.resc vf.vportId <;> cases req.rxCbRegistered <;> cases req.txCbRegistered <;>
    simp

/-- A reply to an establish message with the status block that the message names. -/
theorem VfOwn.ll2Reply (hv : v.Granted) {req : EstLl2Conn} {fates : Ll2Fates} {r : Ll2Reply}
    (hvf : VfOwn hw v fid r.vf) (huse : r.ramrods ≠ [] → r.sbReads ≠ [])
    (hreads : ∀ i ∈ r.sbReads, i = req.sbId)
    (hram : req.sbId < vf.numSbs → vf.opaqueFid = fid →
      ∀ p ∈ r.ramrods, v.Owns hw fid p)
    (hok : (MbxMsg.establishLl2Conn req fates).InOrder fid vf r.toMbx) :
    r.toMbx.Contained hw v fid := by
  have hsb : r.sbReads ≠ [] → req.sbId < vf.numSbs := fun hne =>
    hok.1 (by simpa [Ll2Reply.toMbx] using hne)
  refine ⟨hvf, fun p hp => ?_, fun a ha => ?_⟩
  · have hne := ne_nil_of_mem hp
    exact hram (hsb (huse hne)) (hok.2 hne) p hp
  · obtain ⟨i, hi, rfl⟩ := mem_map.mp ha
    have hlt := h.grant.numSbs ▸ hsb (ne_nil_of_mem hi)
    rw [hreads i hi]
    exact lt_of_lt_of_le hlt hv.chains

theorem VfOwn.establish (hv : v.Granted) {req : EstLl2Conn} (fates : Ll2Fates) :
    (MbxMsg.establishLl2Conn req fates).InOrder fid vf
      (qedIovVfPfEstablishLl2Connection hw req fates mngr vf).toMbx →
    (qedIovVfPfEstablishLl2Connection hw req fates mngr vf).toMbx.Contained
      hw v fid := by
  unfold qedIovVfPfEstablishLl2Connection
  split
  · exact fun _ => h.quiet (forall_mem_nil _)
  rcases qedCxtAcquireCid hw.maxNumVfs mngr PROTOCOLID_CORE vf.relativeVfId with ⟨m, _ | cid⟩
  · exact fun _ => h.quiet (forall_mem_nil _)
  dsimp only
  split
  · exact fun _ => h.quiet (forall_mem_nil _)
  obtain ⟨hrx, huse, hreads⟩ := ll2Start_reads hw vf req fates cid
    (qedLl2HandleToQueueId hw vf.relativeVfId)
  have hram := h.ll2Start req fates cid
  split
  · exact h.ll2Reply hv h hrx (fun i hi => hreads i (mem_append_left _ hi))
      fun hlt hfid p hp => hram hlt hfid p (mem_append_left _ hp)
  · split
    · exact h.ll2Reply hv h huse hreads hram
    · exact h.ll2Reply hv (h.of_same { h.grant with } rfl) huse hreads hram

omit h in
theorem ll2Stop_owns {kind : VfRamrodKind} (registered : Bool) (cid : ℕ) (queueId : Option ℕ)
    (fate : SpFate) (hfid : vf.opaqueFid = fid) (hkind : kind = .ll2RxStop ∨ kind = .ll2TxStop) :
    ∀ r ∈ (if registered then ll2Stop vf kind cid queueId fate else []), v.Owns hw fid r := by
  split
  · exact owns_of_posted fun _ =>
      ⟨hfid, nofun, fun _ _ => by rcases hkind with rfl | rfl <;> trivial⟩
  · exact forall_mem_nil _

theorem VfOwn.terminate (req : TerminateLl2Conn) (fates : Ll2Fates)
    (hok : (qedIovVfPfTerminateLl2Conn hw req fates mngr vf).toMbx.ramrods ≠ [] →
      vf.opaqueFid = fid) :
    (qedIovVfPfTerminateLl2Conn hw req fates mngr vf).toMbx.Contained hw v fid := by
  revert hok
  unfold qedIovVfPfTerminateLl2Conn
  split
  · exact fun _ => h.quiet (forall_mem_nil _)
  · dsimp only
    generalize vf.vfLl2Queues req.connHandle = q
    have hboth : vf.opaqueFid = fid →
        ∀ r ∈ (if req.rxCbRegistered then
            Qed.ll2Stop vf .ll2RxStop q.cid (some q.qid) fates.rx else []) ++
          (if req.txCbRegistered then Qed.ll2Stop vf .ll2TxStop q.cid none fates.tx else []),
        v.Owns hw fid r := fun hfid => forall_mem_append.mpr
      ⟨ll2Stop_owns _ _ _ _ hfid (.inl rfl), ll2Stop_owns _ _ _ _ hfid (.inr rfl)⟩
    split
    · exact fun hok =>
        ⟨h, fun r hr => hboth (hok (ne_nil_of_mem hr)) r (mem_append_left _ hr), forall_mem_nil _⟩
    · split
      · exact fun hok =>
          ⟨h, fun r hr => hboth (hok (ne_nil_of_mem hr)) r hr, forall_mem_nil _⟩
      · exact fun hok => ⟨h.of_same { h.grant with } rfl,
          fun r hr => hboth (hok (ne_nil_of_mem hr)) r hr, forall_mem_nil _⟩

end

/-- Every message that is in order keeps to what the VF was given. -/
theorem VfOwn.process {s : MbxSys} (h : VfOwn hw v fid s.vf) (hv : v.Granted)
    (hmal : s.vf.malicious = false) (m : MbxMsg) (hok : (MbxStep.msg m).InOrder hw fid s) :
    (qedIovProcessMbxReq hw s.mngr s.vf m).Contained hw v fid := by
  cases m with
  | acquire req env => exact h.acquire hv req env
  | vportStart env => exact h.startVport hv env
  | vportTeardown => exact h.stopVport hv
  | startRxq req f => exact h.startRxq hv req f (hok hmal)
  | startTxq req f => exact h.startTxq hv req f (hok hmal)
  | stopRxqs req fate => exact h.mbxStop hv req fate fun _ => VfInfo.OwnsCid.rxqStop
  | stopTxqs req fate => exact h.mbxStop hv req fate fun _ => VfInfo.OwnsCid.txqStop
  | updateRxq req fates => exact h.updateRxqs hv req fates
  | vportUpdate env tlv => exact h.vportUpdate hv env tlv
  | close => exact h.quiet (queuesBelow_inArray (h.numRxqs_le hv))
  | intCleanup => exact h.quiet (h.sbReads hv)
  | release => exact h.release
  | coalesceUpdate qid rxCoal txCoal => exact h.setCoalesce hv qid rxCoal txCoal
  | coalesceRead qid isTx => exact h.getCoalesce hv qid isTx
  | establishLl2Conn req fates => exact h.establish hv fates (hok hmal)
  | terminateLl2Conn req fates => exact h.terminate req fates (hok hmal)
  | rdmaAcquire req => exact h.rdmaAcquire hv req
  | rdmaStart req => exact h.rdmaStart hv (hok hmal)
  | filterCfg qid =>
    refine h.quiet ?_
    split
    case isTrue hqid => exact forall_mem_singleton.mpr hqid.2
    case isFalse => nofun
  | other => exact h.quiet (forall_mem_nil _)

theorem foldl_flrReleaseLl2_vf (hw : MbxHw) (l : List ℕ) (s : Ll2Sys) :
    (l.foldl (flrReleaseLl2 hw) s).vf = s.vf := by
  induction l generalizing s with
  | nil => rfl
  | cons i l ih =>
    rw [foldl_cons, ih]
    unfold flrReleaseLl2
    dsimp only
    split <;> rfl

theorem VfOwn.flrCleanup {s : Ll2Sys} (h : VfOwn hw v fid s.vf) (fates : FlrFates) :
    VfOwn hw v fid (qedIovExecuteVfFlrCleanup hw fates s).vf := by
  have hclean : VfOwn hw v fid (qedIovVfCleanup s).vf := h.of_same { h.grant with } rfl
  have hfold := foldl_flrReleaseLl2_vf hw (range QED_MAX_NUM_OF_LL2_CONNS_VF)
    (qedIovVfCleanup s)
  rw [← hfold] at hclean
  unfold qedIovExecuteVfFlrCleanup
  split
  · exact h
  · dsimp only
    split
    · exact h.of_same { h.grant with } rfl
    · split
      · exact h.of_same { h.grant with } rfl
      · split
        · exact hclean.of_same { hclean.grant with } rfl
        · exact hclean.of_same { hclean.grant with } rfl

end Handlers

/-! ## Runs -/

structure MbxInv (hw : MbxHw) (v : VfInfo) (fid : ℕ) (s : MbxSys) : Prop
    extends Confined hw v fid s where
  own : VfOwn hw v fid s.vf

theorem MbxInv.step {hw : MbxHw} {v : VfInfo} {fid : ℕ} {s : MbxSys} {a : MbxStep}
    (h : MbxInv hw v fid s) (hv : v.Granted) (hok : a.InOrder hw fid s) :
    MbxInv hw v fid (s.step hw a) := by
  cases a with
  | msg m =>
    rw [MbxSys.step]
    split
    · exact h
    case isFalse hmal =>
      have hr := h.own.process hv (by simpa using hmal) m hok
      exact ⟨⟨forall_mem_append.mpr ⟨h.ramrods, hr.ramrods⟩,
        forall_mem_append.mpr ⟨h.accesses, hr.accesses⟩⟩, hr.own⟩
  | flr => exact ⟨⟨h.ramrods, h.accesses⟩, h.own.of_same { h.own.grant with } rfl⟩
  | flrCleanup fates =>
    change MbxInv hw v fid (mbxFlrCleanup hw fates s)
    unfold mbxFlrCleanup
    split
    · exact h
    · exact ⟨⟨h.ramrods, forall_mem_append.mpr
        ⟨forall_mem_append.mpr ⟨h.accesses, queuesBelow_inArray (le_refl _)⟩,
          h.own.sbReads hv⟩⟩, VfOwn.flrCleanup h.own.closeQueues fates⟩

instance (a : VfAccess) : Decidable a.InArray := by
  unfold InArray
  cases a <;> infer_instance

instance (hw : Ll2Hw) (vf : VfInfo) (isTx : Bool) (queueId : ℕ) :
    Decidable (vf.HasQueue hw isTx queueId) :=
  inferInstanceAs (Decidable (∃ i, i < _ ∧ _))

end FastLinQ.Qed
