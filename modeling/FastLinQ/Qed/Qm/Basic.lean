import FastLinQ.Foundations.Word
import FastLinQ.Qed.Dev

/-!
# Physical queues of the queue manager

A function transmits through physical queues (PQs) of the queue manager. Which kinds of PQs it needs
follows from its personality and its features (`qed_get_pq_flags`). One family of functions counts
them (`qed_init_qm_get_num_pqs` and the like), `qed_init_qm_features` switches features off until
the counts fit the resources of the function, and then `qed_init_qm_info` creates the PQs one by
one. A PQ has a vport, which it may share with the PQs after it, and possibly a rate limiter (RL).

PQ sets are not modelled: `num_pqset` is 0, as it is unless the driver is asked for them. The counts
are 16 bits wide, that of the multi-TC queues 8 bits.
-/

namespace FastLinQ.Qed

open List

/-! ## Configuration -/

inductive PqFlag
  | rls
  | mcos
  | lb
  | ooo
  | ack
  | ofld
  | grp
  | vfs
  | llt
  | mtc
  | vfr
  | vsr
  | pqset
  deriving DecidableEq, Repr

/-- `struct qed_lag_info`; `active` is `qed_lag_is_active`. -/
structure LagInfo where
  active : Bool
  portNum : ℕ
  firstPort : ℕ
  secondPort : ℕ
  isMaster : Bool
  deriving DecidableEq, Repr

/-- What the initialisation of the queue manager reads of a hardware function. -/
structure QmHwfn where
  personality : PciPersonality
  isAh : Bool
  /-- `QED_MF_ROCE_LAG` is set in `mf_bits`. -/
  mfRoceLag : Bool
  numPortsInEngine : ℕ
  portId : ℕ
  lag : LagInfo
  numHwTc : ℕ
  /-- `offload_tc`, if `offload_tc_set`. -/
  offloadTc : Option ℕ
  multiTcRoceEn : Bool
  bEnPacing : Bool
  bEnDcqcn : Bool
  /-- `p_rdma_info->roce.dcqcn_enabled` -/
  dcqcnEnabled : Bool
  /-- `IS_QED_SRIOV` -/
  sriov : Bool
  totalVfs : ℕ
  maxActiveVfs : ℕ
  /-- `QED_IS_VF_RDMA` -/
  vfRdma : Bool
  /-- `qm_info.vf_rdma_en` -/
  vfRdmaEn : Bool
  pq : RescRange
  vport : RescRange
  rl : RescRange
  numHwTc_lt : numHwTc < 2 ^ 8 := by decide
  totalVfs_lt : totalVfs < 2 ^ 16 := by decide
  maxActiveVfs_lt : maxActiveVfs < 2 ^ 8 := by decide
  deriving DecidableEq, Repr

def LAG_MAX_PORT_NUM : ℕ := 2
def OFLD_GRP_SIZE : ℕ := 4
def NUM_DEFAULT_RLS : ℕ := 1
def MAX_NUM_PORTS_K2 : ℕ := 4
def NUM_PHYS_TCS_4PORT_K2 : ℕ := 4
def NUM_OF_PHYS_TCS : ℕ := 8
def PURE_LB_TC : ℕ := NUM_OF_PHYS_TCS
def DCBX_TCP_OOO_TC : ℕ := 4
def DCBX_TCP_OOO_K2_4PORT_TC : ℕ := 3
def PQ_INIT_DEFAULT_WRR_GROUP : ℕ := 1
def PQ_INIT_DEFAULT_TC : ℕ := 0
def CM_TX_PQ_BASE : ℕ := 0x200

def qedInitQmGetNumActiveVfs (h : QmHwfn) : ℕ := if h.sriov then h.maxActiveVfs else 0

/-- `qed_get_pq_flags`. An unknown personality has no queues at all; `PQ_FLAGS_GRP` is never
set. -/
def qedGetPqFlags (h : QmHwfn) (flag : PqFlag) : Bool :=
  let vfs := qedInitQmGetNumActiveVfs h != 0
  let common :=
    match flag with
    | .lb => true
    | .vfs => vfs
    | .rls => h.bEnDcqcn || h.bEnPacing
    | _ => false
  match h.personality with
  | .eth => common || (flag == .mcos && !h.bEnPacing)
  | .fcoe => common || flag == .ofld
  | .iscsi => common || flag == .ack || flag == .ooo || flag == .ofld
  | .ethRoce =>
    common ||
      (!h.bEnDcqcn && (flag == .ofld || flag == .llt || (flag == .mtc && h.multiTcRoceEn))) ||
      (flag == .mcos && !h.bEnPacing) ||
      (vfs && (if h.vfRdmaEn then flag == .vfr else flag == .vsr))
  | .ethIwarp =>
    common || flag == .ack || flag == .ooo || flag == .ofld || (flag == .mcos && !h.bEnPacing) ||
      (vfs && (if h.vfRdmaEn then flag == .vfr else flag == .vsr))
  | .ethRdma | .default => false

/-! ## Counting -/

/-- `(!!(flag & pq_flags)) * n`. -/
def flagged (h : QmHwfn) (flag : PqFlag) (n : ℕ) : ℕ := if qedGetPqFlags h flag then n else 0

def qedInitQmGetNumTcs (h : QmHwfn) : ℕ := h.numHwTc

def qedInitQmGetNumVfs (h : QmHwfn) : ℕ := if h.sriov then h.totalVfs else 0

def qedInitQmGetNumVfsPqs (h : QmHwfn) : ℕ :=
  let numVfs := qedInitQmGetNumActiveVfs h
  (numVfs + flagged h .vfr numVfs + flagged h .vsr 1) % 2 ^ 16

def qedLagSupport (h : QmHwfn) : Bool :=
  h.isAh && (h.personality == .ethRoce || h.personality == .ethRdma) && h.mfRoceLag

def qedInitQmGetNumMtcTcs (h : QmHwfn) : ℕ :=
  if qedGetPqFlags h .mtc then qedInitQmGetNumTcs h else 1

/-- The ports that multi-TC queues are made for. -/
def numMtcPorts (h : QmHwfn) : ℕ := if qedLagSupport h then LAG_MAX_PORT_NUM else 1

def qedInitQmGetNumMtcPqs (h : QmHwfn) : ℕ := numMtcPorts h * qedInitQmGetNumMtcTcs h % 2 ^ 8

/-- `qed_init_qm_get_num_pf_rls`. For DCQCN the number is cut to a power of two; `1 << ilog2(0)` is
a shift by `-1`, whose low 16 bits are zero. -/
def qedInitQmGetNumPfRls (h : QmHwfn) : ℕ :=
  let numVfs := qedInitQmGetNumVfs h
  let numPfRls := min h.rl.num h.vport.num % 2 ^ 16
  if numPfRls < numVfs + NUM_DEFAULT_RLS then 0
  else
    let left := numPfRls - (numVfs + NUM_DEFAULT_RLS)
    if h.bEnDcqcn then (if left = 0 then 0 else 2 ^ Nat.log2 left) else left

def qedInitQmGetNumRls (h : QmHwfn) : ℕ :=
  (flagged h .rls (qedInitQmGetNumPfRls h) + flagged h .vfs (qedInitQmGetNumActiveVfs h) +
    flagged h .vfr (qedInitQmGetNumActiveVfs h) + flagged h .vsr 1) % 2 ^ 16

def qedInitQmGetNumVports (h : QmHwfn) : ℕ :=
  (1 + flagged h .rls (qedInitQmGetNumPfRls h) + flagged h .vfs (qedInitQmGetNumVfs h)) % 2 ^ 16

def qedInitQmGetNumPqs (h : QmHwfn) : ℕ :=
  (flagged h .mcos (qedInitQmGetNumTcs h) + flagged h .lb 1 + flagged h .ooo 1 +
    flagged h .ack 1 + flagged h .ofld (qedInitQmGetNumMtcPqs h) +
    flagged h .llt (qedInitQmGetNumMtcPqs h) + flagged h .rls (qedInitQmGetNumPfRls h) +
    flagged h .grp OFLD_GRP_SIZE + flagged h .vfs (qedInitQmGetNumVfsPqs h)) % 2 ^ 16

/-! ## Fitting the features -/

/-- The loop condition of `qed_init_qm_features`. -/
def qmExceeds (h : QmHwfn) : Bool :=
  h.pq.num < qedInitQmGetNumPqs h || h.rl.num < qedInitQmGetNumRls h

/-- The loop of `qed_init_qm_features`, with the number of features that are left to switch off:
PQs per RDMA VF first, then multi-TC RoCE. -/
def qmFeaturesLoop : ℕ → QmHwfn → QmHwfn × Bool
  | 0, h => (h, !qmExceeds h)
  | n + 1, h =>
    if qmExceeds h = false then (h, true)
    else if h.vfRdmaEn then qmFeaturesLoop n { h with vfRdmaEn := false }
    else if h.multiTcRoceEn then qmFeaturesLoop n { h with multiTcRoceEn := false }
    else (h, false)

/-- `qed_init_qm_features`: the function with the features that are left, and whether the call
succeeds. -/
def qedInitQmFeatures (h : QmHwfn) : QmHwfn × Bool :=
  if h.pq.num < qedInitQmGetNumVports h then (h, false)
  else if qedInitQmGetNumPfRls h = 0 ∧ h.bEnPacing then (h, false)
  else
    let h₁ := if qedInitQmGetNumPfRls h = 0 ∧ h.bEnDcqcn then { h with bEnDcqcn := false } else h
    let isRdma := h₁.personality == .ethRoce || h₁.personality == .ethIwarp ||
      h₁.personality == .ethRdma
    let h₂ := if isRdma && h₁.vfRdma && qedInitQmGetNumActiveVfs h₁ != 0 then
      { h₁ with vfRdmaEn := true } else h₁
    qmFeaturesLoop 2 h₂

/-! ## Creating queues -/

/-- What a PQ is created for. The model writes it down next to the PQ. -/
inductive PqPurpose
  | rl (i : ℕ)
  | mcos (tc : ℕ)
  | lb
  | ooo
  | ack
  | ofld (port tc : ℕ)
  | llt (port tc : ℕ)
  | grp (i : ℕ)
  | vfRdmaAll
  | vf (i : ℕ)
  | vfRdma (i : ℕ)
  deriving DecidableEq, Repr

structure PqParams where
  vportId : ℕ
  rlId : ℕ
  rlValid : Bool
  tcId : ℕ
  wrrGroup : ℕ
  portId : ℕ
  deriving DecidableEq, Repr

structure PqInit where
  shareVport : Bool
  pfRl : Bool
  vfRl : Bool
  deriving DecidableEq, Repr

def PQ_INIT_SHARE_VPORT : PqInit := ⟨true, false, false⟩
def PQ_INIT_PF_RL : PqInit := ⟨false, true, false⟩
def PQ_INIT_VF_RL : PqInit := ⟨false, false, true⟩

/-- `struct qed_qm_info`. The `first_*_pq` and the like are `first`, by their flag. -/
structure QmInfo where
  qmPqParams : ℕ → PqParams
  startPq : ℕ
  startVport : ℕ
  startRl : ℕ
  first : PqFlag → ℕ
  numPqs : ℕ
  numVfPqs : ℕ
  iltPfPqs : ℕ
  numVports : ℕ
  numRls : ℕ
  numPfRls : ℕ
  maxPhysTcsPerPort : ℕ
  oooTc : ℕ
  pqOverflow : Bool
  /-- `offload_group`: the TC and the port of each PQ of the group. -/
  offloadGroup : List (ℕ × ℕ)
  /-- What each PQ was created for. -/
  made : List PqPurpose

structure PqReq where
  purpose : PqPurpose
  tc : ℕ
  init : PqInit
  port : ℕ
  deriving DecidableEq, Repr

def PqReq.isRl (r : PqReq) : Bool := r.init.pfRl || r.init.vfRl

def qedInitQmPqPort (h : QmHwfn) (q : QmInfo) (r : PqReq) : QmInfo :=
  let pqIdx := q.numPqs
  let old := q.qmPqParams pqIdx
  let numPqs := (q.numPqs + 1) % 2 ^ 16
  let numVports := if r.init.shareVport then q.numVports else (q.numVports + 1) % 2 ^ 16
  let numPfRls := if r.init.pfRl then (q.numPfRls + 1) % 2 ^ 8 else q.numPfRls
  { q with
    qmPqParams := Function.update q.qmPqParams pqIdx
      { vportId := (q.startVport + q.numVports) % 2 ^ 16
        rlId := if r.isRl then (q.startRl + q.numRls) % 2 ^ 16 else old.rlId
        rlValid := r.isRl || old.rlValid
        tcId := r.tc
        wrrGroup := PQ_INIT_DEFAULT_WRR_GROUP
        portId := r.port }
    numPqs := numPqs
    numRls := if r.isRl then (q.numRls + 1) % 2 ^ 16 else q.numRls
    numVfPqs := if r.init.vfRl then (q.numVfPqs + 1) % 2 ^ 16 else q.numVfPqs
    numVports := numVports
    numPfRls := numPfRls
    pqOverflow := q.pqOverflow || qedInitQmGetNumPqs h ≤ pqIdx ||
      (!r.init.vfRl && q.iltPfPqs != 0 && q.iltPfPqs < Word.sub 16 numPqs q.numVfPqs) ||
      qedInitQmGetNumVports h < numVports || qedInitQmGetNumPfRls h < numPfRls
    made := q.made ++ [r.purpose] }

def addPqs (h : QmHwfn) (q : QmInfo) (l : List PqReq) : QmInfo := l.foldl (qedInitQmPqPort h) q

/-- The flags that `qed_init_qm_get_idx_from_flags` knows. -/
def PqFlag.indexed : PqFlag → Bool
  | .mtc | .vfr | .pqset => false
  | _ => true

/-- `qed_init_qm_get_idx_from_flags` finds an index for this flag. -/
def hasIdx (h : QmHwfn) (flag : PqFlag) : Bool := qedGetPqFlags h flag && flag.indexed

/-- `*qed_init_qm_get_idx_from_flags`, which is `start_pq` if something is wrong. -/
def qedInitQmGetIdxFromFlags (h : QmHwfn) (q : QmInfo) (flag : PqFlag) : ℕ :=
  if hasIdx h flag then q.first flag else q.startPq

def qedInitQmSetIdx (h : QmHwfn) (q : QmInfo) (flag : PqFlag) (pqVal : ℕ) : QmInfo :=
  if hasIdx h flag then
    { q with first := Function.update q.first flag ((q.startPq + pqVal) % 2 ^ 16) }
  else { q with startPq := (q.startPq + pqVal) % 2 ^ 16 }

/-- The common form of the functions that create the PQs of a flag. -/
def initQmPqs (flag : PqFlag) (h : QmHwfn) (l : List PqReq) (q : QmInfo) : QmInfo :=
  if qedGetPqFlags h flag = false then q else addPqs h (qedInitQmSetIdx h q flag q.numPqs) l

def qedGetOffloadTc (h : QmHwfn) : ℕ := h.offloadTc.getD PQ_INIT_DEFAULT_TC

/-- The port of an RL queue: with LAG, by parity. -/
def rlPort (h : QmHwfn) (pfRlsIdx : ℕ) : ℕ :=
  if h.lag.isMaster && h.lag.active && decide (0 < h.lag.portNum) then
    if pfRlsIdx % h.lag.portNum = 0 then h.lag.firstPort else h.lag.secondPort
  else h.portId

def rlReqs (h : QmHwfn) : List PqReq :=
  (range (qedInitQmGetNumPfRls h)).map fun i =>
    ⟨.rl i, qedGetOffloadTc h, PQ_INIT_PF_RL, rlPort h i⟩

def qedInitQmRlPqs (h : QmHwfn) : QmInfo → QmInfo := initQmPqs .rls h (rlReqs h)

def mcosReqs (h : QmHwfn) : List PqReq :=
  (range (qedInitQmGetNumTcs h)).map fun tc =>
    ⟨.mcos tc, tc, PQ_INIT_SHARE_VPORT, h.portId⟩

def qedInitQmMcosPqs (h : QmHwfn) : QmInfo → QmInfo := initQmPqs .mcos h (mcosReqs h)

def qedInitQmLbPq (h : QmHwfn) : QmInfo → QmInfo :=
  initQmPqs .lb h [⟨.lb, PURE_LB_TC, PQ_INIT_SHARE_VPORT, h.portId⟩]

def qedInitQmOooPq (h : QmHwfn) (q : QmInfo) : QmInfo :=
  initQmPqs .ooo h [⟨.ooo, q.oooTc, PQ_INIT_SHARE_VPORT, h.portId⟩] q

def qedInitQmPureAckPq (h : QmHwfn) : QmInfo → QmInfo :=
  initQmPqs .ack h [⟨.ack, qedGetOffloadTc h, PQ_INIT_SHARE_VPORT, h.portId⟩]

/-- The PQs of `qed_init_qm_mtc_pqs`: all TCs of the first port, then those of the second port, if
LAG is supported. An offload TC overrides the TC. -/
def mtcReqs (h : QmHwfn) (purpose : ℕ → ℕ → PqPurpose) : List PqReq :=
  let port (i : ℕ) : ℕ :=
    if h.lag.active then (if i = 0 then h.lag.firstPort else h.lag.secondPort) else h.portId
  (range (numMtcPorts h)).flatMap fun i =>
    (range (qedInitQmGetNumMtcTcs h)).map fun tc =>
      ⟨purpose i tc, h.offloadTc.getD tc, PQ_INIT_SHARE_VPORT, port i⟩

def qedInitQmOffloadPq (h : QmHwfn) : QmInfo → QmInfo := initQmPqs .ofld h (mtcReqs h .ofld)

def qedInitQmLowLatencyPq (h : QmHwfn) : QmInfo → QmInfo := initQmPqs .llt h (mtcReqs h .llt)

def qedInitQmOffloadPqGroup (h : QmHwfn) (q : QmInfo) : QmInfo :=
  initQmPqs .grp h (q.offloadGroup.mapIdx fun i g =>
    ⟨.grp i, g.1, PQ_INIT_SHARE_VPORT, g.2⟩) q

def qedInitQmVfSingleRdmaPq (h : QmHwfn) : QmInfo → QmInfo :=
  initQmPqs .vsr h [⟨.vfRdmaAll, qedGetOffloadTc h, { PQ_INIT_VF_RL with shareVport := true },
    h.portId⟩]

/-- The PQs of one VF: the L2 PQ, and with `PQ_FLAGS_VFR` an RDMA PQ that gives the two their
vport. -/
def vfReqs (h : QmHwfn) (vfIdx : ℕ) : List PqReq :=
  if qedGetPqFlags h .vfr then
    [⟨.vf vfIdx, PQ_INIT_DEFAULT_TC, { PQ_INIT_VF_RL with shareVport := true }, h.portId⟩,
      ⟨.vfRdma vfIdx, qedGetOffloadTc h, PQ_INIT_VF_RL, h.portId⟩]
  else [⟨.vf vfIdx, PQ_INIT_DEFAULT_TC, PQ_INIT_VF_RL, h.portId⟩]

def qedInitQmVfPqs (h : QmHwfn) : QmInfo → QmInfo :=
  initQmPqs .vfs h ((range (qedInitQmGetNumActiveVfs h)).flatMap (vfReqs h))

def qedInitQmAdvanceVport (h : QmHwfn) (q : QmInfo) : QmInfo :=
  { q with
    pqOverflow := q.pqOverflow || qedInitQmGetNumVports h ≤ q.numVports
    numVports := (q.numVports + 1) % 2 ^ 16 }

def qedInitQmPqParams (h : QmHwfn) (q : QmInfo) : QmInfo :=
  let q := qedInitQmRlPqs h q
  let q := qedInitQmMcosPqs h q
  let q := qedInitQmLbPq h q
  let q := qedInitQmOooPq h q
  let q := qedInitQmPureAckPq h q
  let q := qedInitQmOffloadPq h q
  let q := qedInitQmLowLatencyPq h q
  let q := qedInitQmOffloadPqGroup h q
  let q := qedInitQmVfSingleRdmaPq h q
  let q := qedInitQmAdvanceVport h q
  qedInitQmVfPqs h q

def qedInitQmResetParams (q : QmInfo) : QmInfo :=
  { q with
    numPqs := 0
    numVports := 0
    numRls := 0
    numPfRls := 0
    numVfPqs := 0
    first := fun flag =>
      if flag = .vfs ∨ flag = .mcos ∨ flag = .rls ∨ flag = .vsr then 0 else q.first flag
    pqOverflow := false
    made := [] }

def qedInitQmParams (h : QmHwfn) (q : QmInfo) : QmInfo :=
  let fourPort := h.numPortsInEngine = MAX_NUM_PORTS_K2
  { q with
    startPq := h.pq.start % 2 ^ 16
    startVport := h.pq.start % 2 ^ 16
    startRl := h.rl.start % 2 ^ 16
    maxPhysTcsPerPort := if fourPort then NUM_PHYS_TCS_4PORT_K2 else NUM_OF_PHYS_TCS
    oooTc := if q.oooTc ≠ 0 then q.oooTc
      else if fourPort then DCBX_TCP_OOO_K2_4PORT_TC else DCBX_TCP_OOO_TC }

def qedInitQmInfo (h : QmHwfn) (q : QmInfo) : QmInfo :=
  qedInitQmPqParams h (qedInitQmParams h (qedInitQmResetParams q))

/-! ## Getters -/

def qedGetCmPqIdx (h : QmHwfn) (q : QmInfo) (flag : PqFlag) : ℕ :=
  (qedInitQmGetIdxFromFlags h q flag + CM_TX_PQ_BASE) % 2 ^ 16

/-- `qed_get_cm_pq_idx_tc`, through `qed_get_pq_idx`. -/
def qedGetCmPqIdxTc (h : QmHwfn) (q : QmInfo) (flag : PqFlag) (tc : ℕ) : ℕ :=
  if qedInitQmGetNumTcs h = 0 then (q.startPq + CM_TX_PQ_BASE) % 2 ^ 16
  else
    (qedInitQmGetIdxFromFlags h q flag + (if flag = .mcos then tc else 0) + CM_TX_PQ_BASE) % 2 ^ 16

def qedQmGetPqsPerVf (h : QmHwfn) : ℕ := if qedGetPqFlags h .vfr then 2 else 1

def qedGetCmPqIdxVf (h : QmHwfn) (q : QmInfo) (vf : ℕ) : ℕ :=
  let maxVf := qedInitQmGetNumActiveVfs h
  if maxVf = 0 then q.startPq
  else (qedGetCmPqIdx h q .vfs + vf % maxVf * qedQmGetPqsPerVf h) % 2 ^ 16

def qedGetCmPqIdxVfRdma (h : QmHwfn) (q : QmInfo) (vf : ℕ) : ℕ :=
  let pqIdx := if qedGetPqFlags h .vsr then qedGetCmPqIdx h q .vsr else qedGetCmPqIdxVf h q vf
  if qedGetPqFlags h .vfr then (pqIdx + 1) % 2 ^ 16 else pqIdx

def qedGetCmPqIdxRl (h : QmHwfn) (q : QmInfo) (rl : ℕ) : ℕ :=
  let pqIdx := qedGetCmPqIdx h q .rls
  let maxRl := qedInitQmGetNumPfRls h
  if maxRl = 0 then q.startPq
  else if maxRl ≤ rl then (pqIdx + maxRl - 1) % 2 ^ 16
  else (pqIdx + rl) % 2 ^ 16

def qedGetCmPqOffsetMtc (h : QmHwfn) (idx tc : ℕ) : ℕ :=
  let numTcs := qedInitQmGetNumMtcTcs h
  let pqOffset := (idx % numMtcPorts h * numTcs + tc % numTcs) % 2 ^ 16
  if qedInitQmGetNumMtcPqs h ≤ pqOffset then 0 else pqOffset

/-- `qed_get_cm_pq_idx_ofld_mtc` and `qed_get_cm_pq_idx_llt_mtc`, by their flag. With DCQCN there
are no such PQs, and RL queues take their place. -/
def getCmPqIdxMtc (flag : PqFlag) (h : QmHwfn) (q : QmInfo) (idx tc : ℕ) : ℕ :=
  if h.dcqcnEnabled then qedGetCmPqIdxRl h q idx
  else (qedGetCmPqIdx h q flag + qedGetCmPqOffsetMtc h idx tc) % 2 ^ 16

def qedGetCmPqIdxOfldMtc : QmHwfn → QmInfo → ℕ → ℕ → ℕ := getCmPqIdxMtc .ofld

def qedGetCmPqIdxLltMtc : QmHwfn → QmInfo → ℕ → ℕ → ℕ := getCmPqIdxMtc .llt

/-- `qed_get_qm_pq_from_cm_pq`: the index of a PQ in `qm_pq_params`. -/
def qedGetQmPqFromCmPq (q : QmInfo) (cmPqId : ℕ) : ℕ :=
  Word.sub 16 (Word.sub 16 cmPqId CM_TX_PQ_BASE) q.startPq

end FastLinQ.Qed
