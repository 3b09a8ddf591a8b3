import FastLinQ.Qed.Cxt.IltLayout
import FastLinQ.Qed.Iov.Vf

/-!
# The counts of connections and tasks

`qed_cxt_set_pf_params` sets the counts that the layout of the ILT is computed from, out of the
parameters of the protocol drivers. The parameters are cut to the limits of the hardware or are
small types, so the counts are `Requested`: no sum over the connection types wraps around.
-/

namespace FastLinQ.Qed

open Function Option Nat

def DQ_RANGE_ALIGN : ℕ := 16
def ROCE_MAX_QPS : ℕ := 32 * 1024
def IWARP_MAX_QPS : ℕ := 64 * 1024
def RDMA_MAX_TIDS : ℕ := 128 * 1024 - 1
def QED_IWARP_PREALLOC_CNT : ℕ := 256
def QED_RDMA_MAX_SRQS : ℕ := 32 * 1024
def QED_MAX_NUM_OF_LL2_CONNS_PF : ℕ := 4
def ETH_PF_PARAMS_VF_CONS_DEFAULT : ℕ := 32
def QED_CXT_ISCSI_TID_SEG : ℕ := PROTOCOLID_ISCSI
def QED_CXT_FCOE_TID_SEG : ℕ := PROTOCOLID_FCOE
def QED_CXT_ROCE_TID_SEG : ℕ := PROTOCOLID_ROCE

inductive RdmaProtocol
  | default
  | none
  | roce
  | iwarp
  deriving DecidableEq, Repr

/-- `struct qed_pf_params`, and what `qed_cxt_set_pf_params` reads of the function. -/
structure PfParams where
  personality : PciPersonality
  /-- `func_info.protocol == QED_PCI_ETH_RDMA` -/
  funcEthRdma : Bool
  usingLl2 : Bool
  /-- `IWARP_MAX_QPS` and the others are compiled in with `CONFIG_IWARP`. -/
  iwarp : Bool
  /-- whether `qed_ptt_acquire` succeeds -/
  ptt : Bool
  disableArfs : Bool
  rdmaProtocol : RdmaProtocol
  numQps : ℕ
  numVfQps : ℕ
  numVfTasks : ℕ
  numSrqs : ℕ
  numVfSrqs : ℕ
  ethNumCons : Fin (2 ^ 16)
  ethNumVfCons : Fin (2 ^ 8)
  ethNumArfsFilters : ℕ
  fcoeNumCons : Fin (2 ^ 16)
  fcoeNumTasks : Fin (2 ^ 16)
  iscsiNumCons : Fin (2 ^ 16)
  iscsiNumTasks : Fin (2 ^ 16)

/-! ## The counts of a protocol -/

/-- The count of a protocol: in multiples of `DQ_RANGE_ALIGN`, and for RoCE also of full lines. -/
def protoCidCount (hw : IltHw) (type count : ℕ) : ℕ :=
  let count := roundup count DQ_RANGE_ALIGN
  if type = PROTOCOLID_ROCE then
    let elemsPerPage := iltPageInBytes hw.iltPageSize / hw.connCxtSize
    let align := elemsPerPage * DQ_RANGE_ALIGN % 2 ^ 32 / Nat.gcd elemsPerPage DQ_RANGE_ALIGN
    roundup count align
  else count

def qedCxtSetProtoCidCount (hw : IltHw) (type cidCount vfCidCnt : ℕ) (req : IltReq) : IltReq :=
  { req with
    connCfg := update req.connCfg type
      ⟨protoCidCount hw type cidCount, protoCidCount hw type vfCidCnt⟩ }

def qedCxtSetProtoTidCount (proto seg segType count : ℕ) (hasFl : Bool) (req : IltReq) : IltReq :=
  { req with
    tidSeg := update req.tidSeg proto
      (update (req.tidSeg proto) seg ⟨count, segType, hasFl⟩) }

def qedCxtSetSrqCount (numSrqs numXrcSrqs numVfSrqs : ℕ) (req : IltReq) : IltReq :=
  { req with srqCount := numSrqs, xrcSrqCount := numXrcSrqs, vfsSrqCount := numVfSrqs }

/-! ## The parameters of the drivers -/

/-- The personality that RDMA is used with. -/
def PfParams.rdmaPersonality (p : PfParams) : PciPersonality :=
  match p.rdmaProtocol with
  | .default => if p.funcEthRdma then .ethRoce else p.personality
  | .none => .eth
  | .roce => if p.funcEthRdma then .ethRoce else p.personality
  | .iwarp => if p.funcEthRdma then .ethIwarp else p.personality

/-- The end of `qed_rdma_set_pf_params`: the counts are set if connections and tasks are asked for.
-/
def rdmaSetCounts (hw : IltHw) (p : PfParams) (proto numCons numVfCons numTasks numVfTasks : ℕ)
    (req : IltReq) : IltReq :=
  let req := { req with vfRdma := req.vfRdma && numVfCons != 0 && numVfTasks != 0 }
  if numCons ≠ 0 ∧ numTasks ≠ 0 then
    let req := qedCxtSetProtoCidCount hw proto numCons numVfCons req
    let req := qedCxtSetProtoTidCount PROTOCOLID_ROCE QED_CXT_ROCE_TID_SEG 1 numTasks false req
    let req := qedCxtSetProtoTidCount PROTOCOLID_ROCE TASK_SEGMENT_VF 1 numVfTasks false req
    qedCxtSetSrqCount (min QED_RDMA_MAX_SRQS p.numSrqs)
      (iltPageInBytes hw.iltPageSize / hw.srqCxtSize) p.numVfSrqs req
  else req

/-- `qed_rdma_set_pf_params`; `none` is an error. -/
def qedRdmaSetPfParams (hw : IltHw) (p : PfParams) (numTasks : ℕ) (req : IltReq) : Option IltReq :=
  match p.rdmaPersonality with
  | .ethIwarp =>
    let numCons := min IWARP_MAX_QPS p.numQps + if p.iwarp then QED_IWARP_PREALLOC_CNT else 0
    some (rdmaSetCounts hw p PROTOCOLID_IWARP numCons 0 numTasks 0 req)
  | .ethRoce =>
    if p.ptt then
      let numVfQps := if req.vfRdma then min ROCE_MAX_QPS p.numVfQps else 0
      let numVfTasks := if req.vfRdma then min RDMA_MAX_TIDS p.numVfTasks else 0
      some (rdmaSetCounts hw p PROTOCOLID_ROCE (min ROCE_MAX_QPS p.numQps * 2)
        (numVfQps * 2) numTasks
        numVfTasks req)
    else none
  | _ => some req

def ethSetCounts (hw : IltHw) (p : PfParams) (req : IltReq) : IltReq :=
  let numVfCons : ℕ :=
    if p.ethNumVfCons.val = 0 then ETH_PF_PARAMS_VF_CONS_DEFAULT else p.ethNumVfCons
  let req := qedCxtSetProtoCidCount hw PROTOCOLID_ETH p.ethNumCons numVfCons req
  if p.disableArfs then req else { req with arfsCount := p.ethNumArfsFilters }

/-- The counts of a storage protocol, which has force load memory. -/
def storageSetCounts (hw : IltHw) (proto seg numCons numTasks : ℕ) (req : IltReq) : IltReq :=
  if numCons ≠ 0 ∧ numTasks ≠ 0 then
    qedCxtSetProtoTidCount proto seg 0 numTasks true (qedCxtSetProtoCidCount hw proto numCons 0 req)
  else req

/-- `qed_cxt_set_pf_params`; `none` is an error. -/
def qedCxtSetPfParams (hw : IltHw) (p : PfParams) (rdmaTasks : ℕ) (req : IltReq) : Option IltReq :=
  if p.usingLl2 ∧ ¬ p.ptt then none
  else
    let coreCids := if p.usingLl2 then 1 + QED_MAX_NUM_OF_LL2_CONNS_PF else 1
    let vfCoreCids := if p.usingLl2 && req.vfRdma then QED_MAX_NUM_OF_LL2_CONNS_VF else 0
    let req := qedCxtSetProtoCidCount hw PROTOCOLID_CORE coreCids vfCoreCids req
    match p.personality with
    | .ethRdma | .ethIwarp | .ethRoce =>
      (qedRdmaSetPfParams hw p rdmaTasks req).map (ethSetCounts hw p)
    | .eth => some (ethSetCounts hw p req)
    | .fcoe =>
      some (storageSetCounts hw PROTOCOLID_FCOE QED_CXT_FCOE_TID_SEG p.fcoeNumCons
        p.fcoeNumTasks req)
    | .iscsi =>
      some (storageSetCounts hw PROTOCOLID_ISCSI QED_CXT_ISCSI_TID_SEG p.iscsiNumCons
        p.iscsiNumTasks req)
    | .default => none

/-! ## The counts are as requested -/

theorem roundup_le (x y : ℕ) : roundup x y ≤ x + (y - 1) :=
  (div_mul_le_self ..).trans (mod_le ..)

variable {hw : IltHw} {req : IltReq} {type count vfCount : ℕ}

/-- A full line does not hold more than 2048 contexts. -/
theorem protoCidCount_le (hw : IltHw) (hcount : count ≤ 65792)
    (hroce : type = PROTOCOLID_ROCE → count ≤ 65536) : protoCidCount hw type count ≤ 98304 := by
  simp only [protoCidCount]
  split
  · have hcxt := hw.le_connCxtSize
    have helems : iltPageInBytes hw.iltPageSize / hw.connCxtSize ≤ 2048 := by
      have hpage : iltPageInBytes hw.iltPageSize ≤ 2 ^ 22 :=
        Nat.pow_le_pow_right (by decide) (by have := hw.iltPageSize_le; omega)
      exact Nat.div_le_of_le_mul (hpage.trans (Nat.mul_le_mul_right 2048 hcxt))
    generalize iltPageInBytes hw.iltPageSize / hw.connCxtSize = elems at helems ⊢
    have hlines : elems * DQ_RANGE_ALIGN % 2 ^ 32 / Nat.gcd elems DQ_RANGE_ALIGN ≤ 32768 :=
      (Nat.div_le_self ..).trans ((mod_le ..).trans (mul_le_mul_right 16 helems))
    have halign : roundup count DQ_RANGE_ALIGN ≤ 65536 := by
      rw [roundup, DQ_RANGE_ALIGN]
      omega
    have := roundup_le (roundup count DQ_RANGE_ALIGN)
      (elems * DQ_RANGE_ALIGN % 2 ^ 32 / Nat.gcd elems DQ_RANGE_ALIGN)
    omega
  · have halign : roundup count DQ_RANGE_ALIGN ≤ count + 15 := roundup_le ..
    omega

theorem IltReq.Requested.setCids (h : req.Requested) (hw : IltHw) (hcount : count ≤ 65792)
    (hvf : vfCount ≤ 65536) (hroce : type = PROTOCOLID_ROCE → count ≤ 65536) :
    (qedCxtSetProtoCidCount hw type count vfCount req).Requested := by
  refine ⟨fun t => ?_, fun t => ?_, h.vfTids⟩
  · by_cases ht : t = type
    · simpa [qedCxtSetProtoCidCount, ht] using protoCidCount_le hw hcount hroce
    · simpa [qedCxtSetProtoCidCount, ht] using h.cidCount t
  · by_cases ht : t = type
    · simpa [qedCxtSetProtoCidCount, ht] using
        protoCidCount_le hw (hvf.trans (by decide)) fun _ => hvf
    · simpa [qedCxtSetProtoCidCount, ht] using h.cidsPerVf t

theorem IltReq.Requested.setTids (h : req.Requested) (proto : ℕ) {seg : ℕ} (segType : ℕ)
    (hasFl : Bool) (hcount : seg = TASK_SEGMENT_VF → count ≤ 2 ^ 17) :
    (qedCxtSetProtoTidCount proto seg segType count hasFl req).Requested := by
  refine ⟨h.cidCount, h.cidsPerVf, fun t => ?_⟩
  by_cases ht : t = proto
  · subst ht
    by_cases hseg : TASK_SEGMENT_VF = seg
    · simpa [qedCxtSetProtoTidCount, hseg] using hcount hseg.symm
    · simpa [qedCxtSetProtoTidCount, hseg] using h.vfTids t
  · simpa [qedCxtSetProtoTidCount, ht] using h.vfTids t

variable {p : PfParams}

section

variable (h : req.Requested)

include h

theorem IltReq.Requested.rdma {proto numCons numVfCons numTasks numVfTasks : ℕ}
    (hcons : numCons ≤ 65792) (hvf : numVfCons ≤ 65536)
    (hroce : proto = PROTOCOLID_ROCE → numCons ≤ 65536) (htasks : numVfTasks ≤ 2 ^ 17) :
    (rdmaSetCounts hw p proto numCons numVfCons numTasks numVfTasks req).Requested := by
  have h' :
      IltReq.Requested { req with vfRdma := req.vfRdma && numVfCons != 0 && numVfTasks != 0 } :=
    { h with }
  rw [rdmaSetCounts]
  split
  · have htids := (h'.setCids hw hcons hvf hroce).setTids PROTOCOLID_ROCE 1 false
      (show QED_CXT_ROCE_TID_SEG = TASK_SEGMENT_VF → numTasks ≤ 2 ^ 17 by nofun)
    have hset := htids.setTids PROTOCOLID_ROCE 1 false
      (show TASK_SEGMENT_VF = TASK_SEGMENT_VF → numVfTasks ≤ 2 ^ 17 from fun _ => htasks)
    exact { hset with }
  · exact h'

theorem IltReq.Requested.eth (p : PfParams) : (ethSetCounts hw p req).Requested := by
  have hvf : (if p.ethNumVfCons.val = 0 then ETH_PF_PARAMS_VF_CONS_DEFAULT else p.ethNumVfCons) ≤
      65536 := by
    rw [ETH_PF_PARAMS_VF_CONS_DEFAULT]
    split <;> omega
  have hset : (qedCxtSetProtoCidCount hw PROTOCOLID_ETH p.ethNumCons _ req).Requested :=
    h.setCids hw (by omega) hvf nofun
  rw [ethSetCounts]
  split
  · exact hset
  · exact { hset with }

theorem IltReq.Requested.storage {proto seg : ℕ} (numCons numTasks : Fin (2 ^ 16))
    (hproto : proto ≠ PROTOCOLID_ROCE) (hseg : seg ≠ TASK_SEGMENT_VF) :
    (storageSetCounts hw proto seg numCons numTasks req).Requested := by
  rw [storageSetCounts]
  split
  · exact (h.setCids hw (by omega) (zero_le _) fun h => absurd h hproto).setTids _ _ _
      fun h => absurd h hseg
  · exact h

/-- The counts of RDMA are cut to what the hardware has. -/
theorem IltReq.Requested.setRdma {numTasks : ℕ} {req' : IltReq}
    (hset : qedRdmaSetPfParams hw p numTasks req = some req') : req'.Requested := by
  rw [qedRdmaSetPfParams] at hset
  split at hset
  · cases hset
    refine h.rdma ?_ (zero_le _) nofun (zero_le _)
    rw [IWARP_MAX_QPS, QED_IWARP_PREALLOC_CNT]
    split <;> omega
  · split at hset
    · cases hset
      refine h.rdma ?_ ?_ (fun _ => ?_) ?_
      · rw [ROCE_MAX_QPS]
        omega
      · rw [ROCE_MAX_QPS]
        split <;> omega
      · rw [ROCE_MAX_QPS]
        omega
      · rw [RDMA_MAX_TIDS]
        split <;> omega
    · cases hset
  · cases hset
    exact h

/-- **The counts that `qed_cxt_set_pf_params` sets** are as the layout needs them. -/
theorem requested_setPfParams {rdmaTasks : ℕ} {req' : IltReq}
    (hset : qedCxtSetPfParams hw p rdmaTasks req = some req') : req'.Requested := by
  rw [qedCxtSetPfParams] at hset
  split at hset
  · cases hset
  have hcore : (qedCxtSetProtoCidCount hw PROTOCOLID_CORE
      (if p.usingLl2 then 1 + QED_MAX_NUM_OF_LL2_CONNS_PF else 1)
      (if p.usingLl2 && req.vfRdma then QED_MAX_NUM_OF_LL2_CONNS_VF else 0) req).Requested :=
    h.setCids hw (by split <;> decide) (by split <;> decide) nofun
  simp only at hset
  split at hset
  · obtain ⟨req₁, hreq₁, rfl⟩ := map_eq_some_iff.1 hset
    exact (hcore.setRdma hreq₁).eth p
  · obtain ⟨req₁, hreq₁, rfl⟩ := map_eq_some_iff.1 hset
    exact (hcore.setRdma hreq₁).eth p
  · obtain ⟨req₁, hreq₁, rfl⟩ := map_eq_some_iff.1 hset
    exact (hcore.setRdma hreq₁).eth p
  · cases hset
    exact hcore.eth p
  · cases hset
    exact hcore.storage p.fcoeNumCons p.fcoeNumTasks (by decide) (by decide)
  · cases hset
    exact hcore.storage p.iscsiNumCons p.iscsiNumTasks (by decide) (by decide)
  · cases hset

end

end FastLinQ.Qed
