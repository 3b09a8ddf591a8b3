import FastLinQ.Qed.Cxt.CidRun
import FastLinQ.Qed.Iov.Vf

/-!
# LL2 connections of a VF

A VF opens a light-L2 connection with an `ESTABLISH_LL2_CONN` message and closes it with
`TERMINATE_LL2_CONN`. The PF takes a core CID for the connection, sends the ramrods that start its
queues and stores the CID in `vf_ll2_queues`; closing it, or the cleanup after a function-level
reset, gives the CID back.

`Ll2Owned` is what the slots are for: they hold exactly the core CIDs that the VF has. The handlers
keep to that only if nothing fails behind the point where the CID was taken, and if a slot is opened
when it is free and closed when it is in use (`Ll2Step.Orderly`, `ll2Owned_run`).
-/

namespace FastLinQ.Qed

open Run Function List Nat VfInfo

def MAX_NUM_LL2_RX_RAM_QUEUES : ℕ := 32

/-- `QED_MAX_NUM_OF_CTX_LL2_CONNS_PF`. -/
def QED_LL2_CONN_BASE_VF : ℕ := 1

def QED_LL2_INVALID_QID : ℕ := 0xff

def MAX_QED_LL2_CONN_TYPE : ℕ := 7

/-- What the handlers read of the hardware function. -/
structure Ll2Hw where
  maxNumVfs : ℕ
  resc : HwResc
  ll2CtxQueue : RescRange

/-- `qed_ll2_handle_to_queue_id` for a context-based queue of a VF, in 8 bits. -/
def qedLl2HandleToQueueId (hw : Ll2Hw) (vfId : ℕ) : ℕ :=
  let qid :=
    (hw.ll2CtxQueue.start + MAX_NUM_LL2_RX_RAM_QUEUES + QED_LL2_CONN_BASE_VF + vfId) % 2 ^ 8
  let endRange := (hw.ll2CtxQueue.start + hw.ll2CtxQueue.num + MAX_NUM_LL2_RX_RAM_QUEUES) % 2 ^ 8
  if endRange ≤ qid then QED_LL2_INVALID_QID else qid

/-- `struct vfpf_est_ll2_conn_tlv`. -/
structure EstLl2Conn where
  sbId : ℕ
  connType : ℕ
  relQid : ℕ
  rxCbRegistered : Bool
  txCbRegistered : Bool
  deriving DecidableEq, Repr

/-- `struct vfpf_terminate_ll2_conn_tlv`. -/
structure TerminateLl2Conn where
  connHandle : ℕ
  rxCbRegistered : Bool
  txCbRegistered : Bool
  deriving DecidableEq, Repr

/-- What becomes of the Rx and the Tx ramrod of a message. -/
structure Ll2Fates where
  rx : SpFate
  tx : SpFate
  deriving DecidableEq, Repr

/-- What a message leaves: the context manager, the record of the VF, the ramrods that were posted,
the places of `igu_sbs` that were read and the CIDs that were released. -/
structure Ll2Reply where
  mngr : CxtMngr
  vf : VfInfo
  ramrods : List VfRamrod
  sbReads : List ℕ
  released : List ℕ
  success : Bool

/-! ## The handlers -/

/-- The start of one of the queues; the Rx ramrod names the queue. -/
def ll2Start (vf : VfInfo) (req : EstLl2Conn) (kind : VfRamrodKind) (cid : ℕ) (queueId : Option ℕ)
    (fate : SpFate) : List VfRamrod :=
  if fate.posted then [⟨kind, vf.opaqueFid, cid, some (vf.iguSbs req.sbId), queueId⟩] else []

/-- The Rx queue of a connection: the ramrods, the reads of `igu_sbs`, and whether it was started.
-/
def ll2StartRx (hw : Ll2Hw) (vf : VfInfo) (req : EstLl2Conn) (fates : Ll2Fates) (cid absQid : ℕ) :
    List VfRamrod × List ℕ × Bool :=
  if !req.rxCbRegistered then ([], [], true)
  else
    match qedFwVport hw.resc vf.vportId with
    | none => ([], [req.sbId], false)
    | some _ =>
      (ll2Start vf req .ll2RxStart cid (some absQid) fates.rx, [req.sbId], fates.rx == .done)

/-- The Tx queue of a connection. The error of `qed_fw_vport` is overwritten here. -/
def ll2StartTx (vf : VfInfo) (req : EstLl2Conn) (fates : Ll2Fates) (cid : ℕ) :
    List VfRamrod × List ℕ × Bool :=
  if !req.txCbRegistered then ([], [], true)
  else (ll2Start vf req .ll2TxStart cid none fates.tx, [req.sbId], fates.tx == .done)

def qedIovVfPfEstablishLl2Connection (hw : Ll2Hw) (req : EstLl2Conn) (fates : Ll2Fates)
    (mngr : CxtMngr) (vf : VfInfo) : Ll2Reply :=
  if QED_MAX_NUM_OF_LL2_CONNS_VF ≤ req.relQid ∨ MAX_QED_LL2_CONN_TYPE ≤ req.connType then
    ⟨mngr, vf, [], [], [], false⟩
  else
    match qedCxtAcquireCid hw.maxNumVfs mngr PROTOCOLID_CORE vf.relativeVfId with
    | (m, none) => ⟨m, vf, [], [], [], false⟩
    | (m, some cid) =>
      let absQid := qedLl2HandleToQueueId hw vf.relativeVfId
      if absQid = QED_LL2_INVALID_QID then ⟨m, vf, [], [], [], false⟩
      else
        let rx := ll2StartRx hw vf req fates cid absQid
        let tx := ll2StartTx vf req fates cid
        if !rx.2.2 then ⟨m, vf, rx.1, rx.2.1, [], false⟩
        else if !tx.2.2 then ⟨m, vf, rx.1 ++ tx.1, rx.2.1 ++ tx.2.1, [], false⟩
        else
          ⟨m, { vf with
              vfLl2Queues := update vf.vfLl2Queues req.relQid ⟨cid, absQid, true⟩ },
            rx.1 ++ tx.1, rx.2.1 ++ tx.2.1, [], true⟩

def ll2Stop (vf : VfInfo) (kind : VfRamrodKind) (cid : ℕ) (queueId : Option ℕ) (fate : SpFate) :
    List VfRamrod :=
  if fate.posted then [⟨kind, vf.opaqueFid, cid, none, queueId⟩] else []

def qedIovVfPfTerminateLl2Conn (hw : Ll2Hw) (req : TerminateLl2Conn) (fates : Ll2Fates)
    (mngr : CxtMngr) (vf : VfInfo) : Ll2Reply :=
  if QED_MAX_NUM_OF_LL2_CONNS_VF ≤ req.connHandle then ⟨mngr, vf, [], [], [], false⟩
  else
    let q := vf.vfLl2Queues req.connHandle
    let rx := if req.rxCbRegistered then ll2Stop vf .ll2RxStop q.cid (some q.qid) fates.rx else []
    let tx := if req.txCbRegistered then ll2Stop vf .ll2TxStop q.cid none fates.tx else []
    if req.rxCbRegistered && fates.rx != .done then ⟨mngr, vf, rx, [], [], false⟩
    else if req.txCbRegistered && fates.tx != .done then ⟨mngr, vf, rx ++ tx, [], [], false⟩
    else
      ⟨qedCxtReleaseCid hw.maxNumVfs mngr q.cid vf.relativeVfId,
        { vf with
          vfLl2Queues := update vf.vfLl2Queues req.connHandle { q with used := false } },
        rx ++ tx, [], [q.cid], true⟩

/-! ## Function-level reset -/

/-- What the hardware says during a cleanup. -/
structure FlrFates where
  flrPoll : Bool
  finalCleanup : Bool
  enableAccess : Bool
  deriving DecidableEq, Repr

structure Ll2Sys where
  mngr : CxtMngr
  vf : VfInfo
  pendingFlr : Bool
  /-- the CIDs that were released, each with the context manager that it was released to -/
  released : List (ℕ × CxtMngr)

/-- One turn of the loop that releases the core CIDs. -/
def flrReleaseLl2 (hw : Ll2Hw) (s : Ll2Sys) (i : ℕ) : Ll2Sys :=
  let q := s.vf.vfLl2Queues i
  if q.used then
    { s with
      mngr := qedCxtReleaseCid hw.maxNumVfs s.mngr q.cid s.vf.relativeVfId
      released := s.released ++ [(q.cid, s.mngr)] }
  else s

def flrDone (s : Ll2Sys) : Ll2Sys :=
  { s with
    vf := { s.vf with state := if s.vf.state = .reset then .stopped else s.vf.state }
    pendingFlr := false }

/-- `qed_iov_vf_cleanup` for a VF that has no queues open. -/
def qedIovVfCleanup (s : Ll2Sys) : Ll2Sys :=
  { s with vf := { s.vf with vportInstance := 0, capabilities := 0 } }

/-- `qed_iov_execute_vf_flr_cleanup` for a VF that has no queues open. -/
def qedIovExecuteVfFlrCleanup (hw : Ll2Hw) (fates : FlrFates) (s : Ll2Sys) : Ll2Sys :=
  if !s.pendingFlr then s
  else
    let s := qedIovVfCleanup s
    if !s.vf.init || !fates.flrPoll then flrDone s
    else if !fates.finalCleanup then s
    else
      let s := (List.range QED_MAX_NUM_OF_LL2_CONNS_VF).foldl (flrReleaseLl2 hw) s
      let s := { s with vf := { s.vf with state := .stopped, malicious := false } }
      if fates.enableAccess then flrDone { s with vf := { s.vf with state := .free } } else s

/-! ## Runs -/

inductive Ll2Step
  | establish (req : EstLl2Conn) (fates : Ll2Fates)
  | terminate (req : TerminateLl2Conn) (fates : Ll2Fates)
  | flr
  | flrCleanup (fates : FlrFates)
  deriving DecidableEq, Repr

def Ll2Sys.apply (s : Ll2Sys) (r : Ll2Reply) : Ll2Sys :=
  { s with
    mngr := r.mngr
    vf := r.vf
    released := s.released ++ r.released.map fun c => (c, s.mngr) }

def Ll2Sys.step (hw : Ll2Hw) (s : Ll2Sys) : Ll2Step → Ll2Sys
  | .establish req fates => s.apply (qedIovVfPfEstablishLl2Connection hw req fates s.mngr s.vf)
  | .terminate req fates => s.apply (qedIovVfPfTerminateLl2Conn hw req fates s.mngr s.vf)
  | .flr => { s with vf := { s.vf with state := .reset }, pendingFlr := true }
  | .flrCleanup fates => qedIovExecuteVfFlrCleanup hw fates s

/-- A core CID that the VF has, by the context manager. -/
def HoldsCore (cfg : ℕ → ConnTypeCfg) (maxNumVfs : ℕ) (m : CxtMngr) (vfid cid : ℕ) : Prop :=
  CidOf cfg maxNumVfs PROTOCOLID_CORE vfid cid ∧ m.Marked vfid cid
  deriving Decidable

/-- A slot is in use and stores a CID. -/
def VfInfo.Stores (vf : VfInfo) (i cid : ℕ) : Prop :=
  i < QED_MAX_NUM_OF_LL2_CONNS_VF ∧ (vf.vfLl2Queues i).used ∧ (vf.vfLl2Queues i).cid = cid

instance (vf : VfInfo) (cid : ℕ) : Decidable (∃ i, vf.Stores i cid) :=
  inferInstanceAs (Decidable (∃ i, i < _ ∧ _))

/-- The slots in use hold exactly the core CIDs that the VF has, each once, and what was released
was held. -/
structure Ll2Owned (cfg : ℕ → ConnTypeCfg) (hw : Ll2Hw) (s : Ll2Sys) : Prop where
  held : ∀ c, HoldsCore cfg hw.maxNumVfs s.mngr s.vf.relativeVfId c ↔ ∃ i, s.vf.Stores i c
  once : ∀ i j c, s.vf.Stores i c → s.vf.Stores j c → i = j
  released : ∀ p ∈ s.released, HoldsCore cfg hw.maxNumVfs p.2 s.vf.relativeVfId p.1

/-- A VF before its first message: its core CIDs are free and so are its slots. -/
structure Ll2Sys.Fresh (cfg : ℕ → ConnTypeCfg) (hw : Ll2Hw) (s : Ll2Sys) : Prop where
  mapped : Mapped cfg hw.maxNumVfs s.mngr
  vfid : s.vf.relativeVfId < hw.maxNumVfs
  free : ∀ c, ¬ HoldsCore cfg hw.maxNumVfs s.mngr s.vf.relativeVfId c
  unused : ∀ i, (s.vf.vfLl2Queues i).used = false
  released : s.released = []

/-- The steps that keep the slots in order. Where a connection gets a CID, its slot is free and
nothing fails behind; a connection is closed only if it is open; and no slot is in use when a
cleanup gets to the release. -/
def Ll2Step.Orderly (cfg : ℕ → ConnTypeCfg) (hw : Ll2Hw) (s : Ll2Sys) : Ll2Step → Prop
  | .establish req fates =>
    req.relQid < QED_MAX_NUM_OF_LL2_CONNS_VF → req.connType < MAX_QED_LL2_CONN_TYPE →
    (∃ c, CidOf cfg hw.maxNumVfs PROTOCOLID_CORE s.vf.relativeVfId c ∧
      ¬ s.mngr.Marked s.vf.relativeVfId c) →
    (s.vf.vfLl2Queues req.relQid).used = false ∧
      qedLl2HandleToQueueId hw s.vf.relativeVfId ≠ QED_LL2_INVALID_QID ∧
      (req.rxCbRegistered → s.vf.vportId < hw.resc.vport.num ∧ fates.rx = .done) ∧
      (req.txCbRegistered → fates.tx = .done)
  | .terminate req fates =>
    req.connHandle < QED_MAX_NUM_OF_LL2_CONNS_VF → (req.rxCbRegistered → fates.rx = .done) →
    (req.txCbRegistered → fates.tx = .done) → (s.vf.vfLl2Queues req.connHandle).used
  | .flr => True
  | .flrCleanup fates =>
    s.pendingFlr → s.vf.init → fates.flrPoll → fates.finalCleanup →
    ∀ i < QED_MAX_NUM_OF_LL2_CONNS_VF, (s.vf.vfLl2Queues i).used = false

structure Ll2Inv (cfg : ℕ → ConnTypeCfg) (hw : Ll2Hw) (s : Ll2Sys) : Prop
    extends Ll2Owned cfg hw s where
  mapped : Mapped cfg hw.maxNumVfs s.mngr
  vfid : s.vf.relativeVfId < hw.maxNumVfs

section Step

variable {cfg : ℕ → ConnTypeCfg} {hw : Ll2Hw} {s : Ll2Sys}

/-- A step that leaves the context manager, the slots and the releases keeps the invariant. -/
theorem Ll2Inv.of_same (h : Ll2Inv cfg hw s) {s' : Ll2Sys} (hm : s'.mngr = s.mngr)
    (hid : s'.vf.relativeVfId = s.vf.relativeVfId) (hq : s'.vf.vfLl2Queues = s.vf.vfLl2Queues)
    (hr : s'.released = s.released) : Ll2Inv cfg hw s' := by
  have hstores : ∀ i c, s'.vf.Stores i c ↔ s.vf.Stores i c := fun i c => by
    unfold Stores
    rw [hq]
  refine ⟨⟨fun c => ?_, fun i j c hi hj => ?_, fun p hp => ?_⟩, ?_, ?_⟩
  · rw [hm, hid, h.held c]
    exact exists_congr fun i => (hstores i c).symm
  · exact h.once i j c ((hstores i c).mp hi) ((hstores j c).mp hj)
  · rw [hid]
    exact h.released p (hr ▸ hp)
  · rw [hm]
    exact h.mapped
  · rw [hid]
    exact h.vfid

variable {vf : VfInfo}

theorem establish_refused (req : EstLl2Conn) (fates : Ll2Fates) {mngr : CxtMngr}
    (h : req.relQid < QED_MAX_NUM_OF_LL2_CONNS_VF → req.connType < MAX_QED_LL2_CONN_TYPE →
      qedCxtAcquireCid hw.maxNumVfs mngr PROTOCOLID_CORE vf.relativeVfId = (mngr, none)) :
    qedIovVfPfEstablishLl2Connection hw req fates mngr vf = ⟨mngr, vf, [], [], [], false⟩ := by
  unfold qedIovVfPfEstablishLl2Connection
  split
  · rfl
  case isFalse hval =>
    obtain ⟨hq, ht⟩ := not_or.mp hval
    rw [h (not_le.mp hq) (not_le.mp ht)]

variable {fates : Ll2Fates}

theorem establish_done {req : EstLl2Conn} {mngr m : CxtMngr} {c : ℕ}
    (hq : req.relQid < QED_MAX_NUM_OF_LL2_CONNS_VF) (ht : req.connType < MAX_QED_LL2_CONN_TYPE)
    (hacq : qedCxtAcquireCid hw.maxNumVfs mngr PROTOCOLID_CORE vf.relativeVfId = (m, some c))
    (hqid : qedLl2HandleToQueueId hw vf.relativeVfId ≠ QED_LL2_INVALID_QID)
    (hrx : req.rxCbRegistered → vf.vportId < hw.resc.vport.num ∧ fates.rx = .done)
    (htx : req.txCbRegistered → fates.tx = .done) :
    let r := qedIovVfPfEstablishLl2Connection hw req fates mngr vf
    r.mngr = m ∧ r.vf =
        { vf with
          vfLl2Queues := update vf.vfLl2Queues req.relQid
            ⟨c, qedLl2HandleToQueueId hw vf.relativeVfId, true⟩ } ∧ r.released = [] := by
  have hrx' : (ll2StartRx hw vf req fates c (qedLl2HandleToQueueId hw vf.relativeVfId)).2.2 := by
    unfold ll2StartRx
    cases hcb : req.rxCbRegistered with
    | false => rfl
    | true =>
      obtain ⟨hvport, hdone⟩ := hrx hcb
      rw [show qedFwVport hw.resc vf.vportId = _ from RescRange.abs_of_lt hvport, hdone]
      rfl
  have htx' : (ll2StartTx vf req fates c).2.2 := by
    unfold ll2StartTx
    cases hcb : req.txCbRegistered with
    | false => rfl
    | true =>
      rw [htx hcb]
      rfl
  unfold qedIovVfPfEstablishLl2Connection
  rw [if_neg (not_or.mpr ⟨not_le.mpr hq, not_le.mpr ht⟩), hacq]
  dsimp only
  rw [if_neg hqid, if_neg (by simp [hrx']), if_neg (by simp [htx'])]
  exact ⟨rfl, rfl, rfl⟩

theorem stores_update {q : VfLl2Queue} {i j c : ℕ} (hi : i < QED_MAX_NUM_OF_LL2_CONNS_VF) :
    Stores { vf with vfLl2Queues := update vf.vfLl2Queues i q } j c ↔
      if j = i then q.used ∧ q.cid = c else vf.Stores j c := by
  unfold Stores
  split
  case isTrue h =>
    subst h
    simp [hi]
  case isFalse h => simp [update_of_ne h]

section

variable (h : Ll2Inv cfg hw s)

include h

theorem Ll2Inv.store {i c : ℕ} (qid : ℕ) {m : CxtMngr} (hi : i < QED_MAX_NUM_OF_LL2_CONNS_VF)
    (hunused : (s.vf.vfLl2Queues i).used = false) (hm : Mapped cfg hw.maxNumVfs m)
    (hof : CidOf cfg hw.maxNumVfs PROTOCOLID_CORE s.vf.relativeVfId c)
    (hfree : ¬ s.mngr.Marked s.vf.relativeVfId c)
    (hmark : ∀ c', m.Marked s.vf.relativeVfId c' ↔ c' = c ∨ s.mngr.Marked s.vf.relativeVfId c') :
    Ll2Inv cfg hw { s with
      mngr := m
      vf := { s.vf with vfLl2Queues := update s.vf.vfLl2Queues i ⟨c, qid, true⟩ } } := by
  have hnew : ∀ j, ¬ s.vf.Stores j c := fun j hj => hfree ((h.held c).mpr ⟨j, hj⟩).2
  refine ⟨⟨fun c' => ?_, fun j k c' hj hk => ?_, h.released⟩, hm, h.vfid⟩
  · simp only [stores_update hi]
    constructor
    · rintro ⟨hof', hm'⟩
      rcases (hmark c').mp hm' with rfl | hold
      · exact ⟨i, by simp⟩
      · obtain ⟨j, hj⟩ := (h.held c').mp ⟨hof', hold⟩
        refine ⟨j, ?_⟩
        rw [if_neg]
        · exact hj
        · rintro rfl
          exact absurd hj.2.1 (by simp [hunused])
    · rintro ⟨j, hj⟩
      split at hj
      · obtain rfl : c = c' := hj.2
        exact ⟨hof, (hmark c).mpr (.inl rfl)⟩
      · obtain ⟨hof', hold⟩ := (h.held c').mpr ⟨j, hj⟩
        exact ⟨hof', (hmark c').mpr (.inr hold)⟩
  · rw [stores_update hi] at hj hk
    split at hj
    · obtain rfl : c = c' := hj.2
      split at hk
      · rw [‹j = i›, ‹k = i›]
      · exact absurd hk (hnew k)
    · split at hk
      · obtain rfl : c = c' := hk.2
        exact absurd hj (hnew j)
      · exact h.once j k c' hj hk

theorem Ll2Inv.unstore (hfit : CidsFit cfg) {i : ℕ} (hi : i < QED_MAX_NUM_OF_LL2_CONNS_VF)
    (hused : (s.vf.vfLl2Queues i).used) :
    Ll2Inv cfg hw { s with
      mngr := qedCxtReleaseCid hw.maxNumVfs s.mngr (s.vf.vfLl2Queues i).cid s.vf.relativeVfId
      vf := { s.vf with
        vfLl2Queues := update s.vf.vfLl2Queues i { s.vf.vfLl2Queues i with used := false } }
      released := s.released ++ [((s.vf.vfLl2Queues i).cid, s.mngr)] } := by
  have hv : IsFunction hw.maxNumVfs s.vf.relativeVfId := .inr h.vfid
  have hstored : s.vf.Stores i (s.vf.vfLl2Queues i).cid := ⟨hi, hused, rfl⟩
  have hheld := (h.held _).mpr ⟨i, hstored⟩
  obtain ⟨hmap, hmark, -⟩ := release_spec h.mapped hfit hv
  refine ⟨⟨fun c => ?_, fun j k c hj hk => ?_,
    forall_mem_append.2 ⟨h.released, forall_mem_singleton.2 hheld⟩⟩, hmap, h.vfid⟩
  · simp only [stores_update hi]
    constructor
    · rintro ⟨hof, hm⟩
      obtain ⟨hm, hne⟩ := (hmark _ c hv).mp hm
      obtain ⟨j, hj⟩ := (h.held c).mp ⟨hof, hm⟩
      refine ⟨j, ?_⟩
      rw [if_neg]
      · exact hj
      · rintro rfl
        exact hne ⟨rfl, hj.2.2.symm⟩
    · rintro ⟨j, hj⟩
      split at hj
      · exact absurd hj.1 (by simp)
      case isFalse hji =>
        obtain ⟨hof, hm⟩ := (h.held c).mpr ⟨j, hj⟩
        refine ⟨hof, (hmark _ c hv).mpr ⟨hm, ?_⟩⟩
        rintro ⟨-, rfl⟩
        exact hji (h.once j i _ hj hstored)
  · rw [stores_update hi] at hj hk
    split at hj
    · exact absurd hj.1 (by simp)
    · split at hk
      · exact absurd hk.1 (by simp)
      · exact h.once j k c hj hk

theorem Ll2Inv.establish (hfit : CidsFit cfg) {req : EstLl2Conn}
    (hok : (Ll2Step.establish req fates).Orderly cfg hw s) :
    Ll2Inv cfg hw (s.step hw (.establish req fates)) := by
  have hv : IsFunction hw.maxNumVfs s.vf.relativeVfId := .inr h.vfid
  cases hc : (qedCxtAcquireCid hw.maxNumVfs s.mngr PROTOCOLID_CORE s.vf.relativeVfId).2 with
  | none =>
    have hm := (acquire_none h.mapped hc).1
    have hr := establish_refused req fates fun _ _ => Prod.ext hm hc
    refine h.of_same ?_ ?_ ?_ ?_ <;> simp [Ll2Sys.step, Ll2Sys.apply, hr]
  | some c =>
    obtain ⟨hof, hfree, hm⟩ := acquire_some h.mapped hfit hc
    by_cases hreq : req.relQid < QED_MAX_NUM_OF_LL2_CONNS_VF ∧ req.connType < MAX_QED_LL2_CONN_TYPE
    · obtain ⟨hunused, hqid, hrx, htx⟩ := hok hreq.1 hreq.2 ⟨c, hof, hfree⟩
      have hacq : qedCxtAcquireCid hw.maxNumVfs s.mngr PROTOCOLID_CORE s.vf.relativeVfId =
          (s.mngr.putBit s.vf.relativeVfId PROTOCOLID_CORE
            (c - cidStartOf cfg s.vf.relativeVfId PROTOCOLID_CORE) true, some c) := Prod.ext hm hc
      obtain ⟨hmngr, hvf, hrel⟩ := establish_done hreq.1 hreq.2 hacq hqid hrx htx
      rw [Ll2Sys.step, Ll2Sys.apply, hmngr, hvf, hrel]
      have hstore := h.store (qedLl2HandleToQueueId hw s.vf.relativeVfId) hreq.1 hunused
        (h.mapped.putBit ..) hof hfree fun c' => by
          rw [h.mapped.marked_putBit (x := true) hof hv]
          by_cases hcc : c' = c <;> simp [hcc]
      simpa using hstore
    · have hr : qedIovVfPfEstablishLl2Connection hw req fates s.mngr s.vf = _ :=
        establish_refused req fates fun hq ht => absurd ⟨hq, ht⟩ hreq
      refine h.of_same ?_ ?_ ?_ ?_ <;> simp [Ll2Sys.step, Ll2Sys.apply, hr]

theorem Ll2Inv.terminate (hfit : CidsFit cfg) {req : TerminateLl2Conn}
    (hok : (Ll2Step.terminate req fates).Orderly cfg hw s) :
    Ll2Inv cfg hw (s.step hw (.terminate req fates)) := by
  rw [Ll2Sys.step, qedIovVfPfTerminateLl2Conn]
  split
  · exact h.of_same rfl rfl rfl (append_nil _)
  case isFalse hi =>
    dsimp only
    split
    · exact h.of_same rfl rfl rfl (append_nil _)
    case isFalse hrx =>
      split
      · exact h.of_same rfl rfl rfl (append_nil _)
      case isFalse htx =>
        have hi := not_le.mp hi
        exact h.unstore hfit hi (hok hi (fun hcb => by simpa [hcb] using hrx)
          (fun hcb => by simpa [hcb] using htx))

end

theorem foldl_flrReleaseLl2 {l : List ℕ} (h : ∀ i ∈ l, (s.vf.vfLl2Queues i).used = false) :
    l.foldl (flrReleaseLl2 hw) s = s := by
  induction l with
  | nil => rfl
  | cons i l ih =>
    have hone : flrReleaseLl2 hw s i = s := by
      simp [flrReleaseLl2, h i mem_cons_self]
    rw [foldl_cons, hone]
    exact ih fun j hj => h j (mem_cons_of_mem i hj)

theorem Ll2Inv.flrCleanup (h : Ll2Inv cfg hw s) {fates : FlrFates}
    (hok : (Ll2Step.flrCleanup fates).Orderly cfg hw s) :
    Ll2Inv cfg hw (s.step hw (.flrCleanup fates)) := by
  rw [Ll2Sys.step, qedIovExecuteVfFlrCleanup]
  split
  · exact h
  case isFalse hpend =>
    dsimp only
    split
    · exact h.of_same rfl rfl rfl rfl
    case isFalse hinit =>
      split
      · exact h.of_same rfl rfl rfl rfl
      case isFalse hfinal =>
        simp only [Bool.or_eq_true, Bool.not_eq_true', not_or,
          Bool.not_eq_false] at hpend hinit hfinal
        have hunused := hok hpend hinit.1 hinit.2 hfinal
        have hfold : (List.range QED_MAX_NUM_OF_LL2_CONNS_VF).foldl (flrReleaseLl2 hw)
            (qedIovVfCleanup s) = qedIovVfCleanup s :=
          foldl_flrReleaseLl2 fun i hi => hunused i (mem_range.mp hi)
        rw [hfold]
        split
        · exact h.of_same rfl rfl rfl rfl
        · exact h.of_same rfl rfl rfl rfl

end Step

/-- **Ownership of the core CIDs of a VF.** In an orderly run of LL2 messages and function-level
resets the slots in use hold exactly the core CIDs that the VF has, each once, and no CID is
released that is not held. -/
theorem ll2Owned_run {cfg : ℕ → ConnTypeCfg} {hw : Ll2Hw} {s : Ll2Sys} {l : List Ll2Step}
    (hfit : CidsFit cfg) (hs : s.Fresh cfg hw)
    (hrun : Meets (Ll2Step.Orderly cfg hw) (Ll2Sys.step hw) s l) :
    Ll2Owned cfg hw (l.foldl (Ll2Sys.step hw) s) := by
  have hno : ∀ i c, ¬ s.vf.Stores i c := fun i c hi => absurd hi.2.1 (by simp [hs.unused i])
  have hstart : Ll2Inv cfg hw s :=
    { held := fun c => iff_of_false (hs.free c) fun ⟨i, hi⟩ => hno i c hi
      once := fun i j c hi => absurd hi (hno i c)
      released := by
        rw [hs.released]
        nofun
      mapped := hs.mapped
      vfid := hs.vfid }
  refine (hrun.invariant (P := Ll2Inv cfg hw) (fun s a h hok => ?_) hstart).toLl2Owned
  cases a with
  | establish req fates => exact h.establish hfit hok
  | terminate req fates => exact h.terminate hfit hok
  | flr => exact h.of_same rfl rfl rfl rfl
  | flrCleanup fates => exact h.flrCleanup hok

/-! ## A VF and its one core CID -/

/-- VF 3, with a vport and no queues open. -/
def ll2Vf : VfInfo := { plainVf with relativeVfId := 3, absVfId := 3 }

def ll2Hw : Ll2Hw := ⟨120, ⟨⟨16, 0⟩, ⟨8, 0⟩, ⟨8, 0⟩⟩, ⟨16, 0⟩⟩

def ll2Begin : Ll2Sys := ⟨smallCxtMngr, ll2Vf, false, []⟩

def ll2Conn : EstLl2Conn := ⟨0, 2, 0, true, true⟩

theorem ll2Begin_fresh : ll2Begin.Fresh smallCidCfg ll2Hw := by
  have hm : qedCidMapAlloc (fun _ _ => true) 120 smallCidCfg
      (.alloc 120 fun _ _ => ⟨0, 1, some fun _ => true⟩) = some smallCxtMngr := rfl
  obtain ⟨hmap, hfree⟩ := cidMapAlloc_spec cidsFit_small hm
  exact ⟨hmap, by decide, fun c hc => hfree 3 c (.inr (by decide)) hc.2, fun _ => rfl, rfl⟩

/-- A connection is opened and closed, the VF is reset and opens it again. -/
theorem ll2Owned_reopened :
    Ll2Owned smallCidCfg ll2Hw
      (([.establish ll2Conn ⟨.done, .done⟩, .terminate ⟨0, true, true⟩ ⟨.done, .done⟩, .flr,
        .flrCleanup ⟨true, true, true⟩, .establish ll2Conn ⟨.done, .done⟩] : List Ll2Step).foldl
        (Ll2Sys.step ll2Hw) ll2Begin) := by
  refine ll2Owned_run cidsFit_small ll2Begin_fresh ⟨?_, ?_, trivial, ?_, ?_, trivial⟩
  · exact fun _ _ _ => ⟨rfl, by decide, fun _ => ⟨by decide, rfl⟩, fun _ => rfl⟩
  · intro _ _ _
    decide +kernel
  · intro _ _ _ _
    decide +kernel
  · exact fun _ _ _ => ⟨by decide +kernel, by decide, fun _ => ⟨by decide, rfl⟩, fun _ => rfl⟩

/-- The CID of a connection whose Rx ramrod fails stays acquired; closing a connection that is not
open releases a CID that is not held; and after a reset the slot still stores the CID that was
released. -/
theorem not_ll2Owned_ll2Begin :
    ¬ Ll2Owned smallCidCfg ll2Hw (ll2Begin.step ll2Hw (.establish ll2Conn ⟨.failed, .done⟩)) ∧
      ¬ Ll2Owned smallCidCfg ll2Hw
        (ll2Begin.step ll2Hw (.terminate ⟨0, false, false⟩ ⟨.done, .done⟩)) ∧
      ¬ Ll2Owned smallCidCfg ll2Hw
        (([.establish ll2Conn ⟨.done, .done⟩, .flr, .flrCleanup ⟨true, true, true⟩] :
          List Ll2Step).foldl (Ll2Sys.step ll2Hw) ll2Begin) := by
  refine ⟨fun h => ?_, fun h => ?_, fun h => ?_⟩
  · exact absurd (h.held 0) (by decide +kernel)
  · exact absurd (h.released (0, smallCxtMngr) (mem_singleton.mpr rfl)) (by decide +kernel)
  · exact absurd (h.held 0) (by decide +kernel)

end FastLinQ.Qed
