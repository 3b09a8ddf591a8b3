import FastLinQ.Foundations.Fill
import FastLinQ.Qed.Iov.Vf

/-!
# RSS configuration by a VF

A VF asks for an RSS configuration in a TLV of its vport-update request. The PF checks the TLV
(`qedIovVpUpdateRssParam`), translates the queue indices of the VF to queues, and encodes the result
in the vport-update ramrod (`qedSpVportUpdateRss`). The table has `2 ^ rss_table_size_log` entries,
at most `QED_RSS_IND_TABLE_SIZE`; the two functions compute that number each on its own, the check
in 16 bits from a 64-bit shift, the encoder in an `int`.

`Spread` is what the configuration should satisfy: the firmware is given queues of the VF only, and
what passes the check is encoded. `spread_iff` says for which records and TLVs it does.
-/

namespace FastLinQ.Qed

open Nat Option RescRange QueueCid

def VFPF_UPDATE_RSS_CONFIG_FLAG : ℕ := 1
def VFPF_UPDATE_RSS_CAPS_FLAG : ℕ := 2
def VFPF_UPDATE_RSS_IND_TABLE_FLAG : ℕ := 4
def VFPF_UPDATE_RSS_KEY_FLAG : ℕ := 8

def QED_IOV_VP_UPDATE_ACCEPT_PARAM : ℕ := 4
def QED_IOV_VP_UPDATE_RSS : ℕ := 5
def QED_IOV_VP_UPDATE_ACCEPT_ANY_VLAN : ℕ := 6

/-- `struct vfpf_vport_update_rss_tlv`. -/
structure RssTlv where
  updateRssFlags : ℕ
  rssEnable : ℕ
  rssCaps : ℕ
  rssTableSizeLog : ℕ
  rssIndTable : ℕ → ℕ
  rssKey : ℕ → ℕ

def RssTlv.flag (tlv : RssTlv) (f : ℕ) : Bool := tlv.updateRssFlags &&& f != 0

def RssTlv.config (tlv : RssTlv) : Bool := tlv.flag VFPF_UPDATE_RSS_CONFIG_FLAG
def RssTlv.caps (tlv : RssTlv) : Bool := tlv.flag VFPF_UPDATE_RSS_CAPS_FLAG
def RssTlv.ind (tlv : RssTlv) : Bool := tlv.flag VFPF_UPDATE_RSS_IND_TABLE_FLAG
def RssTlv.key (tlv : RssTlv) : Bool := tlv.flag VFPF_UPDATE_RSS_KEY_FLAG

/-- `struct qed_rss_params`; `none` is the null pointer. -/
structure RssParams where
  updateRssConfig : Bool
  rssEnable : ℕ
  rssEngId : ℕ
  updateRssCapabilities : Bool
  updateRssIndTable : Bool
  updateRssKey : Bool
  rssCaps : ℕ
  rssTableSizeLog : ℕ
  rssIndTable : ℕ → Option QueueCid
  rssKey : ℕ → ℕ

/-- `struct eth_vport_rss_config`. -/
structure RssConfig where
  rssId : ℕ
  updateRssCapabilities : Bool
  updateRssIndTable : Bool
  updateRssKey : Bool
  rssMode : Bool
  capabilities : ℕ
  tblSize : ℕ
  indirectionTable : ℕ → ℕ
  rssKey : ℕ → ℕ

/-- `struct vport_update_ramrod_data`. -/
structure VportUpdateRamrod where
  updateRssFlg : Bool
  rssConfig : RssConfig

/-- The ramrod data that `qed_sp_init_request` leaves: all bytes are zero. -/
def VportUpdateRamrod.zero : VportUpdateRamrod where
  updateRssFlg := false
  rssConfig := ⟨0, false, false, false, false, 0, 0, fun _ => 0, fun _ => 0⟩

/-! ## The check of the PF -/

/-- `table_size` of the check: `min_t(u16, .., BIT(log))`, where `BIT` shifts an `unsigned long` and
the processor takes the count modulo 64. -/
def rssTableSize (vf : VfInfo) (tlv : RssTlv) : ℕ :=
  if tlv.caps then min QED_RSS_IND_TABLE_SIZE (2 ^ (tlv.rssTableSizeLog % 64) % 2 ^ 16)
  else vf.rssTblSize

/-- The queue that a turn of the loop stores; `none` if the VF has no open Rx queue there. -/
def rssEntry (vf : VfInfo) (tlv : RssTlv) (i : ℕ) : Option (Option QueueCid) :=
  if qedIovValidateRxq vf (tlv.rssIndTable i) .enable then
    some (qedIovGetVfRxQueueCid (vf.vfQueues (tlv.rssIndTable i)))
  else none

/-- The table that the check fills: all entries are null if the table is not updated. -/
def rssTable (vf : VfInfo) (tlv : RssTlv) : Option (ℕ → Option QueueCid) :=
  if tlv.ind then fillTable (rssEntry vf tlv) (rssTableSize vf tlv) 0 (fun _ => none)
  else some (fun _ => none)

/-- The parameters that the check hands on; `none` if it rejects the TLV. -/
def rssParams (vf : VfInfo) (tlv : RssTlv) : Option RssParams :=
  match rssTable vf tlv with
  | none => none
  | some tbl =>
    if tlv.config && tlv.rssEnable != 0 && !tlv.ind && !vf.rssIndTblValid then none
    else if !tlv.ind && tlv.caps && decide (vf.rssIndTblSize < rssTableSize vf tlv) then none
    else some
      { updateRssConfig := tlv.config
        rssEnable := tlv.rssEnable
        rssEngId := vf.rssEngId
        updateRssCapabilities := tlv.caps
        updateRssIndTable := tlv.ind
        updateRssKey := tlv.key
        rssCaps := tlv.rssCaps
        rssTableSizeLog := tlv.rssTableSizeLog
        rssIndTable := tbl
        rssKey := tlv.rssKey }

theorem rssTableSize_le (vf : VfInfo) (tlv : RssTlv) :
    rssTableSize vf tlv ≤ QED_RSS_IND_TABLE_SIZE := by
  unfold rssTableSize
  split
  · exact min_le_left _ _
  · exact vf.rssTblSize_le

def VfInfo.saveRss (vf : VfInfo) (tlv : RssTlv) : VfInfo :=
  { vf with
    rssEnabled := if tlv.config then tlv.rssEnable != 0 else vf.rssEnabled
    rssIndTblValid := tlv.ind || vf.rssIndTblValid
    rssIndTblSize := if tlv.ind then rssTableSize vf tlv else vf.rssIndTblSize
    rssTblSize := if tlv.caps then rssTableSize vf tlv else vf.rssTblSize
    rssTblSize_le := by
      split
      · exact rssTableSize_le vf tlv
      · exact vf.rssTblSize_le }

/-- What `qed_iov_vp_update_rss_param` leaves. -/
structure RssUpdate where
  vf : VfInfo
  rssParams : Option RssParams
  tlvsMask : ℕ
  tlvsAccepted : ℕ

def qedIovVpUpdateRssParam (vf : VfInfo) (tlv : Option RssTlv) (tlvsMask tlvsAccepted : ℕ) :
    RssUpdate :=
  match tlv with
  | none => ⟨vf, none, tlvsMask, tlvsAccepted⟩
  | some tlv =>
    match rssParams vf tlv with
    | none => ⟨vf, none, tlvsMask ||| 1 <<< QED_IOV_VP_UPDATE_RSS, tlvsAccepted⟩
    | some p =>
      ⟨vf.saveRss tlv, some p, tlvsMask ||| 1 <<< QED_IOV_VP_UPDATE_RSS,
        tlvsAccepted ||| 1 <<< QED_IOV_VP_UPDATE_RSS⟩

/-! ## The encoder -/

/-- `table_size` of the encoder: `min_t(int, .., 1 << log)`, where the processor takes the count
modulo 32 and a shift into the sign bit is negative. -/
def fwTableSize (log : ℕ) : ℤ :=
  min (QED_RSS_IND_TABLE_SIZE : ℤ) (if log % 32 = 31 then -2 ^ 31 else 2 ^ (log % 32))

/-- `none` is `-EINVAL`. -/
def qedSpVportUpdateRss (resc : HwResc) (ramrod : VportUpdateRamrod) :
    Option RssParams → Option VportUpdateRamrod
  | none => some { ramrod with updateRssFlg := false }
  | some p =>
    match qedFwRssEng resc p.rssEngId with
    | none => none
    | some rssId =>
      match fillTable (fun i => (p.rssIndTable i).map absQueueId)
          (fwTableSize p.rssTableSizeLog).toNat 0 ramrod.rssConfig.indirectionTable with
      | none => none
      | some tbl => some
          { updateRssFlg := p.updateRssConfig
            rssConfig :=
              { rssId := rssId
                updateRssCapabilities := p.updateRssCapabilities
                updateRssIndTable := p.updateRssIndTable
                updateRssKey := p.updateRssKey
                rssMode := p.rssEnable != 0
                capabilities := p.rssCaps % 2 ^ 6
                tblSize := p.rssTableSizeLog
                indirectionTable := tbl
                rssKey := p.rssKey } }

/-! ## The request -/

/-- What a vport-update request meets besides the RSS TLV. -/
structure VportUpdateEnv where
  resc : HwResc
  /-- `vzalloc` finds memory -/
  alloc : Bool
  /-- the TLVs before the one for RSS, as a mask -/
  otherTlvs : ℕ
  /-- `qed_iov_get_public_vf_info` finds the VF -/
  publicVf : Bool
  /-- `qed_sp_init_request` succeeds -/
  initRequest : Bool

/-- Whether `qed_iov_pre_update_vport` lets the TLVs pass. -/
def qedIovPreUpdateVport (env : VportUpdateEnv) (tlvsAccepted : ℕ) : Bool :=
  tlvsAccepted &&&
    (1 <<< QED_IOV_VP_UPDATE_ACCEPT_PARAM ||| 1 <<< QED_IOV_VP_UPDATE_ACCEPT_ANY_VLAN)
    == 0 || env.publicVf

/-- The ramrod that `qed_sp_vport_update` posts. -/
def qedSpVportUpdate (env : VportUpdateEnv) (vportId : ℕ) (rss : Option RssParams) :
    Option VportUpdateRamrod :=
  match qedFwVport env.resc vportId with
  | none => none
  | some _ => if env.initRequest then qedSpVportUpdateRss env.resc .zero rss else none

/-- The record after the request, and the ramrod that was posted. -/
def qedIovVfMbxVportUpdate (env : VportUpdateEnv) (vf : VfInfo) (tlv : Option RssTlv) :
    VfInfo × Option VportUpdateRamrod :=
  if vf.vportInstance = 0 then (vf, none)
  else if !env.alloc then (vf, none)
  else
    let u := qedIovVpUpdateRssParam vf tlv env.otherTlvs env.otherTlvs
    if !qedIovPreUpdateVport env u.tlvsAccepted then (u.vf, none)
    else if u.tlvsAccepted = 0 then (u.vf, none)
    else (u.vf, qedSpVportUpdate env vf.vportId u.rssParams)

/-! ## What the configuration should satisfy -/

def VfInfo.RxActive (vf : VfInfo) (qid : ℕ) : Prop :=
  qid < vf.numRxqs ∧ ∃ idx c, vf.OpenAt qid idx false c

/-- An absolute id is the one of an Rx queue that is open on the VF. -/
def VfInfo.HasRxQueue (vf : VfInfo) (id : ℕ) : Prop :=
  ∃ qid < vf.numRxqs, ∃ idx c, vf.OpenAt qid idx false c ∧ c.absQueueId = id

/-- The firmware is given queues of the VF only, and what the PF accepts is encoded. -/
structure Spread (env : VportUpdateEnv) (vf : VfInfo) (tlv : RssTlv) : Prop where
  own : ∀ r, (qedIovVfMbxVportUpdate env vf (some tlv)).2 = some r → r.rssConfig.updateRssIndTable →
    ∀ i < min 128 (2 ^ tlv.rssTableSizeLog), vf.HasRxQueue (r.rssConfig.indirectionTable i)
  encoded : ∀ mask accepted p,
    (qedIovVpUpdateRssParam vf (some tlv) mask accepted).rssParams = some p →
      ∀ ramrod, (qedSpVportUpdateRss env.resc ramrod (some p)).isSome

def RssTlv.entries (vf : VfInfo) (tlv : RssTlv) : ℕ :=
  if tlv.caps then
    if tlv.rssTableSizeLog % 64 < 16 then min 128 (2 ^ (tlv.rssTableSizeLog % 64)) else 0
  else vf.rssTblSize

structure RssTlv.Acceptable (vf : VfInfo) (tlv : RssTlv) : Prop where
  queues : tlv.ind → ∀ i < tlv.entries vf, vf.RxActive (tlv.rssIndTable i)
  configured : tlv.config → tlv.rssEnable ≠ 0 → tlv.ind = false → vf.rssIndTblValid
  known : tlv.ind = false → tlv.caps → tlv.entries vf ≤ vf.rssIndTblSize

/-- What the request meets on its way to the firmware lets it pass. -/
structure VportUpdateEnv.Posts (env : VportUpdateEnv) (vf : VfInfo) : Prop where
  instance_pos : vf.vportInstance ≠ 0
  alloc : env.alloc
  preUpdate : env.otherTlvs &&& 80 = 0 ∨ env.publicVf
  vport : vf.vportId < env.resc.vport.num
  initRequest : env.initRequest

/-- The check and the encoder go by the same entries. -/
structure RssTlv.Coherent (env : VportUpdateEnv) (vf : VfInfo) (tlv : RssTlv) : Prop where
  eng : vf.rssEngId < env.resc.rssEng.num
  size : tlv.rssTableSizeLog % 32 = 31 ∨
    tlv.ind ∧ min 128 (2 ^ (tlv.rssTableSizeLog % 32)) ≤ tlv.entries vf
  whole : tlv.ind → env.Posts vf → (tlv.rssTableSizeLog % 32 ≠ 31 ∧
      min 128 (2 ^ tlv.rssTableSizeLog) ≤ min 128 (2 ^ (tlv.rssTableSizeLog % 32))) ∨
    vf.HasRxQueue 0

/-! ## The check accepts what is acceptable -/

theorem rssTableSize_eq (vf : VfInfo) (tlv : RssTlv) : rssTableSize vf tlv = tlv.entries vf := by
  unfold rssTableSize RssTlv.entries
  split
  case isFalse => rfl
  case isTrue =>
    split
    case isTrue h =>
      rw [Nat.mod_eq_of_lt (Nat.pow_lt_pow_right (by decide) h)]
      rfl
    case isFalse h =>
      rw [mod_eq_zero_of_dvd (pow_dvd_pow 2 (not_lt.mp h))]
      rfl

variable {tlv : RssTlv} {vf : VfInfo}

theorem rssEntry_isSome {i : ℕ} : (rssEntry vf tlv i).isSome ↔ vf.RxActive (tlv.rssIndTable i) := by
  have hactive : vf.RxActive (tlv.rssIndTable i) ↔
      qedIovValidateRxq vf (tlv.rssIndTable i) .enable := by
    rw [validateRxq_enable]
    refine and_congr_right fun _ => ⟨?_, ?_⟩
    · rintro ⟨idx, c, h⟩
      refine isSome_iff_exists.mp (List.findSome?_isSome_iff.mpr ⟨idx, List.mem_range.mpr h.1, ?_⟩)
      simp [h.2]
    · rintro ⟨c, hc⟩
      obtain ⟨idx, h⟩ := firstCid_eq_some hc
      exact ⟨idx, c, h⟩
  unfold rssEntry
  split <;> simp [*]

theorem rssEntry_eq_some {i : ℕ} {q : Option QueueCid} (h : rssEntry vf tlv i = some q) :
    ∃ c, q = some c ∧ vf.HasRxQueue c.absQueueId := by
  unfold rssEntry at h
  split at h
  case isFalse => nomatch h
  case isTrue hv =>
    obtain ⟨hlt, c, hc⟩ := validateRxq_enable.mp hv
    obtain ⟨idx, hopen⟩ := firstCid_eq_some hc
    exact ⟨c, (some.inj h).symm.trans hc, _, hlt, idx, c, hopen, rfl⟩

theorem rssTable_isSome :
    (∃ tbl, rssTable vf tlv = some tbl) ↔
      (tlv.ind → ∀ i < tlv.entries vf, vf.RxActive (tlv.rssIndTable i)) := by
  unfold rssTable
  rw [rssTableSize_eq]
  split
  case isFalse h => simp [h]
  case isTrue h =>
    refine ⟨?_, fun hact => ?_⟩
    · rintro ⟨tbl, ht⟩ - i hi
      rw [← rssEntry_isSome, (fillTable_spec ht).1 i (zero_le i) (by omega)]
      rfl
    · exact fillTable_isSome _ fun j _ hj => rssEntry_isSome.mpr (hact h j (by omega))

/-- An entry of the table is a queue of the VF, or null where the table is not updated. -/
theorem rssTable_spec {tbl : ℕ → Option QueueCid} (h : rssTable vf tlv = some tbl) (i : ℕ) :
    (tlv.ind ∧ i < tlv.entries vf → ∃ c, tbl i = some c ∧ vf.HasRxQueue c.absQueueId) ∧
      (¬(tlv.ind ∧ i < tlv.entries vf) → tbl i = none) := by
  unfold rssTable at h
  rw [rssTableSize_eq] at h
  split at h
  case isFalse hind =>
    obtain rfl := some.inj h
    exact ⟨fun hi => absurd hi.1 hind, fun _ => rfl⟩
  case isTrue hind =>
    obtain ⟨hin, hout⟩ := fillTable_spec h
    refine ⟨fun hi => rssEntry_eq_some (hin i (zero_le i) (by omega)), fun hi => ?_⟩
    have hge : tlv.entries vf ≤ i := not_lt.mp fun hlt => hi ⟨hind, hlt⟩
    exact hout i (by omega)

/-- What the PF hands on of a TLV that it accepts. -/
structure RssParams.Of (vf : VfInfo) (tlv : RssTlv) (p : RssParams) : Prop where
  ind : p.updateRssIndTable = tlv.ind
  eng : p.rssEngId = vf.rssEngId
  log : p.rssTableSizeLog = tlv.rssTableSizeLog
  queue : ∀ i, tlv.ind ∧ i < tlv.entries vf →
    ∃ c, p.rssIndTable i = some c ∧ vf.HasRxQueue c.absQueueId
  null : ∀ i, ¬(tlv.ind ∧ i < tlv.entries vf) → p.rssIndTable i = none

variable {p : RssParams}

theorem rssParams_of (h : rssParams vf tlv = some p) : tlv.Acceptable vf ∧ p.Of vf tlv := by
  unfold rssParams at h
  split at h
  · nomatch h
  case h_2 tbl htbl =>
    split at h
    · nomatch h
    case isFalse hconf =>
      split at h
      · nomatch h
      case isFalse hknown =>
        obtain rfl := some.inj h
        rw [rssTableSize_eq] at hknown
        refine ⟨⟨rssTable_isSome.mp ⟨tbl, htbl⟩, ?_, ?_⟩,
          ⟨rfl, rfl, rfl, fun i => (rssTable_spec htbl i).1, fun i => (rssTable_spec htbl i).2⟩⟩
        · intro h₁ h₂ h₃
          by_contra hv
          exact hconf (by simp [h₁, h₂, h₃, hv])
        · intro h₁ h₂
          by_contra hv
          exact hknown (by simpa [h₁, h₂] using hv)

theorem rssParams_isSome (h : tlv.Acceptable vf) : ∃ p, rssParams vf tlv = some p := by
  obtain ⟨tbl, htbl⟩ := rssTable_isSome.mpr h.queues
  unfold rssParams
  rw [htbl]
  dsimp only
  rw [if_neg, if_neg]
  · exact ⟨_, rfl⟩
  · intro hk
    simp only [Bool.and_eq_true, Bool.not_eq_true', decide_eq_true_eq] at hk
    have := h.known hk.1.1 hk.1.2
    rw [rssTableSize_eq] at hk
    omega
  · intro hc
    simp only [Bool.and_eq_true, Bool.not_eq_true', bne_iff_ne] at hc
    have := h.configured hc.1.1.1 hc.1.1.2 hc.1.2
    simp [this] at hc

/-! ## The encoder accepts what is filled -/

theorem fwTableSize_toNat (log : ℕ) :
    (fwTableSize log).toNat = if log % 32 = 31 then 0 else min 128 (2 ^ (log % 32)) := by
  unfold fwTableSize QED_RSS_IND_TABLE_SIZE
  split
  · rfl
  · have : ((2 : ℤ) ^ (log % 32)) = ((2 ^ (log % 32) : ℕ) : ℤ) := by push_cast; rfl
    rw [this]
    generalize 2 ^ (log % 32) = x
    omega

/-- The table of the ramrod: the ids of the queues, and what was there before behind them. -/
theorem updateRss_spec {resc : HwResc} {ramrod r : VportUpdateRamrod}
    (h : qedSpVportUpdateRss resc ramrod (some p) = some r) :
    p.rssEngId < resc.rssEng.num ∧ r.rssConfig.updateRssIndTable = p.updateRssIndTable ∧
      (∀ i < (fwTableSize p.rssTableSizeLog).toNat,
        (p.rssIndTable i).map absQueueId = some (r.rssConfig.indirectionTable i)) ∧
      ∀ i, (fwTableSize p.rssTableSizeLog).toNat ≤ i →
        r.rssConfig.indirectionTable i = ramrod.rssConfig.indirectionTable i := by
  unfold qedSpVportUpdateRss at h
  dsimp only at h
  split at h
  · nomatch h
  case h_2 rssId heng =>
    split at h
    · nomatch h
    case h_2 tbl htbl =>
      obtain rfl := some.inj h
      obtain ⟨hin, hout⟩ := fillTable_spec htbl
      exact ⟨lt_of_abs heng, rfl, fun i hi => hin i (zero_le i) (by omega),
        fun i hi => hout i (by omega)⟩

theorem updateRss_isSome {resc : HwResc} {ramrod : VportUpdateRamrod} :
    (qedSpVportUpdateRss resc ramrod (some p)).isSome ↔ p.rssEngId < resc.rssEng.num ∧
        ∀ i < (fwTableSize p.rssTableSizeLog).toNat, (p.rssIndTable i).isSome := by
  constructor
  · intro h
    obtain ⟨r, hr⟩ := isSome_iff_exists.mp h
    obtain ⟨heng, -, hin, -⟩ := updateRss_spec hr
    refine ⟨heng, fun i hi => ?_⟩
    obtain ⟨c, hc, -⟩ := map_eq_some_iff.mp (hin i hi)
    exact isSome_iff_exists.mpr ⟨c, hc⟩
  · rintro ⟨heng, hfull⟩
    obtain ⟨tbl, htbl⟩ :=
      fillTable_isSome (f := fun i => (p.rssIndTable i).map absQueueId)
        (n := (fwTableSize p.rssTableSizeLog).toNat) (i := 0)
        ramrod.rssConfig.indirectionTable
        fun j _ hj => by rw [isSome_map]; exact hfull j (by omega)
    unfold qedSpVportUpdateRss
    dsimp only
    rw [show qedFwRssEng resc p.rssEngId = _ from abs_of_lt heng]
    rw [htbl]
    rfl

/-! ## The request -/

theorem vpUpdateRss_eq_some {mask accepted : ℕ} :
    (qedIovVpUpdateRssParam vf (some tlv) mask accepted).rssParams = some p ↔
      rssParams vf tlv = some p := by
  unfold qedIovVpUpdateRssParam
  dsimp only
  split <;> simp [*]

theorem preUpdateVport_rss (env : VportUpdateEnv) :
    qedIovPreUpdateVport env (env.otherTlvs ||| 1 <<< QED_IOV_VP_UPDATE_RSS) ↔
      env.otherTlvs &&& 80 = 0 ∨ env.publicVf := by
  have h : (env.otherTlvs ||| 32) &&& 80 = env.otherTlvs &&& 80 := by
    rw [and_or_distrib_right]
    exact or_zero _
  change ((((env.otherTlvs ||| 32) &&& 80) == 0) || env.publicVf) = true ↔ _
  rw [h]
  simp

theorem posted_of_posts {env : VportUpdateEnv} (hp : env.Posts vf) (h : rssParams vf tlv = some p) :
    (qedIovVfMbxVportUpdate env vf (some tlv)).2 = qedSpVportUpdateRss env.resc .zero (some p) := by
  unfold qedIovVfMbxVportUpdate qedIovVpUpdateRssParam
  rw [if_neg hp.instance_pos, if_neg (by simp [hp.alloc])]
  dsimp only
  rw [h]
  rw [if_neg (by simp [(preUpdateVport_rss env).mpr hp.preUpdate]),
      if_neg fun h0 => absurd (or_eq_zero_iff.mp h0).2 (by decide)]
  unfold qedSpVportUpdate
  rw [show qedFwVport env.resc vf.vportId = _ from abs_of_lt hp.vport]
  rw [if_pos hp.initRequest]

/-- A ramrod with a table is posted only for a TLV that the PF accepts. -/
theorem posted_of_ind {env : VportUpdateEnv} {r : VportUpdateRamrod}
    (h : (qedIovVfMbxVportUpdate env vf (some tlv)).2 = some r)
    (hind : r.rssConfig.updateRssIndTable) :
    env.Posts vf ∧ ∃ p, rssParams vf tlv = some p ∧
      qedSpVportUpdateRss env.resc .zero (some p) = some r := by
  unfold qedIovVfMbxVportUpdate at h
  split at h
  · nomatch h
  case isFalse hinst =>
    split at h
    · nomatch h
    case isFalse halloc =>
      dsimp only at h
      split at h
      · nomatch h
      case isFalse hpre =>
        split at h
        · nomatch h
        · unfold qedSpVportUpdate at h
          split at h
          · nomatch h
          case h_2 id hid =>
            split at h
            case isFalse => nomatch h
            case isTrue hreq =>
              unfold qedIovVpUpdateRssParam at h hpre
              dsimp only at h hpre
              cases hp : rssParams vf tlv with
              | none =>
                rw [hp] at h
                obtain rfl := some.inj h
                nomatch hind
              | some p =>
                rw [hp] at h hpre
                refine ⟨⟨hinst, by simpa using halloc, ?_, lt_of_abs hid, hreq⟩, p, rfl, h⟩
                exact (preUpdateVport_rss env).mp (by simpa using hpre)

/-- **RSS of a VF stays on its queues** exactly if the check and the encoder go by the same entries
wherever the check accepts. -/
theorem spread_iff (env : VportUpdateEnv) (vf : VfInfo) (tlv : RssTlv) :
    Spread env vf tlv ↔ (tlv.Acceptable vf → tlv.Coherent env vf) := by
  constructor
  · intro hs hacc
    obtain ⟨p, hp⟩ := rssParams_isSome hacc
    obtain ⟨-, hof⟩ := rssParams_of hp
    have henc := hs.encoded 0 0 p (vpUpdateRss_eq_some.mpr hp) .zero
    obtain ⟨heng, hfull⟩ := updateRss_isSome.mp henc
    rw [hof.eng] at heng
    rw [hof.log, fwTableSize_toNat] at hfull
    refine ⟨heng, ?_, fun hind hposts => ?_⟩
    · -- the last entry that the encoder reads was filled
      by_cases h31 : tlv.rssTableSizeLog % 32 = 31
      · exact .inl h31
      · rw [if_neg h31] at hfull
        have hpos : 0 < 2 ^ (tlv.rssTableSizeLog % 32) := Nat.two_pow_pos _
        have hlast := hfull (min 128 (2 ^ (tlv.rssTableSizeLog % 32)) - 1) (by omega)
        by_contra hno
        rw [hof.null _ (fun hi => hno (.inr ⟨hi.1, by omega⟩))] at hlast
        nomatch hlast
    · -- the first entry that the encoder leaves out is zero
      by_contra hno
      obtain ⟨hshort, hzero⟩ := not_or.mp hno
      obtain ⟨r, hr⟩ := isSome_iff_exists.mp henc
      obtain ⟨-, hrind, -, hbehind⟩ := updateRss_spec hr
      rw [hof.log, fwTableSize_toNat] at hbehind
      have hpow : 0 < 2 ^ tlv.rssTableSizeLog := Nat.two_pow_pos _
      have hown := hs.own r ((posted_of_posts hposts hp).trans hr)
        (by rw [hrind, hof.ind]; exact hind)
      by_cases h31 : tlv.rssTableSizeLog % 32 = 31
      · have := hown 0 (by omega)
        rw [hbehind 0 (by rw [if_pos h31])] at this
        exact hzero this
      · rw [if_neg h31] at hbehind
        have := hown (min 128 (2 ^ (tlv.rssTableSizeLog % 32)))
          (not_le.mp fun hle => hshort ⟨h31, hle⟩)
        rw [hbehind _ le_rfl] at this
        exact hzero this
  · intro hco
    refine ⟨fun r hr hrind i hi => ?_, fun mask accepted p hp ramrod => ?_⟩
    · obtain ⟨hposts, p, hp, henc⟩ := posted_of_ind hr hrind
      obtain ⟨hacc, hof⟩ := rssParams_of hp
      obtain ⟨-, hind, hin, hbehind⟩ := updateRss_spec henc
      rw [hof.log, fwTableSize_toNat] at hin hbehind
      have hco := hco hacc
      have htlv : tlv.ind := by rw [← hof.ind, ← hind]; exact hrind
      by_cases hlt : i < if tlv.rssTableSizeLog % 32 = 31 then 0
          else min 128 (2 ^ (tlv.rssTableSizeLog % 32))
      · have h31 : tlv.rssTableSizeLog % 32 ≠ 31 := fun h31 => by simp [h31] at hlt
        have hi' : i < tlv.entries vf := by
          rw [if_neg h31] at hlt
          exact hlt.trans_le (hco.size.resolve_left h31).2
        obtain ⟨c, hc, hq⟩ := hof.queue i ⟨htlv, hi'⟩
        have := hin i hlt
        rw [hc] at this
        exact some.inj this ▸ hq
      · rw [hbehind i (not_lt.mp hlt)]
        refine (hco.whole htlv hposts).resolve_left fun ⟨h31, hle⟩ => hlt ?_
        rw [if_neg h31]
        exact hi.trans_le hle
    · obtain ⟨hacc, hof⟩ := rssParams_of (vpUpdateRss_eq_some.mp hp)
      have hco := hco hacc
      refine updateRss_isSome.mpr ⟨by rw [hof.eng]; exact hco.eng, fun i hi => ?_⟩
      rw [hof.log, fwTableSize_toNat] at hi
      have h31 : tlv.rssTableSizeLog % 32 ≠ 31 := fun h31 => by simp [h31] at hi
      rw [if_neg h31] at hi
      obtain ⟨hind, hle⟩ := hco.size.resolve_left h31
      obtain ⟨c, hc, -⟩ := hof.queue i ⟨hind, hi.trans_le hle⟩
      rw [hc]
      rfl

/-- A VF whose one queue zone has an Rx queue open, with absolute id 5, and whose table was
configured with all its entries. -/
def oneQueueVf : VfInfo :=
  { plainVf with
    rssEnabled := true
    rssIndTblValid := true
    rssIndTblSize := 128
    rssTblSize := 128
    rssTblSize_le := le_rfl
    vfQueues := fun _ => ⟨5, 5, fun i =>
      ⟨false, if i = 0 then some ⟨5, 5, 0, 0, 0, 0, true, 0, 0, 0, false⟩ else none⟩⟩ }

def oneQueueEnv : VportUpdateEnv where
  resc := ⟨⟨16, 0⟩, ⟨8, 0⟩, ⟨8, 0⟩⟩
  alloc := true
  otherTlvs := 0
  publicVf := true
  initRequest := true

/-- Of two TLVs that the PF accepts, the one with new hash types and no table is not encoded, and
the one with a table of `2 ^ 31` entries is posted with queue 0 in every entry. -/
theorem not_spread_oneQueue :
    ¬ Spread oneQueueEnv oneQueueVf ⟨2, 1, 3, 7, fun _ => 0, fun _ => 0⟩ ∧
      ¬ Spread oneQueueEnv oneQueueVf ⟨6, 1, 3, 31, fun _ => 0, fun _ => 0⟩ := by
  constructor
  · intro h
    exact absurd (h.encoded 0 0 _ rfl .zero) (by decide +kernel)
  · intro h
    obtain ⟨qid, -, idx, c, ⟨-, hc⟩, hid⟩ := h.own _ rfl rfl 0 (by decide)
    change (⟨false, if idx = 0 then some _ else none⟩ : VfQueueCid) = ⟨false, some c⟩ at hc
    split at hc
    · cases hc
      exact absurd hid (by decide)
    · nomatch hc

end FastLinQ.Qed
