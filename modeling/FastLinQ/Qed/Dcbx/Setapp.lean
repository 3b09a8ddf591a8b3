import FastLinQ.Qed.Dcbx.App

/-!
# Setting an application priority

A record that is written to the MIB and read back keeps its selector and its protocol id. Its
priority is kept if it is a number from 0 to 7. But `qed_dcbnl_ieee_setapp` stores the bitmap
`BIT(priority)`, and `qed_dcbx_set_app_data` takes it for a number and makes a bitmap of it once
more. Priorities 0, 1 and 2 become 1, 2 and 4, which `qed_dcbnl_ieee_getapp` turns back with `ffs`,
while `qed_dcbx_process_tlv` uses them as they are. The bitmaps of the others do not fit the field.

The entry for a new protocol is the first one with the protocol id 0, which may be an entry in use.
-/

namespace FastLinQ.Qed

open Function List Option AppEntry Except

/-! ## Through the MIB and back -/

theorem sfIeee_setAppEntry (e : AppEntry) :
    getMfwField (setAppEntry e true) dcbxAppSfIeee = e.sfIeee.codes.1 := by
  unfold setAppEntry
  rw [getMfwField_set_of_disjoint _ _ (by decide), getMfwField_set_of_disjoint _ _ (by decide),
    if_pos rfl, getMfwField_set_of_disjoint _ _ (by decide)]
  cases e.sfIeee <;> decide

theorem sf_setAppEntry (e : AppEntry) :
    getMfwField (setAppEntry e true) dcbxAppSf = e.sfIeee.codes.2 := by
  unfold setAppEntry
  rw [getMfwField_set_of_disjoint _ _ (by decide), getMfwField_set_of_disjoint _ _ (by decide),
    if_pos rfl]
  cases e.sfIeee <;> decide

theorem protocolIdOf_setAppEntry (e : AppEntry) (ieee : Bool) :
    protocolIdOf (setAppEntry e ieee) = e.protoId := by
  have hmask : ∀ i < 16, BitVec.getLsbD (0xffff0000 : BitVec 32) (16 + i) = true := by decide
  unfold setAppEntry
  rw [protocolIdOf, getMfwField_set_of_disjoint _ _ (by decide), getMfwField_set_self]
  refine BitVec.eq_of_getLsbD_eq fun i hi => ?_
  have hlow : i < 32 := by omega
  have hhigh : 16 + i < 32 := by omega
  have hshift : ¬16 + i < 16 := by omega
  simp only [dcbxAppProtocolId, BitVec.getLsbD_setWidth, BitVec.getLsbD_ushiftRight,
    BitVec.getLsbD_and, BitVec.getLsbD_shiftLeft, hmask i hi, hi, hlow, hhigh, hshift, decide_true,
    decide_false, Bool.not_false, Bool.true_and, Bool.and_true, Nat.add_sub_cancel_left]

theorem priMap_setAppEntry (e : AppEntry) (ieee : Bool) :
    getMfwField (setAppEntry e ieee) dcbxAppPriMap = bitU32 e.prio &&& 0xff := by
  unfold setAppEntry
  rw [getMfwField_set_self]
  simp [dcbxAppPriMap]

/-- The priority that a record has after it was written to the MIB and read back. -/
def readBackPrio (prio : ℕ) : ℕ := (qedDcbxGetAppPriority (bitU32 prio &&& 0xff)).getD 0

/-- A record that was written to the MIB and read back into zeroed memory. -/
def AppEntry.readBack (e : AppEntry) : AppEntry := ⟨false, e.sfIeee, readBackPrio e.prio, e.protoId⟩

theorem getAppEntry_setAppEntry (e : AppEntry) :
    getAppEntry .zero (setAppEntry e true) true = e.readBack := by
  have hsf : sfIeeeOf .ethtype (setAppEntry e true) = e.sfIeee := by
    unfold sfIeeeOf
    rw [sfIeee_setAppEntry, sf_setAppEntry]
    cases e.sfIeee <;> decide
  unfold getAppEntry AppEntry.readBack readBackPrio
  rw [protocolIdOf_setAppEntry, priMap_setAppEntry]
  simp only [AppEntry.zero, if_true, hsf]

theorem getAppPriority_le {map : BitVec 32} {p : ℕ} (h : qedDcbxGetAppPriority map = some p) :
    p ≤ 7 := by
  unfold qedDcbxGetAppPriority at h
  split at h
  · cases h
    omega
  · have hmem := mem_of_find?_eq_some h
    simp only [mem_cons, not_mem_nil, or_false] at hmem
    omega

theorem readBackPrio_of_le : ∀ p ≤ 7, readBackPrio p = p := by decide

theorem getAppEntry_prio_le (entry : BitVec 32) : (getAppEntry .zero entry true).prio ≤ 7 := by
  change (Option.getD _ 0) ≤ 7
  cases h : qedDcbxGetAppPriority (getMfwField entry dcbxAppPriMap) with
  | none => exact Nat.zero_le 7
  | some p => exact getAppPriority_le h

theorem readBack_getAppEntry (entry : BitVec 32) :
    (getAppEntry .zero entry true).readBack = getAppEntry .zero entry true := by
  have hprio := readBackPrio_of_le _ (getAppEntry_prio_le entry)
  unfold readBack
  rw [hprio]
  rfl

/-- What becomes of the bitmap of a priority, and what is reported of it. -/
theorem reported_readBackPrio :
    ∀ p < 8, ((ffs (readBackPrio (2 ^ p)) + 255) % 256 = p ↔ p ≤ 2) := by decide

/-- The bitmap of a small priority comes back as another priority. -/
theorem getAppPriority_bitmap :
    ∀ p ≤ 2, qedDcbxGetAppPriority (bitU32 (2 ^ p) &&& 0xff) = some (2 ^ p) := by decide

theorem appProtocolType_setAppEntry (iwarpPort id : BitVec 16) {e e' : AppEntry}
    (h : e.sfIeee = e'.sfIeee) :
    qedDcbxGetAppProtocolType iwarpPort (setAppEntry e true) id true =
      qedDcbxGetAppProtocolType iwarpPort (setAppEntry e' true) id true := by
  have heth : qedDcbxIeeeAppEthtype (setAppEntry e true) =
      qedDcbxIeeeAppEthtype (setAppEntry e' true) := by
    unfold qedDcbxIeeeAppEthtype qedDcbxAppEthtype
    rw [sfIeee_setAppEntry, sf_setAppEntry, sfIeee_setAppEntry, sf_setAppEntry, h]
  have hport : qedDcbxIeeeAppPort (setAppEntry e true) =
      qedDcbxIeeeAppPort (setAppEntry e' true) := by
    funext type
    unfold qedDcbxIeeeAppPort qedDcbxAppPort
    rw [sfIeee_setAppEntry, sf_setAppEntry, sfIeee_setAppEntry, sf_setAppEntry, h]
  simp only [qedDcbxGetAppProtocolType, qedDcbxFcoeTlv, qedDcbxRoceTlv, qedDcbxIscsiTlv,
    qedDcbxDefaultTlv, qedDcbxRoceV2Tlv, qedDcbxIwarpTlv, ethtypeTlv, portTlv, if_true, heth, hport]

/-! ## What a set is supposed to do -/

/-- The record is that of a selector and a protocol. -/
def AppEntry.Is (e : AppEntry) (sf : DcbxSfIeee) (protocol : BitVec 16) : Prop :=
  e.sfIeee = sf ∧ e.protoId = protocol
  deriving Decidable

namespace DcbxInfo

/-- The protocols that `qed_dcbx_process_tlv` acts on, in IEEE mode. -/
def Offloaded (info : DcbxInfo) (sf : DcbxSfIeee) (protocol : BitVec 16) : Prop :=
  (qedDcbxGetAppProtocolType info.iwarpPort (setAppEntry ⟨false, sf, 0, protocol⟩ true) protocol
    true).isSome
  deriving Decidable

def Present (info : DcbxInfo) (sf : DcbxSfIeee) (protocol : BitVec 16) : Prop :=
  ∃ i < info.operational.app.numEntries, (info.operationalParams.appEntry i).Is sf protocol

/-- What setting a priority is supposed to lead to: the priority is reported for the protocol, it is
used wherever `qed_dcbx_process_tlv` acts on an entry of the protocol, and what is reported for the
other protocols that have an entry does not change. -/
structure SetRight (info info' : DcbxInfo) (selector : ℕ) (sf : DcbxSfIeee) (protocol : BitVec 16)
    (priority : ℕ) : Prop where
  get : info'.qedDcbnlIeeeGetapp selector protocol = .ok priority
  used : ∀ i < (getMfwField info'.operational.app.flags dcbxAppNumEntries).toNat,
    sfIeeeOf .ethtype (info'.operational.app.appPriTbl i) = sf →
    protocolIdOf (info'.operational.app.appPriTbl i) = protocol →
    (appTlvType info'.iwarpPort info'.operational.app.appPriTbl true i).isSome →
    appTlvPriority info'.operational.app.appPriTbl i = priority
  others : ∀ selector' sf' protocol', qedGetSfIeeeValue selector' = some sf' →
    ¬(sf' = sf ∧ protocol' = protocol) → info.Present sf' protocol' →
    info'.qedDcbnlIeeeGetapp selector' protocol' = info.qedDcbnlIeeeGetapp selector' protocol'

/-- The operational MIB is in IEEE mode, and the parameters that were set last, if any, are those of
the operational MIB: what is read back of them is what is in the MIB, and the records behind the
last one have the protocol id 0. -/
structure Coherent (info : DcbxInfo) : Prop where
  version : info.operational.version = dcbxVersionIeee
  mode : info.set.valid = true → info.set.enabled = true ∧ info.set.verNum = dcbxVersionIeee
  num : info.set.valid = true → info.set.params.numAppEntries = info.operational.app.numEntries
  same : info.set.valid = true → ∀ j < info.operational.app.numEntries,
    (info.set.params.appEntry j).readBack = info.operationalParams.appEntry j
  rest : info.set.valid = true → ∀ j, info.operational.app.numEntries ≤ j →
    (info.set.params.appEntry j).Is .ethtype 0

def current (info : DcbxInfo) : DcbxParams := info.qedDcbxGetConfigParams.params

/-- The records as they are read back after one more entry was counted. -/
def exposed (info : DcbxInfo) (j : ℕ) : AppEntry :=
  if j < info.operational.app.numEntries + 1 then (info.current.appEntry j).readBack else .zero

/-- If an entry in use with the protocol id 0 stands before every entry of the protocol, then there
is a second entry with its selector and the id 0 further back, from which the same priority is
reported. -/
def Spares (info : DcbxInfo) (sf : DcbxSfIeee) (protocol : BitVec 16) : Prop :=
  ∀ i < info.operational.app.numEntries, (info.current.appEntry i).protoId = 0 →
    ¬(info.current.appEntry i).Is sf protocol →
    (∀ m < i, ¬(info.current.appEntry m).Is sf protocol ∧ (info.current.appEntry m).protoId ≠ 0) →
    ∃ j, i < j ∧ j < QED_DCBX_MAX_APP_PROTOCOL ∧
      (info.exposed j).Is (info.current.appEntry i).sfIeee 0 ∧
      (∀ m, i < m → m < j → ¬(info.exposed m).Is (info.current.appEntry i).sfIeee 0) ∧
      reported (info.exposed j) = reported (info.current.appEntry i).readBack

/-! ## The tables before and after -/

variable {info : DcbxInfo} {sf : DcbxSfIeee} {protocol : BitVec 16}

theorem numEntries_le (app : DcbxAppFeature) : app.numEntries ≤ QED_DCBX_MAX_APP_PROTOCOL :=
  min_le_right _ _

theorem operational_appEntry (hv : info.operational.version = dcbxVersionIeee) (j : ℕ) :
    info.operationalParams.appEntry j = if j < info.operational.app.numEntries then
      getAppEntry .zero (info.operational.app.appPriTbl j) true else .zero := by
  unfold operationalParams qedDcbxGetAppData
  rw [hv]
  rfl

namespace Coherent

variable (h : info.Coherent)

include h

theorem config_mode : info.qedDcbxGetConfigParams.enabled = true ∧
    info.qedDcbxGetConfigParams.verNum = dcbxVersionIeee := by
  unfold qedDcbxGetConfigParams
  split
  · next hvalid => exact h.mode hvalid
  · rw [h.version]
    exact ⟨rfl, rfl⟩

theorem current_num : info.current.numAppEntries = info.operational.app.numEntries := by
  unfold current qedDcbxGetConfigParams
  split
  · next hvalid => exact h.num hvalid
  · rfl

theorem current_same {j : ℕ} (hj : j < info.operational.app.numEntries) :
    (info.current.appEntry j).readBack = info.operationalParams.appEntry j := by
  unfold current qedDcbxGetConfigParams
  split
  · next hvalid => exact h.same hvalid j hj
  · rw [operational_appEntry h.version, if_pos hj, readBack_getAppEntry]

theorem current_rest {j : ℕ} (hj : info.operational.app.numEntries ≤ j) :
    (info.current.appEntry j).Is .ethtype 0 := by
  unfold current qedDcbxGetConfigParams
  split
  · next hvalid => exact h.rest hvalid j hj
  · rw [operational_appEntry h.version, if_neg (by omega)]
    exact ⟨rfl, rfl⟩

theorem operational_is {j : ℕ} {sf' : DcbxSfIeee} {protocol' : BitVec 16}
    (hj : j < info.operational.app.numEntries) :
    (info.operationalParams.appEntry j).Is sf' protocol' ↔
      (info.current.appEntry j).Is sf' protocol' := by
  rw [← h.current_same hj]
  exact Iff.rfl

end Coherent

/-! ## The search -/

variable {params : DcbxParams}

theorem setappIdx_eq_some {i : ℕ} (hi : setappIdx params sf protocol = some i) :
    i < QED_DCBX_MAX_APP_PROTOCOL ∧
      ((params.appEntry i).Is sf protocol ∨ (params.appEntry i).protoId = 0) ∧
      ∀ j < i, ¬(params.appEntry j).Is sf protocol ∧ (params.appEntry j).protoId ≠ 0 := by
  obtain ⟨hstop, hmem, hbefore⟩ := find?_range_eq_some.1 hi
  refine ⟨mem_range.1 hmem, ?_, fun j hj => ?_⟩
  · simpa [Is] using hstop
  · have hpass := hbefore j hj
    simp only [Bool.not_eq_true', Bool.or_eq_false_iff, Bool.and_eq_false_imp, beq_iff_eq,
      beq_eq_false_iff_ne, ne_eq] at hpass
    exact ⟨fun his => hpass.1 his.1 his.2, hpass.2⟩

/-- There is room as long as the table is not full. -/
theorem Coherent.exists_setappIdx (h : info.Coherent)
    (hnum : info.operational.app.numEntries < QED_DCBX_MAX_APP_PROTOCOL) :
    ∃ i, setappIdx info.current sf protocol = some i ∧ i ≤ info.operational.app.numEntries := by
  cases hi : setappIdx info.current sf protocol with
  | none =>
    have hnone := find?_eq_none.1 hi _ (mem_range.2 hnum)
    have hrest := (h.current_rest le_rfl).2
    simp [hrest] at hnone
  | some i =>
    refine ⟨i, rfl, ?_⟩
    by_contra hlt
    exact ((setappIdx_eq_some hi).2.2 _ (Nat.lt_of_not_le hlt)).2 (h.current_rest le_rfl).2

theorem findApp_eq {i : ℕ} (hi : i < QED_DCBX_MAX_APP_PROTOCOL)
    (his : (params.appEntry i).Is sf protocol)
    (hbefore : ∀ j < i, ¬(params.appEntry j).Is sf protocol) :
    findApp params sf protocol = some (params.appEntry i) := by
  have hfind : ((range QED_DCBX_MAX_APP_PROTOCOL).find? fun i =>
      (params.appEntry i).sfIeee == sf && (params.appEntry i).protoId == protocol) = some i := by
    refine find?_range_eq_some.2 ⟨?_, mem_range.2 hi, fun j hj => ?_⟩
    · simp [his.1, his.2]
    · have hnot := hbefore j hj
      rw [Is, not_and_or] at hnot
      simpa using hnot
  rw [findApp, hfind]
  rfl

/-! ## After the set -/

/-- The state after a set at entry `i`, with the local admin MIB adopted. -/
def afterSet (info : DcbxInfo) (i : ℕ) (sf : DcbxSfIeee) (protocol : BitVec 16) (priority : ℕ) :
    DcbxInfo :=
  (info.qedDcbxConfigParams { info.qedDcbxGetConfigParams with
    params := setApp info.current i sf protocol priority }).adopt

theorem setapp_ok {selector priority : ℕ} {ptt mcp : Bool}
    (hsel : qedGetSfIeeeValue selector = some sf) {i : ℕ}
    (hi : setappIdx info.current sf protocol = some i)
    (hok : (info.qedDcbnlIeeeSetapp selector protocol priority ptt mcp).1 = .ok ()) :
    (info.qedDcbnlIeeeSetapp selector protocol priority ptt mcp).2.adopt =
      info.afterSet i sf protocol priority := by
  unfold qedDcbnlIeeeSetapp at hok ⊢
  rw [hsel] at hok ⊢
  by_cases hp : QED_MAX_PFC_PRIORITIES ≤ priority
  · rw [if_pos hp] at hok
    exact nomatch hok
  · rw [if_neg hp] at hok ⊢
    dsimp only at hok ⊢
    rw [show setappIdx info.qedDcbxGetConfigParams.params sf protocol = some i from hi] at hok ⊢
    cases ptt with
    | false => exact nomatch hok
    | true => rfl

def numAfter (info : DcbxInfo) (i : ℕ) (sf : DcbxSfIeee) (protocol : BitVec 16) : ℕ :=
  if (info.current.appEntry i).Is sf protocol then info.operational.app.numEntries
  else info.operational.app.numEntries + 1

theorem numField_set {flags : BitVec 32} {n : ℕ} (hn : n ≤ QED_DCBX_MAX_APP_PROTOCOL) :
    (getMfwField (setMfwField flags dcbxAppNumEntries (BitVec.ofNat 32 n))
      dcbxAppNumEntries).toNat = n := by
  rw [getMfwField_set_self]
  revert hn n
  decide

/-- The state after a set at entry `i` of a table that has room. -/
structure After (info : DcbxInfo) (i : ℕ) (sf : DcbxSfIeee) (protocol : BitVec 16) (priority : ℕ)
    (info' : DcbxInfo) : Prop where
  coherent : info.Coherent
  room : info.operational.app.numEntries < QED_DCBX_MAX_APP_PROTOCOL
  eq : info' = info.afterSet i sf protocol priority

namespace After

variable {info' : DcbxInfo} {i j priority : ℕ} (h : info.After i sf protocol priority info')

include h

theorem version : info'.operational.version = dcbxVersionIeee := by
  obtain ⟨hen, hver⟩ := h.coherent.config_mode
  rw [h.eq]
  change (if info.qedDcbxGetConfigParams.enabled then info.qedDcbxGetConfigParams.verNum
    else dcbxVersionDisabled) = _
  rw [hen, hver]
  rfl

theorem app : info'.operational.app =
    qedDcbxSetAppData info.operational.app (setApp info.current i sf protocol priority) true := by
  obtain ⟨hen, hver⟩ := h.coherent.config_mode
  rw [h.eq]
  change qedDcbxSetAppData _ _ (info.qedDcbxGetConfigParams.enabled &&
    info.qedDcbxGetConfigParams.verNum &&& dcbxVersionIeee != 0) = _
  rw [hen, hver]
  rfl

theorem setApp_num : (setApp info.current i sf protocol priority).numAppEntries =
    info.numAfter i sf protocol := by
  have hcount := h.coherent.current_num
  have hroom := h.room
  unfold QED_DCBX_MAX_APP_PROTOCOL at hroom
  by_cases his : (info.current.appEntry i).Is sf protocol
  · rw [numAfter, if_pos his, ← hcount]
    exact if_pos his
  · rw [numAfter, if_neg his, ← hcount, ← Nat.mod_eq_of_lt (by omega : _ + 1 < 2 ^ 16)]
    exact if_neg his

theorem numAfter_le : info.numAfter i sf protocol ≤ QED_DCBX_MAX_APP_PROTOCOL := by
  have hroom := h.room
  unfold numAfter
  split <;> omega

theorem numField : (getMfwField info'.operational.app.flags dcbxAppNumEntries).toNat =
    info.numAfter i sf protocol := by
  rw [h.app]
  unfold qedDcbxSetAppData
  rw [h.setApp_num, numField_set h.numAfter_le]

theorem word (hj : j < info.numAfter i sf protocol) :
    info'.operational.app.appPriTbl j =
      setAppEntry ((setApp info.current i sf protocol priority).appEntry j) true := by
  rw [h.app]
  unfold qedDcbxSetAppData
  dsimp only
  rw [if_pos (by rw [h.setApp_num]; exact hj)]

theorem numEntries : info'.operational.app.numEntries = info.numAfter i sf protocol := by
  unfold DcbxAppFeature.numEntries
  rw [h.numField]
  exact min_eq_left h.numAfter_le

theorem appEntry (j : ℕ) :
    info'.operationalParams.appEntry j =
      if j < info.numAfter i sf protocol then
        ((setApp info.current i sf protocol priority).appEntry j).readBack else .zero := by
  rw [operational_appEntry h.version, h.numEntries]
  split
  · next hj => rw [h.word hj, getAppEntry_setAppEntry]
  · rfl

theorem entry_at (hi : i < info.numAfter i sf protocol) :
    info'.operationalParams.appEntry i = ⟨false, sf, readBackPrio (2 ^ priority), protocol⟩ := by
  rw [h.appEntry, if_pos hi]
  unfold setApp
  dsimp only
  rw [update_self]
  rfl

theorem entry_other (hj : j ≠ i) :
    info'.operationalParams.appEntry j =
      if j < info.numAfter i sf protocol then (info.current.appEntry j).readBack else .zero := by
  rw [h.appEntry]
  unfold setApp
  dsimp only
  rw [update_of_ne hj]

theorem entry_before (hj : j < info.operational.app.numEntries) (hji : j ≠ i) :
    info'.operationalParams.appEntry j = info.operationalParams.appEntry j := by
  have hlt : j < info.numAfter i sf protocol := by
    unfold numAfter
    split <;> omega
  rw [h.entry_other hji, if_pos hlt, h.coherent.current_same hj]

theorem not_is (hi : setappIdx info.current sf protocol = some i)
    (hle : i ≤ info.operational.app.numEntries) (hj : j < i) :
    ¬(info'.operationalParams.appEntry j).Is sf protocol := by
  rw [h.entry_before (by omega) (by omega), h.coherent.operational_is (by omega)]
  exact ((setappIdx_eq_some hi).2.2 j hj).1

end After

theorem getapp_of_find {selector : ℕ} {e : AppEntry}
    (hv : info.operational.version = dcbxVersionIeee)
    (hsel : qedGetSfIeeeValue selector = some sf)
    (hf : findApp info.operationalParams sf protocol = some e) :
    info.qedDcbnlIeeeGetapp selector protocol = .ok (reported e) := by
  unfold qedDcbnlIeeeGetapp
  rw [hsel, hv]
  dsimp only
  rw [if_neg (by decide), hf]

theorem find_of_getapp {selector p : ℕ} (hsel : qedGetSfIeeeValue selector = some sf)
    (hget : info.qedDcbnlIeeeGetapp selector protocol = .ok p) :
    ∃ e, findApp info.operationalParams sf protocol = some e ∧ reported e = p := by
  unfold qedDcbnlIeeeGetapp at hget
  rw [hsel] at hget
  dsimp only at hget
  split at hget
  · exact nomatch hget
  · cases hf : findApp info.operationalParams sf protocol with
    | none =>
      rw [hf] at hget
      exact nomatch hget
    | some e =>
      rw [hf] at hget
      exact ⟨e, rfl, ok.inj hget⟩

theorem findApp_eq_some {e : AppEntry} (hf : findApp params sf protocol = some e) :
    ∃ j < QED_DCBX_MAX_APP_PROTOCOL, params.appEntry j = e ∧ (params.appEntry j).Is sf protocol ∧
      ∀ m < j, ¬(params.appEntry m).Is sf protocol := by
  obtain ⟨j, hj, rfl⟩ := map_eq_some_iff.1 hf
  obtain ⟨hstop, hmem, hbefore⟩ := find?_range_eq_some.1 hj
  refine ⟨j, mem_range.1 hmem, rfl, by simpa [Is] using hstop, fun m hm his => ?_⟩
  have hpass := hbefore m hm
  simp [his.1, his.2] at hpass

/-! ## The three parts -/

namespace After

variable {info' : DcbxInfo} {i priority selector : ℕ}
  (h : info.After i sf protocol priority info') (hsel : qedGetSfIeeeValue selector = some sf)
  (hi : setappIdx info.current sf protocol = some i)
  (hle : i ≤ info.operational.app.numEntries)

include h

include hsel hi hle in
/-- An entry that is counted is reported; the bitmap of a priority is reported as the priority if it
is at most 2. -/
theorem get_iff (hp : priority < 8) (hin : i < info.numAfter i sf protocol) :
    info'.qedDcbnlIeeeGetapp selector protocol = .ok priority ↔ priority ≤ 2 := by
  have hat := h.entry_at hin
  have his : (info'.operationalParams.appEntry i).Is sf protocol := by
    rw [hat]
    exact ⟨rfl, rfl⟩
  have hf := findApp_eq (setappIdx_eq_some hi).1 his fun j hj => h.not_is hi hle hj
  rw [getapp_of_find h.version hsel hf, hat, ← reported_readBackPrio priority hp]
  exact ⟨ok.inj, congrArg _⟩

include hsel hi in
/-- The entry behind the table is not written to the MIB if it already looks like the protocol's. -/
theorem not_get_of_lost (hp : priority < 8) (his : (info.current.appEntry i).Is sf protocol)
    (hlast : i = info.operational.app.numEntries) :
    info'.qedDcbnlIeeeGetapp selector protocol ≠ .ok priority := by
  have hnumAfter : info.numAfter i sf protocol = info.operational.app.numEntries := if_pos his
  have hkey : sf = .ethtype ∧ protocol = 0 := by
    have hrest := h.coherent.current_rest hlast.ge
    exact ⟨his.1.symm.trans hrest.1, his.2.symm.trans hrest.2⟩
  obtain ⟨rfl, rfl⟩ := hkey
  have hzero : info'.operationalParams.appEntry i = .zero := by
    rw [h.appEntry, if_neg (by omega)]
  have hfound : (info'.operationalParams.appEntry i).Is .ethtype 0 := by
    rw [hzero]
    exact ⟨rfl, rfl⟩
  have hf := findApp_eq (setappIdx_eq_some hi).1 hfound fun j hj => h.not_is hi hlast.le hj
  rw [getapp_of_find h.version hsel hf, hzero]
  intro heq
  have h255 : 255 = priority := ok.inj heq
  omega

/-- Whether an entry is acted on depends on its selector and its protocol. -/
theorem type_isSome {e : AppEntry} (he : e.sfIeee = sf) :
    (qedDcbxGetAppProtocolType info'.iwarpPort (setAppEntry e true) protocol true).isSome ↔
      info.Offloaded sf protocol := by
  have hkey : e.sfIeee = (⟨false, sf, 0, protocol⟩ : AppEntry).sfIeee := he
  rw [appProtocolType_setAppEntry _ _ hkey, h.eq]
  rfl

theorem offloaded_of_type {j : ℕ} (hj : j < info.numAfter i sf protocol)
    (hsf : sfIeeeOf .ethtype (info'.operational.app.appPriTbl j) = sf)
    (hproto : protocolIdOf (info'.operational.app.appPriTbl j) = protocol)
    (htype : (appTlvType info'.iwarpPort info'.operational.app.appPriTbl true j).isSome) :
    info.Offloaded sf protocol := by
  unfold appTlvType at htype
  rw [hproto] at htype
  rw [h.word hj] at hsf htype
  have hread := congrArg sfIeee
    (getAppEntry_setAppEntry ((setApp info.current i sf protocol priority).appEntry j))
  have hkey : ((setApp info.current i sf protocol priority).appEntry j).sfIeee = sf :=
    hread.symm.trans hsf
  exact (h.type_isSome hkey).1 htype

/-- What `qed_dcbx_process_tlv` uses for a protocol it acts on is not a small priority that was set,
but its bitmap. -/
theorem not_used (hp : priority ≤ 2) (hin : i < info.numAfter i sf protocol)
    (hoff : info.Offloaded sf protocol) :
    ∃ j < (getMfwField info'.operational.app.flags dcbxAppNumEntries).toNat,
      sfIeeeOf .ethtype (info'.operational.app.appPriTbl j) = sf ∧
      protocolIdOf (info'.operational.app.appPriTbl j) = protocol ∧
      (appTlvType info'.iwarpPort info'.operational.app.appPriTbl true j).isSome ∧
      appTlvPriority info'.operational.app.appPriTbl j ≠ priority := by
  obtain ⟨e, he, hsf, hproto, hprio⟩ : ∃ e : AppEntry,
      info'.operational.app.appPriTbl i = setAppEntry e true ∧
        e.sfIeee = sf ∧ e.protoId = protocol ∧ e.prio = 2 ^ priority := by
    refine ⟨_, h.word hin, ?_⟩
    unfold setApp
    dsimp only
    rw [update_self]
    exact ⟨rfl, rfl, rfl⟩
  refine ⟨i, by rw [h.numField]; exact hin, ?_, ?_, ?_, ?_⟩
  · have hread := congrArg sfIeee (getAppEntry_setAppEntry e)
    rw [he]
    exact hread.trans hsf
  · rw [he, protocolIdOf_setAppEntry, hproto]
  · unfold appTlvType
    rw [he, protocolIdOf_setAppEntry, hproto]
    exact (h.type_isSome hsf).2 hoff
  · have hmap : qedDcbxGetAppPriority (getMfwField (info'.operational.app.appPriTbl i)
        dcbxAppPriMap) = some (2 ^ priority) := by
      rw [he, priMap_setAppEntry, hprio, getAppPriority_bitmap priority hp]
    have hturn : appTlvPriority info'.operational.app.appPriTbl i = 2 ^ priority := by
      cases i with
      | zero => rw [appTlvPriority, hmap, getD_some]
      | succ i => rw [appTlvPriority, hmap, getD_some]
    rw [hturn]
    exact (Nat.lt_two_pow_self).ne'

end After

theorem exists_selector (sf : DcbxSfIeee) : ∃ selector, qedGetSfIeeeValue selector = some sf := by
  cases sf with
  | ethtype => exact ⟨1, rfl⟩
  | tcpPort => exact ⟨2, rfl⟩
  | udpPort => exact ⟨3, rfl⟩
  | tcpUdpPort => exact ⟨4, rfl⟩

/-- What is reported of a protocol with an entry is that of its first one. -/
theorem Coherent.exists_first (h : info.Coherent) {sf' : DcbxSfIeee} {protocol' : BitVec 16}
    (hpres : info.Present sf' protocol') :
    ∃ j < info.operational.app.numEntries, (info.current.appEntry j).Is sf' protocol' ∧
      (∀ m < j, ¬(info.current.appEntry m).Is sf' protocol') ∧
      findApp info.operationalParams sf' protocol' = some (info.operationalParams.appEntry j) := by
  classical
  obtain ⟨hlt, his⟩ := Nat.find_spec hpres
  have hbefore : ∀ m < Nat.find hpres, ¬(info.operationalParams.appEntry m).Is sf' protocol' :=
    fun m hm hm' => Nat.find_min hpres hm ⟨by omega, hm'⟩
  have hle := numEntries_le info.operational.app
  refine ⟨Nat.find hpres, hlt, (h.operational_is hlt).1 his, fun m hm => ?_,
    findApp_eq (by omega) his hbefore⟩
  rw [← h.operational_is (by omega)]
  exact hbefore m hm

namespace After

variable {info' : DcbxInfo} {i priority : ℕ} (h : info.After i sf protocol priority info')
  (hi : setappIdx info.current sf protocol = some i) (hin : i < info.numAfter i sf protocol)

include h

include hin in
/-- A protocol whose first entry is not taken keeps what is reported of it. -/
theorem find_kept {sf' : DcbxSfIeee} {protocol' : BitVec 16} {j : ℕ}
    (hne : ¬(sf' = sf ∧ protocol' = protocol)) (hj : j < info.operational.app.numEntries)
    (hji : j ≠ i) (his : (info.current.appEntry j).Is sf' protocol')
    (hbefore : ∀ m < j, ¬(info.current.appEntry m).Is sf' protocol') :
    findApp info'.operationalParams sf' protocol' = some (info.operationalParams.appEntry j) := by
  have hsame := h.entry_before hj hji
  rw [← hsame]
  refine findApp_eq (hj.trans h.room) ?_ fun m hm => ?_
  · rw [hsame, h.coherent.operational_is hj]
    exact his
  · by_cases hmi : m = i
    · rw [hmi, h.entry_at hin]
      exact fun hk => hne ⟨hk.1.symm, hk.2.symm⟩
    · rw [h.entry_before (by omega) hmi, h.coherent.operational_is (by omega)]
      exact hbefore m hm

/-- Behind an entry that was taken from another protocol, the table is as it was, with one more
entry counted. -/
theorem exposed (hnot : ¬(info.current.appEntry i).Is sf protocol) {j : ℕ} (hji : j ≠ i) :
    info'.operationalParams.appEntry j = info.exposed j := by
  rw [h.entry_other hji, numAfter, if_neg hnot]
  rfl

include hi hin in
theorem others_iff :
    (∀ selector' sf' protocol', qedGetSfIeeeValue selector' = some sf' →
      ¬(sf' = sf ∧ protocol' = protocol) → info.Present sf' protocol' →
      info'.qedDcbnlIeeeGetapp selector' protocol' =
        info.qedDcbnlIeeeGetapp selector' protocol') ↔ info.Spares sf protocol := by
  obtain ⟨hi32, htaken, hpass⟩ := setappIdx_eq_some hi
  constructor
  · intro hothers i' hlt hzero hnot hpass'
    obtain rfl : i = i' := by
      rcases lt_trichotomy i i' with hii | hii | hii
      · exact (htaken.elim (hpass' i hii).1 (hpass' i hii).2).elim
      · exact hii
      · exact absurd hzero (hpass i' hii).2
    have his : (info.current.appEntry i).Is (info.current.appEntry i).sfIeee 0 := ⟨rfl, hzero⟩
    obtain ⟨selector', hsel'⟩ := exists_selector (info.current.appEntry i).sfIeee
    have hbefore : findApp info.operationalParams (info.current.appEntry i).sfIeee 0 =
        some (info.operationalParams.appEntry i) := by
      refine findApp_eq hi32 ((h.coherent.operational_is hlt).2 his) fun m hm => ?_
      rw [h.coherent.operational_is (by omega)]
      exact fun hm' => (hpass m hm).2 hm'.2
    have hget := hothers selector' _ 0 hsel' (fun hk => hnot ⟨hk.1, hzero.trans hk.2⟩)
      ⟨i, hlt, (h.coherent.operational_is hlt).2 his⟩
    rw [getapp_of_find h.coherent.version hsel' hbefore] at hget
    obtain ⟨e, hfe, hre⟩ := find_of_getapp hsel' hget
    obtain ⟨j, hj32, rfl, hjis, hjbefore⟩ := findApp_eq_some hfe
    have hji : j ≠ i := by
      rintro rfl
      rw [h.entry_at hin] at hjis
      exact hnot ⟨hjis.1.symm, hzero.trans hjis.2.symm⟩
    have hij : i < j := by
      by_contra hle'
      have hlt' : j < i := by omega
      rw [h.entry_before (by omega) hji, h.coherent.operational_is (by omega)] at hjis
      exact (hpass j hlt').2 hjis.2
    rw [h.exposed hnot hji] at hjis hre
    refine ⟨j, hij, hj32, hjis, fun m him hmj => ?_, ?_⟩
    · rw [← h.exposed hnot (by omega)]
      exact hjbefore m hmj
    · rw [hre, h.coherent.current_same hlt]
  · intro hspares selector' sf' protocol' hsel' hne hpres
    obtain ⟨j, hj, his, hbefore, hfind⟩ := h.coherent.exists_first hpres
    rw [getapp_of_find h.coherent.version hsel' hfind]
    by_cases hji : j = i
    · subst hji
      have hnot : ¬(info.current.appEntry j).Is sf protocol :=
        fun hk => hne ⟨his.1.symm.trans hk.1, his.2.symm.trans hk.2⟩
      have hzero := htaken.resolve_left hnot
      obtain ⟨l, hjl, hl32, hlis, hlbefore, hreported⟩ := hspares j hj hzero hnot hpass
      have hkey : protocol' = 0 := his.2.symm.trans hzero
      have hf : findApp info'.operationalParams sf' protocol' =
          some (info'.operationalParams.appEntry l) := by
        refine findApp_eq hl32 ?_ fun m hm => ?_
        · rw [h.exposed hnot (by omega), ← his.1, hkey]
          exact hlis
        · rcases lt_trichotomy m j with hmj | hmj | hmj
          · rw [h.entry_before (by omega) (by omega), h.coherent.operational_is (by omega)]
            exact hbefore m hmj
          · rw [hmj, h.entry_at hin]
            exact fun hk => hne ⟨hk.1.symm, hk.2.symm⟩
          · rw [h.exposed hnot (by omega), ← his.1, hkey]
            exact hlbefore m hmj hm
      rw [getapp_of_find h.version hsel' hf, h.exposed hnot (by omega), hreported,
        h.coherent.current_same hj]
    · rw [getapp_of_find h.version hsel' (h.find_kept hin hne hj hji his hbefore)]

end After

/-! ## Runs of sets -/

/-- Before the first set the parameters are taken from the operational MIB. -/
theorem Coherent.of_not_valid (hv : info.operational.version = dcbxVersionIeee)
    (hset : info.set.valid = false) : info.Coherent where
  version := hv
  mode hvalid := nomatch hset.symm.trans hvalid
  num hvalid := nomatch hset.symm.trans hvalid
  same hvalid := nomatch hset.symm.trans hvalid
  rest hvalid := nomatch hset.symm.trans hvalid

/-- A set that the MFW adopts makes the parameters that were set those of the operational MIB. -/
theorem Coherent.afterSet {selector priority : ℕ} {ptt mcp : Bool} (h : info.Coherent)
    (hnum : info.operational.app.numEntries < QED_DCBX_MAX_APP_PROTOCOL)
    (hsel : qedGetSfIeeeValue selector = some sf)
    (hok : (info.qedDcbnlIeeeSetapp selector protocol priority ptt mcp).1 = .ok ()) :
    (info.qedDcbnlIeeeSetapp selector protocol priority ptt mcp).2.adopt.Coherent := by
  obtain ⟨i, hi, hle⟩ : ∃ i, setappIdx info.current sf protocol = some i ∧
      i ≤ info.operational.app.numEntries := h.exists_setappIdx hnum
  rw [setapp_ok hsel hi hok]
  have ha : info.After i sf protocol priority _ := ⟨h, hnum, rfl⟩
  refine ⟨ha.version, fun _ => h.config_mode, fun _ => ?_, fun _ j hj => ?_, fun _ j hj => ?_⟩
  · exact ha.setApp_num.trans ha.numEntries.symm
  · rw [ha.appEntry, if_pos (ha.numEntries ▸ hj)]
    rfl
  · rw [ha.numEntries, numAfter] at hj
    change (update info.current.appEntry i _ j).Is _ _
    obtain rfl | hne := eq_or_ne j i
    · -- the entry behind the table is taken without being counted only for its own id
      split at hj
      case isTrue his =>
        rw [update_self, ← (h.current_rest hj).1, ← (h.current_rest hj).2]
        exact ⟨his.1.symm, his.2.symm⟩
      case isFalse => omega
    · rw [update_of_ne hne]
      exact h.current_rest (by split at hj <;> omega)

/-! ## When a set is right -/

/-- **When a set does what it is supposed to do.** In IEEE mode, with the local admin MIB adopted by
the MFW and room in the table, a set that succeeds leads to the priority being reported, being used
and to nothing else being changed exactly if the priority is at most 2, the protocol is none that
`qed_dcbx_process_tlv` acts on, and no entry is taken from another protocol whose report this
changes. -/
theorem setapp_right_iff {selector priority : ℕ} {ptt mcp : Bool} (h : info.Coherent)
    (hnum : info.operational.app.numEntries < QED_DCBX_MAX_APP_PROTOCOL)
    (hsel : qedGetSfIeeeValue selector = some sf)
    (hok : (info.qedDcbnlIeeeSetapp selector protocol priority ptt mcp).1 = .ok ()) :
    info.SetRight (info.qedDcbnlIeeeSetapp selector protocol priority ptt mcp).2.adopt selector sf
      protocol priority ↔
      priority ≤ 2 ∧ ¬info.Offloaded sf protocol ∧ info.Spares sf protocol := by
  have hp : priority < 8 := by
    by_contra hge
    have hmax : QED_MAX_PFC_PRIORITIES ≤ priority := Nat.le_of_not_lt hge
    unfold qedDcbnlIeeeSetapp at hok
    rw [if_pos hmax] at hok
    exact nomatch hok
  obtain ⟨i, hi, hle⟩ : ∃ i, setappIdx info.current sf protocol = some i ∧
      i ≤ info.operational.app.numEntries := h.exists_setappIdx hnum
  rw [setapp_ok hsel hi hok]
  have ha : info.After i sf protocol priority _ := ⟨h, hnum, rfl⟩
  by_cases hin : i < info.numAfter i sf protocol
  · constructor
    · rintro ⟨hget, hused, hothers⟩
      have hp2 := (ha.get_iff hsel hi hle hp hin).1 hget
      refine ⟨hp2, fun hoff => ?_, (ha.others_iff hi hin).1 hothers⟩
      obtain ⟨j, hj, hsf, hproto, htype, hne⟩ := ha.not_used hp2 hin hoff
      exact hne (hused j hj hsf hproto htype)
    · rintro ⟨hp2, hoff, hspares⟩
      refine ⟨(ha.get_iff hsel hi hle hp hin).2 hp2, fun j hj hsf hproto htype => ?_,
        (ha.others_iff hi hin).2 hspares⟩
      rw [ha.numField] at hj
      exact absurd (ha.offloaded_of_type hj hsf hproto htype) hoff
  · -- the entry of the default protocol behind the table is lost
    have his : (info.current.appEntry i).Is sf protocol := by
      by_contra hnot
      rw [numAfter, if_neg hnot] at hin
      omega
    rw [numAfter, if_pos his] at hin
    have hlast : i = info.operational.app.numEntries := by omega
    have hrest := h.current_rest hlast.ge
    constructor
    · intro hright
      exact absurd hright.get (ha.not_get_of_lost hsel hi hp his hlast)
    · rintro ⟨-, hoff, -⟩
      refine absurd ?_ hoff
      rw [← his.1, ← his.2, hrest.1, hrest.2]
      rfl

/-- An application table in IEEE mode, with nothing set so far. -/
def ofTable (tbl : List (BitVec 32)) : DcbxInfo where
  operational :=
    ⟨dcbxVersionIeee, ⟨setMfwField 0 dcbxAppNumEntries (BitVec.ofNat 32 tbl.length),
      fun i => tbl.getD i 0⟩⟩
  localAdmin := ⟨0, ⟨0, fun _ => 0⟩⟩
  set := ⟨false, false, 0, .zero⟩
  iwarpPort := 0

/-- The UDP port 4000 and three entries for the default priority of Ethernet, the first of which was
then taken for the UDP port 6000. -/
def twoPorts : DcbxInfo :=
  ((ofTable [0x0fa03102, 0x00001010, 0x00001004, 0x00001004]).qedDcbnlIeeeSetapp 3 6000 2 true
    true).2.adopt

/-- The UDP port 5000 at priority 1 takes the next entry for Ethernet, behind which there is another
one with the same priority. -/
theorem setapp_right_udpPort :
    twoPorts.SetRight (twoPorts.qedDcbnlIeeeSetapp 3 5000 1 true true).2.adopt 3 .udpPort
      5000 1 := by
  have h : twoPorts.Coherent := (Coherent.of_not_valid rfl rfl).afterSet (by decide) rfl rfl
  refine (setapp_right_iff h (by decide) rfl rfl).2 ⟨by decide, by decide, fun i hlt h0 _ hm => ?_⟩
  have hi : i = 2 := by
    replace hlt : i < 5 := hlt
    interval_cases i
    · exact absurd h0 (by decide)
    · exact absurd h0 (by decide)
    · rfl
    · exact absurd rfl (hm 2 (by decide)).2
    · exact absurd rfl (hm 2 (by decide)).2
  subst hi
  refine ⟨3, by decide, by decide, by decide, fun m hm hm' => ?_, by decide⟩
  omega

/-- RoCE at priority 3 in an empty table is reported with priority 255. RoCE at priority 0 is used
with priority 1. With an entry for the default priority 4 of Ethernet in the table, setting the UDP
port 5000 changes what is reported for Ethernet. All three sets succeed. -/
theorem not_setapp_right :
    (let r := (ofTable []).qedDcbnlIeeeSetapp 1 0x8915 3 true true;
      r.1 = .ok () ∧ r.2.adopt.qedDcbnlIeeeGetapp 1 0x8915 = .ok 255) ∧
    (let r := (ofTable []).qedDcbnlIeeeSetapp 1 0x8915 0 true true;
      r.1 = .ok () ∧ (qedDcbxProcessTlv 0 none r.2.adopt.operational.app.appPriTbl 0
        r.2.adopt.operational.app.numEntries true .roce).priority = 1) ∧
    (let r := (ofTable [0x00001010]).qedDcbnlIeeeSetapp 3 5000 1 true true;
      r.1 = .ok () ∧ (ofTable [0x00001010]).qedDcbnlIeeeGetapp 1 0 = .ok 2 ∧
        r.2.adopt.qedDcbnlIeeeGetapp 1 0 = .ok 255) := by
  refine ⟨⟨rfl, ?_⟩, ⟨rfl, ?_⟩, rfl, ?_, ?_⟩
  all_goals rfl

end DcbxInfo

end FastLinQ.Qed
