import FastLinQ.Qed.MfwField

/-!
# The DCBX application table

The application table gives a priority to protocols, each named by a selector (Ethertype, TCP port,
UDP port, or both ports) and a protocol id. It lives in two forms. In the management information
bases (MIB) that the driver shares with the management firmware (MFW) an entry is a word with a
bitmap of priorities. The driver's own `qed_dcbx_params` have a record for each entry.

`qed_dcbnl_ieee_setapp` changes the driver's records and writes the whole table to the local admin
MIB. The MFW negotiates with the peer and publishes the result as the operational MIB, from which
`qed_dcbnl_ieee_getapp` answers and from which `qed_dcbx_process_tlv` takes the priorities of the
protocols that the device offloads.

Only what concerns the application table is kept of the MIBs. `BIT` shifts a 64-bit one, by its
argument modulo 64.
-/

namespace FastLinQ.Qed

open List

/-! ## Data -/

def QED_DCBX_MAX_APP_PROTOCOL : ℕ := 32

def QED_MAX_PFC_PRIORITIES : ℕ := 8

/-- `enum qed_dcbx_sf_ieee_type`; zeroed memory is `ethtype`. -/
inductive DcbxSfIeee
  | ethtype
  | tcpPort
  | udpPort
  | tcpUdpPort
  deriving DecidableEq, Repr

inductive DcbxProtocolType
  | iscsi
  | fcoe
  | roce
  | roceV2
  | eth
  | iwarp
  deriving DecidableEq, Repr

def dcbxAppPriMap : MfwField := ⟨0x000000ff, 0⟩

def dcbxAppSf : MfwField := ⟨0x00000300, 8⟩

def dcbxAppSfIeee : MfwField := ⟨0x0000f000, 12⟩

def dcbxAppProtocolId : MfwField := ⟨0xffff0000, 16⟩

def dcbxAppEnabled : MfwField := ⟨0x00000001, 0⟩

def dcbxAppWilling : MfwField := ⟨0x00000002, 1⟩

def dcbxAppError : MfwField := ⟨0x00000004, 2⟩

def dcbxAppNumEntries : MfwField := ⟨0x00ff0000, 16⟩

/-- `DCBX_CONFIG_VERSION_DISABLED`, `_IEEE`, `_CEE` and `_STATIC`. -/
def dcbxVersionDisabled : BitVec 32 := 0

def dcbxVersionIeee : BitVec 32 := 1

def dcbxVersionCee : BitVec 32 := 2

def dcbxVersionStatic : BitVec 32 := 4

/-- `struct qed_app_entry`, without the protocol type, which nothing here reads. -/
structure AppEntry where
  ethtype : Bool
  sfIeee : DcbxSfIeee
  prio : ℕ
  protoId : BitVec 16
  deriving DecidableEq, Repr

def AppEntry.zero : AppEntry := ⟨false, .ethtype, 0, 0⟩

/-- The part of `struct qed_dcbx_params` about the application table. -/
structure DcbxParams where
  appEntry : ℕ → AppEntry
  numAppEntries : ℕ
  appWilling : Bool
  appValid : Bool
  appError : Bool

def DcbxParams.zero : DcbxParams := ⟨fun _ => .zero, 0, false, false, false⟩

structure DcbxAppFeature where
  flags : BitVec 32
  appPriTbl : ℕ → BitVec 32

/-- A MIB: the version of its `config` or `flags`, and the application table. -/
structure DcbxMib where
  version : BitVec 32
  app : DcbxAppFeature

/-- `struct qed_dcbx_set`, with the `valid` of its `config`. -/
structure DcbxSet where
  valid : Bool
  enabled : Bool
  verNum : BitVec 32
  params : DcbxParams

/-- `struct qed_dcbx_info`: the operational and the local admin MIB, the parameters that were set
last, and the port of iWARP. -/
structure DcbxInfo where
  operational : DcbxMib
  localAdmin : DcbxMib
  set : DcbxSet
  iwarpPort : BitVec 16

/-! ## Priorities -/

/-- `(u32) BIT(nr)`. -/
def bitU32 (nr : ℕ) : BitVec 32 := BitVec.ofNat 32 (2 ^ (nr % 64))

/-- `qed_dcbx_get_app_priority`; `none` is `-EINVAL`. -/
def qedDcbxGetAppPriority (priBitmap : BitVec 32) : Option ℕ :=
  -- Bitmap 1 corresponds to priority 0
  if priBitmap = 1 then some 0
  -- Choose the highest priority
  else [7, 6, 5, 4, 3, 2, 1].find? fun index => priBitmap.getLsbD index

def ffs (x : ℕ) : ℕ :=
  match (range 8).find? fun i => x.testBit i with
  | none => 0
  | some i => i + 1

/-! ## Protocols -/

def qedDcbxAppEthtype (info : BitVec 32) : Bool := getMfwField info dcbxAppSf == 0

def qedDcbxAppPort (info : BitVec 32) : Bool := getMfwField info dcbxAppSf == 1

/-- With an old MFW the IEEE selector is 0. -/
def qedDcbxIeeeAppEthtype (info : BitVec 32) : Bool :=
  let mfwVal := getMfwField info dcbxAppSfIeee
  if mfwVal = 0 then qedDcbxAppEthtype info else mfwVal == 1

def qedDcbxIeeeAppPort (info : BitVec 32) (type : BitVec 32) : Bool :=
  let mfwVal := getMfwField info dcbxAppSfIeee
  if mfwVal = 0 then qedDcbxAppPort info else mfwVal == type || mfwVal == 4

/-- The TLVs of an Ethertype: `qed_dcbx_fcoe_tlv`, `qed_dcbx_roce_tlv`, `qed_dcbx_default_tlv`. -/
def ethtypeTlv (ethtype : BitVec 16) (info : BitVec 32) (protoId : BitVec 16)
    (ieee : Bool) : Bool :=
  (if ieee then qedDcbxIeeeAppEthtype info else qedDcbxAppEthtype info) && protoId == ethtype

/-- The TLVs of a port: `qed_dcbx_iscsi_tlv`, `qed_dcbx_roce_v2_tlv`. -/
def portTlv (type : BitVec 32) (port : BitVec 16) (info : BitVec 32) (protoId : BitVec 16)
    (ieee : Bool) : Bool :=
  (if ieee then qedDcbxIeeeAppPort info type else qedDcbxAppPort info) && protoId == port

def qedDcbxFcoeTlv := ethtypeTlv 0x8906

def qedDcbxRoceTlv := ethtypeTlv 0x8915

def qedDcbxDefaultTlv := ethtypeTlv 0

def qedDcbxIscsiTlv := portTlv 2 0xCBC

def qedDcbxRoceV2Tlv := portTlv 3 0x12B7

def qedDcbxIwarpTlv (iwarpPort : BitVec 16) (info : BitVec 32) (protoId : BitVec 16)
    (ieee : Bool) : Bool :=
  if iwarpPort = 0 then false else portTlv 2 iwarpPort info protoId ieee

/-- `qed_dcbx_get_app_protocol_type`; `none` where no action is required. -/
def qedDcbxGetAppProtocolType (iwarpPort : BitVec 16) (info : BitVec 32) (id : BitVec 16)
    (ieee : Bool) : Option DcbxProtocolType :=
  if qedDcbxFcoeTlv info id ieee then some .fcoe
  else if qedDcbxRoceTlv info id ieee then some .roce
  else if qedDcbxIscsiTlv info id ieee then some .iscsi
  else if qedDcbxDefaultTlv info id ieee then some .eth
  else if qedDcbxRoceV2Tlv info id ieee then some .roceV2
  else if qedDcbxIwarpTlv iwarpPort info id ieee then some .iwarp
  else none

/-! ## From and to the MIB -/

/-- `DCBX_APP_PROTOCOL_ID` of an entry. -/
def protocolIdOf (entry : BitVec 32) : BitVec 16 :=
  (getMfwField entry dcbxAppProtocolId).setWidth 16

/-- The selector of an entry; values that the switch does not know leave it alone. -/
def sfIeeeOf (prev : DcbxSfIeee) (entry : BitVec 32) : DcbxSfIeee :=
  let sfIeee := getMfwField entry dcbxAppSfIeee
  -- Old MFW
  if sfIeee = 0 then if getMfwField entry dcbxAppSf = 0 then .ethtype else .tcpUdpPort
  else if sfIeee = 1 then .ethtype
  else if sfIeee = 2 then .tcpPort
  else if sfIeee = 3 then .udpPort
  else if sfIeee = 4 then .tcpUdpPort
  else prev

/-- One turn of `qed_dcbx_get_app_data`: what an entry of the MIB makes of a record. A priority that
is not valid leaves the record's priority alone. -/
def getAppEntry (prev : AppEntry) (entry : BitVec 32) (ieee : Bool) : AppEntry :=
  { ethtype := if ieee then prev.ethtype else getMfwField entry dcbxAppSf == 0
    sfIeee := if ieee then sfIeeeOf prev.sfIeee entry else prev.sfIeee
    prio := (qedDcbxGetAppPriority (getMfwField entry dcbxAppPriMap)).getD prev.prio
    protoId := protocolIdOf entry }

/-- The number of entries of a table, as `qed_dcbx_get_app_data` takes it. -/
def DcbxAppFeature.numEntries (app : DcbxAppFeature) : ℕ :=
  min (getMfwField app.flags dcbxAppNumEntries).toNat QED_DCBX_MAX_APP_PROTOCOL

def qedDcbxGetAppData (app : DcbxAppFeature) (params : DcbxParams) (ieee : Bool) : DcbxParams :=
  { appWilling := getMfwField app.flags dcbxAppWilling != 0
    appValid := getMfwField app.flags dcbxAppEnabled != 0
    appError := getMfwField app.flags dcbxAppError != 0
    numAppEntries := app.numEntries
    appEntry := fun i =>
      if i < app.numEntries then getAppEntry (params.appEntry i) (app.appPriTbl i) ieee
      else params.appEntry i }

/-- The two selectors that `qed_dcbx_set_app_data` writes for a record. -/
def DcbxSfIeee.codes : DcbxSfIeee → BitVec 32 × BitVec 32
  | ethtype => (1, 0)
  | tcpPort => (2, 1)
  | udpPort => (3, 1)
  | tcpUdpPort => (4, 1)

/-- One turn of `qed_dcbx_set_app_data`: the entry of the MIB for a record. -/
def setAppEntry (e : AppEntry) (ieee : Bool) : BitVec 32 :=
  let entry :=
    if ieee then
      setMfwField (setMfwField 0 dcbxAppSfIeee e.sfIeee.codes.1) dcbxAppSf e.sfIeee.codes.2
    else setMfwField 0 dcbxAppSf (if e.ethtype then 0 else 1)
  let entry := setMfwField entry dcbxAppProtocolId (e.protoId.setWidth 32)
  setMfwField entry dcbxAppPriMap (bitU32 e.prio)

def boolBit (b : Bool) : BitVec 32 := if b then 1 else 0

def qedDcbxSetAppData (app : DcbxAppFeature) (params : DcbxParams) (ieee : Bool) : DcbxAppFeature :=
  let flags := setMfwField app.flags dcbxAppWilling (boolBit params.appWilling)
  let flags := setMfwField flags dcbxAppEnabled (boolBit params.appValid)
  { flags := setMfwField flags dcbxAppNumEntries (BitVec.ofNat 32 params.numAppEntries)
    appPriTbl := fun i =>
      if i < params.numAppEntries then setAppEntry (params.appEntry i) ieee else app.appPriTbl i }

/-! ## The priorities of the offloaded protocols -/

/-- The part of `struct qed_dcbx_app_data` that is read here. -/
structure DcbxAppData where
  update : Bool
  enable : Bool
  priority : ℕ
  tc : ℕ
  deriving DecidableEq, Repr

abbrev DcbxResults := DcbxProtocolType → DcbxAppData

def prio2tc (tbl : BitVec 32) (prio : ℕ) : ℕ := (tbl >>> ((7 - prio) * 4) &&& 0xf).toNat

/-- The priority that the loop of `qed_dcbx_process_tlv` has in turn `i`. An entry with no valid
priority is taken with that of the turn before. -/
def appTlvPriority (tbl : ℕ → BitVec 32) : ℕ → ℕ
  | 0 => (qedDcbxGetAppPriority (getMfwField (tbl 0) dcbxAppPriMap)).getD 0
  | i + 1 =>
    (qedDcbxGetAppPriority (getMfwField (tbl (i + 1)) dcbxAppPriMap)).getD (appTlvPriority tbl i)

/-- The protocol that turn `i` is about. -/
def appTlvType (iwarpPort : BitVec 16) (tbl : ℕ → BitVec 32) (ieee : Bool) (i : ℕ) :
    Option DcbxProtocolType :=
  qedDcbxGetAppProtocolType iwarpPort (tbl i) (protocolIdOf (tbl i)) ieee

/-- One turn of the loop of `qed_dcbx_process_tlv`. ETH always has the enable bit reset. -/
def appTlvTurn (iwarpPort : BitVec 16) (tbl : ℕ → BitVec 32) (priTcTbl : BitVec 32) (ieee : Bool)
    (arr : DcbxResults) (i : ℕ) : DcbxResults :=
  match appTlvType iwarpPort tbl ieee i with
  | none => arr
  | some type =>
    Function.update arr type
      ⟨true, type ≠ .eth, appTlvPriority tbl i, prio2tc priTcTbl (appTlvPriority tbl i)⟩

/-- `qed_dcbx_process_tlv`. `ufpTc` is the traffic class of UFP where `QED_MF_UFP_SPECIFIC` is set.
Protocols without an entry get the values of ETH. -/
def qedDcbxProcessTlv (iwarpPort : BitVec 16) (ufpTc : Option ℕ) (tbl : ℕ → BitVec 32)
    (priTcTbl : BitVec 32) (count : ℕ) (ieee : Bool) : DcbxResults :=
  let arr := (range count).foldl (appTlvTurn iwarpPort tbl priTcTbl ieee)
    fun _ => ⟨false, false, 0, 0⟩
  let ethTlv := (range count).any fun i => appTlvType iwarpPort tbl ieee i == some .eth
  let eth := match ufpTc with
    | some tc => if ethTlv then arr .eth else { arr .eth with tc := tc }
    | none => arr .eth
  fun type =>
    if (arr type).update then arr type else ⟨true, eth.enable, eth.priority, eth.tc⟩

/-! ## The calls -/

/-- `qed_get_sf_ieee_value`: `IEEE_8021QAZ_APP_SEL_ETHERTYPE`, `_STREAM`, `_DGRAM` and `_ANY`. -/
def qedGetSfIeeeValue : ℕ → Option DcbxSfIeee
  | 1 => some .ethtype
  | 2 => some .tcpPort
  | 3 => some .udpPort
  | 4 => some .tcpUdpPort
  | _ => none

inductive DcbErr
  | einval
  | ebusy
  /-- The error of the mailbox command. -/
  | mcp
  deriving DecidableEq, Repr

namespace DcbxInfo

variable (info : DcbxInfo)

/-- The parameters of the operational MIB, read into zeroed memory by `qed_dcbx_query_params`. -/
def operationalParams : DcbxParams :=
  qedDcbxGetAppData info.operational.app .zero (info.operational.version == dcbxVersionIeee)

/-- The entry for a selector and a protocol is the first one of the whole array. -/
def findApp (params : DcbxParams) (sfIeee : DcbxSfIeee) (protocol : BitVec 16) : Option AppEntry :=
  ((range QED_DCBX_MAX_APP_PROTOCOL).find? fun i =>
    (params.appEntry i).sfIeee == sfIeee && (params.appEntry i).protoId == protocol).map
      params.appEntry

/-- `ffs(prio) - 1` as a `u8`. -/
def reported (e : AppEntry) : ℕ := (ffs e.prio + 255) % 256

/-- `qed_dcbnl_ieee_getapp`: the priority it reports. -/
def qedDcbnlIeeeGetapp (selector : ℕ) (protocol : BitVec 16) : Except DcbErr ℕ :=
  match qedGetSfIeeeValue selector with
  | none => .error .einval
  | some sfIeee =>
    if info.operational.version = dcbxVersionDisabled then .error .einval
    else match findApp info.operationalParams sfIeee protocol with
      | none => .error .einval
      | some e => .ok (reported e)

def qedDcbxGetConfigParams : DcbxSet :=
  if info.set.valid then info.set
  else
    { valid := true
      enabled := info.operational.version != dcbxVersionDisabled
      verNum :=
        if info.operational.version = dcbxVersionCee then dcbxVersionCee
        else if info.operational.version = dcbxVersionIeee then dcbxVersionIeee
        else if info.operational.version = dcbxVersionStatic then dcbxVersionStatic
        else dcbxVersionDisabled
      params := info.operationalParams }

/-- `qed_dcbx_config_params` with the application table overridden, up to the mailbox command. -/
def qedDcbxConfigParams (set : DcbxSet) : DcbxInfo :=
  let config := if set.enabled then set.verNum else dcbxVersionDisabled
  let ieee := set.enabled && set.verNum &&& dcbxVersionIeee != 0
  { info with
    set := set
    localAdmin := ⟨config, qedDcbxSetAppData info.operational.app set.params ieee⟩ }

/-- The entry that `qed_dcbnl_ieee_setapp` takes: the first one that is the protocol's or has the
protocol id 0. -/
def setappIdx (params : DcbxParams) (sfIeee : DcbxSfIeee) (protocol : BitVec 16) : Option ℕ :=
  (range QED_DCBX_MAX_APP_PROTOCOL).find? fun i =>
    ((params.appEntry i).sfIeee == sfIeee && (params.appEntry i).protoId == protocol) ||
      (params.appEntry i).protoId == 0

/-- The parameters with the priority for a protocol at entry `i`. An entry that is not the
protocol's is counted as a new one. -/
def setApp (params : DcbxParams) (i : ℕ) (sfIeee : DcbxSfIeee) (protocol : BitVec 16)
    (priority : ℕ) : DcbxParams :=
  let e := params.appEntry i
  { params with
    numAppEntries :=
      if e.sfIeee = sfIeee ∧ e.protoId = protocol then params.numAppEntries
      else (params.numAppEntries + 1) % 2 ^ 16
    appEntry := Function.update params.appEntry i
      ⟨e.ethtype, sfIeee, 2 ^ priority, protocol⟩ }

/-- `qed_dcbnl_ieee_setapp`; `ptt` says whether a PTT window is free and `mcp` whether the mailbox
command succeeds. -/
def qedDcbnlIeeeSetapp (selector : ℕ) (protocol : BitVec 16) (priority : ℕ) (ptt mcp : Bool) :
    Except DcbErr Unit × DcbxInfo :=
  if QED_MAX_PFC_PRIORITIES ≤ priority then (.error .einval, info)
  else match qedGetSfIeeeValue selector with
    | none => (.error .einval, info)
    | some sfIeee =>
      let set := info.qedDcbxGetConfigParams
      let info := { info with set := set }
      match setappIdx set.params sfIeee protocol with
      | none => (.error .ebusy, info)
      | some i =>
        if !ptt then (.error .ebusy, info)
        else
          let info := info.qedDcbxConfigParams
            { set with params := setApp set.params i sfIeee protocol priority }
          (if mcp then .ok () else .error .mcp, info)

/-- The MFW publishes the local admin MIB as the operational one. -/
def adopt : DcbxInfo := { info with operational := info.localAdmin }

end DcbxInfo

end FastLinQ.Qed
