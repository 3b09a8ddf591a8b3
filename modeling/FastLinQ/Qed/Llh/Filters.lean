import Mathlib

/-!
# The LLH filters and their shadow

The LLH block of the NIG decides to which function a received packet goes. A function owns one or
more banks of 16 filters, one bank for each of its `ppfid`s. A filter compares a MAC address, or an
Ethertype or TCP/UDP ports (a protocol filter).

Several users may ask for the same filter, so that the driver keeps a shadow of each bank with a
reference count per filter: only the first add and the last remove of a filter touch the hardware.
The value of a filter is written by the DMA engine, which may fail; the other registers of a filter
are written directly.

`union qed_llh_filter` has 8 bytes; the driver compares filters by these bytes.
-/

namespace FastLinQ.Qed

open Function List

/-! ## Data -/

def NIG_REG_LLH_FUNC_FILTER_EN_SIZE : ℕ := 16

def MAX_NUM_PPFID : ℕ := 8

/-- `enum qed_llh_filter_type`; zeroed memory is `mac`. -/
inductive LlhFilterType
  | mac
  | protocol
  deriving DecidableEq, Repr

inductive LlhProtFilterType
  | ethertype
  | tcpSrcPort
  | tcpDestPort
  | tcpSrcAndDestPort
  | udpSrcPort
  | udpDestPort
  | udpSrcAndDestPort
  deriving DecidableEq, Repr

namespace LlhProtFilterType

def code : LlhProtFilterType → ℕ
  | ethertype => 0
  | tcpSrcPort => 1
  | tcpDestPort => 2
  | tcpSrcAndDestPort => 3
  | udpSrcPort => 4
  | udpDestPort => 5
  | udpSrcAndDestPort => 6

/-- The switch over the type in `qed_llh_protocol_filter_stringify`; its default branch is
`-EINVAL`. -/
def ofCode : ℕ → Option LlhProtFilterType
  | 0 => some ethertype
  | 1 => some tcpSrcPort
  | 2 => some tcpDestPort
  | 3 => some tcpSrcAndDestPort
  | 4 => some udpSrcPort
  | 5 => some udpDestPort
  | 6 => some udpSrcAndDestPort
  | _ => none

end LlhProtFilterType

/-- A MAC address, `u8 [ETH_ALEN]`. -/
abbrev MacAddr := Fin 6 → BitVec 8

/-- What a caller asks the LLH to compare. -/
inductive LlhKey
  | mac (addr : MacAddr)
  | protocol (type : LlhProtFilterType) (sourcePortOrEthType destPort : BitVec 16)
  deriving DecidableEq

/-- The two bytes of a `u16` in memory. -/
def bytesOfU16 (x : BitVec 16) : List (BitVec 8) := [x.extractLsb' 0 8, x.extractLsb' 8 8]

namespace LlhKey

def kind : LlhKey → LlhFilterType
  | mac _ => .mac
  | protocol .. => .protocol

/-- The bytes of `union qed_llh_filter`, zeroed before its members are written. -/
def bytes : LlhKey → List (BitVec 8)
  | mac addr => ofFn addr ++ [0, 0]
  | protocol type src dst =>
    [BitVec.ofNat 8 type.code, 0, 0, 0] ++ bytesOfU16 src ++ bytesOfU16 dst

end LlhKey

/-- `struct qed_llh_filter_info`, an entry of the shadow. -/
structure LlhFilterInfo where
  bEnabled : Bool
  refCnt : ℕ
  type : LlhFilterType
  filter : List (BitVec 8)
  deriving DecidableEq

def LlhFilterInfo.zero : LlhFilterInfo := ⟨false, 0, .mac, replicate 8 0⟩

/-- `struct qed_llh_filter_details`, and the registers of one filter. -/
structure LlhFilterDetails where
  value : ℕ
  mode : ℕ
  protocolType : ℕ
  hdrSel : ℕ
  enable : ℕ
  deriving DecidableEq

/-- What the filter functions read of the device: `ppfid_bitmap`, the bits of `mf_bits` that turn
classification by MAC address and by protocol on, `QED_MF_OVLAN_CLSS`, and whether it is a VF. -/
structure LlhDev where
  ppfidBitmap : ℕ
  macClss : Bool
  protoClss : Bool
  ovlanClss : Bool
  isVf : Bool
  deriving DecidableEq

namespace LlhDev

/-- The `ppfid_array` that `qed_llh_alloc` fills from the bitmap. -/
def ppfidArray (dev : LlhDev) : List ℕ :=
  (range MAX_NUM_PPFID).filter fun i => dev.ppfidBitmap.testBit i

def numPpfid (dev : LlhDev) : ℕ := dev.ppfidArray.length

end LlhDev

inductive LlhErr
  | einval
  | eagain
  | eopnotsupp
  /-- The error of `qed_dmae_host2grc`. -/
  | dmae
  deriving DecidableEq, Repr

/-- How a write by the DMA engine ends. A write that fails leaves some value in the register. -/
inductive DmaeWrite
  | done
  | failed (left : ℕ)
  deriving DecidableEq, Repr

/-- The shadow `pp_filters` and the registers of the filters, by absolute ppfid. -/
structure LlhSys where
  ppFilters : ℕ → ℕ → LlhFilterInfo
  hw : ℕ → ℕ → LlhFilterDetails

def setEntry {α : Type*} (t : ℕ → ℕ → α) (p i : ℕ) (x : α) : ℕ → ℕ → α :=
  update t p (update (t p) i x)

/-! ## The shadow -/

variable (dev : LlhDev) (pp : ℕ → ℕ → LlhFilterInfo) (ppfid : ℕ)

def qedLlhShadowSanity (filterIdx : ℕ) : Except LlhErr Unit :=
  if dev.numPpfid ≤ ppfid then .error .einval
  else if NIG_REG_LLH_FUNC_FILTER_EN_SIZE ≤ filterIdx then .error .einval
  else .ok ()

/-- The first entry of a bank that a loop over it stops at; `none` is
`QED_LLH_INVALID_FILTER_IDX`. -/
def firstFilter (stop : LlhFilterInfo → Bool) (bank : ℕ → LlhFilterInfo) : Option ℕ :=
  (range NIG_REG_LLH_FUNC_FILTER_EN_SIZE).find? fun i => stop (bank i)

/-- The `memcmp` loop: neither `b_enabled` nor `type` is looked at. -/
def searchFilter (filter : List (BitVec 8)) (bank : ℕ → LlhFilterInfo) : Option ℕ :=
  firstFilter (fun e => filter == e.filter) bank

def qedLlhShadowSearchFilter (filter : List (BitVec 8)) : Except LlhErr (Option ℕ) := do
  qedLlhShadowSanity dev ppfid 0
  return searchFilter filter (pp ppfid)

def qedLlhShadowGetFreeIdx : Except LlhErr (Option ℕ) := do
  qedLlhShadowSanity dev ppfid 0
  return firstFilter (fun e => !e.bEnabled) (pp ppfid)

/-- `__qed_llh_shadow_add_filter` on an entry. -/
def LlhFilterInfo.add (e : LlhFilterInfo) (type : LlhFilterType) (filter : List (BitVec 8)) :
    LlhFilterInfo :=
  let e := if e.refCnt = 0 then { e with bEnabled := true, type := type, filter := filter } else e
  { e with refCnt := (e.refCnt + 1) % 2 ^ 32 }

/-- `qed_llh_shadow_add_filter`: the new shadow, the index of the filter and its reference
count. -/
def qedLlhShadowAddFilter (type : LlhFilterType) (filter : List (BitVec 8)) :
    Except LlhErr ((ℕ → ℕ → LlhFilterInfo) × ℕ × ℕ) := do
  -- Check if the same filter already exists
  let found ← qedLlhShadowSearchFilter dev pp ppfid filter
  -- Find a new entry in case of a new filter
  let idx ← match found with
    | some i => pure (some i)
    | none => qedLlhShadowGetFreeIdx dev pp ppfid
  match idx with
  | none => throw .einval
  | some i =>
    qedLlhShadowSanity dev ppfid i
    let e := (pp ppfid i).add type filter
    return (setEntry pp ppfid i e, i, e.refCnt)

/-- What `__qed_llh_shadow_remove_filter` leaves of an entry. -/
def LlhFilterInfo.remove (e : LlhFilterInfo) : LlhFilterInfo :=
  if e.refCnt - 1 = 0 then .zero else { e with refCnt := e.refCnt - 1 }

def qedLlhShadowRemoveFilter (filter : List (BitVec 8)) :
    Except LlhErr ((ℕ → ℕ → LlhFilterInfo) × ℕ × ℕ) := do
  match ← qedLlhShadowSearchFilter dev pp ppfid filter with
  | none => throw .einval
  | some i =>
    qedLlhShadowSanity dev ppfid i
    if (pp ppfid i).refCnt = 0 then throw .einval
    return (setEntry pp ppfid i (pp ppfid i).remove, i, (pp ppfid i).refCnt - 1)

def qedLlhShadowRemoveAllFilters : Except LlhErr (ℕ → ℕ → LlhFilterInfo) := do
  qedLlhShadowSanity dev ppfid 0
  return update pp ppfid fun _ => .zero

def qedAbsPpfid (relPpfid : ℕ) : Except LlhErr ℕ :=
  match dev.ppfidArray[relPpfid]? with
  | none => .error .einval
  | some a => .ok a

/-! ## The registers -/

/-- `qed_llh_access_filter` with write access, on the registers of one filter. The enable register
is written first when the filter is removed, and last when it is added. -/
def qedLlhAccessFilter (row details : LlhFilterDetails) (dmae : DmaeWrite) :
    Except LlhErr Unit × LlhFilterDetails :=
  let row := if details.enable = 0 then { row with enable := details.enable } else row
  match dmae with
  | .failed left => (.error .dmae, { row with value := left })
  | .done =>
    let row := { row with
      value := details.value
      mode := details.mode
      protocolType := details.protocolType
      hdrSel := details.hdrSel }
    (.ok (), if details.enable = 0 then row else { row with enable := details.enable })

/-- The details that `qed_llh_add_filter` writes. -/
def addDetails (filterProtType high low : ℕ) : LlhFilterDetails :=
  { enable := 1
    value := high <<< 32 ||| low
    hdrSel := if dev.ovlanClss then 1 else 0
    protocolType := filterProtType
    mode := if filterProtType = 0 then 0 else 1 }

def qedLlhAddFilter (row : LlhFilterDetails) (filterProtType high low : ℕ) (dmae : DmaeWrite) :
    Except LlhErr Unit × LlhFilterDetails :=
  qedLlhAccessFilter row (addDetails dev filterProtType high low) dmae

def qedLlhRemoveFilter (row : LlhFilterDetails) (dmae : DmaeWrite) :
    Except LlhErr Unit × LlhFilterDetails :=
  qedLlhAccessFilter row ⟨0, 0, 0, 0, 0⟩ dmae

def qedLlhProtocolFilterToHilo (src dst : ℕ) : LlhProtFilterType → ℕ × ℕ
  | .ethertype => (src, 0)
  | .tcpSrcPort | .udpSrcPort => (0, src <<< 16)
  | .tcpDestPort | .udpDestPort => (0, dst)
  | .tcpSrcAndDestPort | .udpSrcAndDestPort => (0, src <<< 16 ||| dst)

namespace LlhKey

def hilo : LlhKey → ℕ × ℕ
  | mac a =>
    ((a 1).toNat ||| (a 0).toNat <<< 8,
      (a 5).toNat ||| (a 4).toNat <<< 8 ||| (a 3).toNat <<< 16 ||| (a 2).toNat <<< 24)
  | protocol type src dst => qedLlhProtocolFilterToHilo src.toNat dst.toNat type

/-- The `filter_prot_type` of a filter: 0 for a MAC address, `type_bitmap` for a protocol. -/
def protType : LlhKey → ℕ
  | mac _ => 0
  | protocol type _ _ => 1 <<< type.code

def details (k : LlhKey) : LlhFilterDetails := addDetails dev k.protType k.hilo.1 k.hilo.2

end LlhKey

/-! ## The calls -/

namespace LlhSys

variable (s : LlhSys)

/-- What `qed_llh_add_mac_filter` and `qed_llh_add_protocol_filter` do after their own checks. -/
def addFilter (k : LlhKey) (dmae : DmaeWrite) : Except LlhErr Unit × LlhSys :=
  match qedLlhShadowAddFilter dev s.ppFilters ppfid k.kind k.bytes with
  | .error e => (.error e, s)
  | .ok (pp, i, refCnt) =>
    match qedAbsPpfid dev ppfid with
    | .error e => (.error e, { s with ppFilters := pp })
    | .ok a =>
      -- Configure the LLH only in case of a new filter
      if refCnt = 1 then
        let r := qedLlhAddFilter dev (s.hw a i) k.protType k.hilo.1 k.hilo.2 dmae
        (r.1, { ppFilters := pp, hw := setEntry s.hw a i r.2 })
      else (.ok (), { s with ppFilters := pp })

/-- What the two remove functions do after their own checks. They return nothing: their `rc` only
selects the text they log. -/
def removeFilter (k : LlhKey) (dmae : DmaeWrite) : Except LlhErr Unit × LlhSys :=
  match qedLlhShadowRemoveFilter dev s.ppFilters ppfid k.bytes with
  | .error e => (.error e, s)
  | .ok (pp, i, refCnt) =>
    match qedAbsPpfid dev ppfid with
    | .error e => (.error e, { s with ppFilters := pp })
    | .ok a =>
      -- Remove from the LLH in case the filter is not in use
      if refCnt = 0 then
        let r := qedLlhRemoveFilter (s.hw a i) dmae
        (r.1, { ppFilters := pp, hw := setEntry s.hw a i r.2 })
      else (.ok (), { s with ppFilters := pp })

/-- Run a MAC call if its checks pass; `ptt` says whether a PTT window is free. -/
def macCall (ptt : Bool) (f : Except LlhErr Unit × LlhSys) : Except LlhErr Unit × LlhSys :=
  if !dev.macClss then (.ok (), s)
  else if dev.isVf then (.error .eopnotsupp, s)
  else if !ptt then (.error .eagain, s)
  else f

def qedLlhAddMacFilter (ptt : Bool) (addr : MacAddr) (dmae : DmaeWrite) :
    Except LlhErr Unit × LlhSys :=
  s.macCall dev ptt (s.addFilter dev ppfid (.mac addr) dmae)

def qedLlhRemoveMacFilter (ptt : Bool) (addr : MacAddr) (dmae : DmaeWrite) :
    Except LlhErr Unit × LlhSys :=
  s.macCall dev ptt (s.removeFilter dev ppfid (.mac addr) dmae)

/-- Run a protocol call if its checks pass. -/
def protocolCall (ptt : Bool) (type : ℕ)
    (f : LlhProtFilterType → Except LlhErr Unit × LlhSys) : Except LlhErr Unit × LlhSys :=
  if !ptt then (.error .eagain, s)
  else if !dev.protoClss then (.ok (), s)
  else match LlhProtFilterType.ofCode type with
    | none => (.error .einval, s)
    | some t => f t

def qedLlhAddProtocolFilter (ptt : Bool) (type : ℕ) (src dst : BitVec 16) (dmae : DmaeWrite) :
    Except LlhErr Unit × LlhSys :=
  s.protocolCall dev ptt type fun t => s.addFilter dev ppfid (.protocol t src dst) dmae

def qedLlhRemoveProtocolFilter (ptt : Bool) (type : ℕ) (src dst : BitVec 16) (dmae : DmaeWrite) :
    Except LlhErr Unit × LlhSys :=
  s.protocolCall dev ptt type fun t => s.removeFilter dev ppfid (.protocol t src dst) dmae

/-- The loop of `qed_llh_clear_ppfid_filters` over the filters from `i` on, `n` of them left. It
ends at the first write that fails. -/
def clearLoop (dmae : ℕ → DmaeWrite) (i : ℕ) :
    ℕ → (ℕ → LlhFilterDetails) → Except LlhErr Unit × (ℕ → LlhFilterDetails)
  | 0, rows => (.ok (), rows)
  | n + 1, rows =>
    let r := qedLlhRemoveFilter (rows i) (dmae i)
    let rows := update rows i r.2
    match r.1 with
    | .error e => (.error e, rows)
    | .ok _ => clearLoop dmae (i + 1) n rows

/-- What `qed_llh_clear_ppfid_filters` does after its own checks. -/
def clearFilters (dmae : ℕ → DmaeWrite) : Except LlhErr Unit × LlhSys :=
  match qedAbsPpfid dev ppfid with
  | .error e => (.error e, s)
  | .ok a =>
    match qedLlhShadowRemoveAllFilters dev s.ppFilters ppfid with
    | .error e => (.error e, s)
    | .ok pp =>
      let r := clearLoop dmae 0 NIG_REG_LLH_FUNC_FILTER_EN_SIZE (s.hw a)
      (r.1, { ppFilters := pp, hw := update s.hw a r.2 })

def qedLlhClearPpfidFilters (ptt : Bool) (dmae : ℕ → DmaeWrite) : Except LlhErr Unit × LlhSys :=
  if !ptt then (.ok (), s)
  else if !dev.protoClss && !dev.macClss then (.ok (), s)
  else s.clearFilters dev ppfid dmae

end LlhSys

/-- The calls, with the ppfid, whether a PTT window is free, and how the writes by the DMA engine
end. -/
inductive LlhCall
  | addMac (ppfid : ℕ) (ptt : Bool) (addr : MacAddr) (dmae : DmaeWrite)
  | addProtocol (ppfid : ℕ) (ptt : Bool) (type : ℕ) (src dst : BitVec 16) (dmae : DmaeWrite)
  | removeMac (ppfid : ℕ) (ptt : Bool) (addr : MacAddr) (dmae : DmaeWrite)
  | removeProtocol (ppfid : ℕ) (ptt : Bool) (type : ℕ) (src dst : BitVec 16) (dmae : DmaeWrite)
  | clearPpfid (ppfid : ℕ) (ptt : Bool) (dmae : ℕ → DmaeWrite)

def LlhCall.run (s : LlhSys) : LlhCall → Except LlhErr Unit × LlhSys
  | addMac p ptt addr dmae => s.qedLlhAddMacFilter dev p ptt addr dmae
  | addProtocol p ptt type src dst dmae => s.qedLlhAddProtocolFilter dev p ptt type src dst dmae
  | removeMac p ptt addr dmae => s.qedLlhRemoveMacFilter dev p ptt addr dmae
  | removeProtocol p ptt type src dst dmae =>
    s.qedLlhRemoveProtocolFilter dev p ptt type src dst dmae
  | clearPpfid p ptt dmae => s.qedLlhClearPpfidFilters dev p ptt dmae

end FastLinQ.Qed
