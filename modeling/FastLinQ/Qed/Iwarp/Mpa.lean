import FastLinQ.Foundations.Loop
import FastLinQ.Foundations.Slice
import FastLinQ.Foundations.Word

/-!
# Alignment of MPA packets

Over iWARP a TCP stream is a sequence of framed PDUs (FPDUs): two bytes of MPA length, the data,
padding and a CRC. The firmware takes whole FPDUs; TCP segments that are not aligned to them come to
the driver over LL2, which hands the FPDUs back in up to three fragments: a packet header, the part
of the FPDU that is in one buffer (`mpa_frag`), and its tail in the next one. What is left of an
FPDU at the end of a segment is kept in `struct qed_iwarp_fpdu`; if it does not end in the next
segment either, it is copied to the buffer of that one.

`MpaState.turn` is one turn of the loop of `qed_iwarp_process_mpa_pkt`. LL2 may refuse to transmit;
the results of a turn's transmits are its input. All lengths are `u16` of the source, buffers are
numbers, and `mem b` is what is in buffer `b`.
-/

namespace FastLinQ.Qed

open Function

/-! ## Data -/

/-- A DMA address: a place in a receive buffer. -/
structure BufAddr where
  buf : ℕ
  off : ℕ
  deriving DecidableEq, Repr

/-- `struct qed_iwarp_fpdu`. `mpa_frag_virt` is `mpa_frag`; `mpa_buf` is only used if it was set. -/
structure IwarpFpdu where
  mpaBuf : ℕ
  pktHdr : BufAddr
  pktHdrSize : ℕ
  mpaFrag : BufAddr
  mpaFragLen : ℕ
  fpduLength : ℕ
  incompleteBytes : ℕ
  deriving DecidableEq, Repr

def IwarpFpdu.cleared : IwarpFpdu := ⟨0, ⟨0, 0⟩, 0, ⟨0, 0⟩, 0, 0, 0⟩

def IwarpFpdu.Partial (fpdu : IwarpFpdu) : Prop := fpdu.incompleteBytes ≠ 0
  deriving Decidable

/-- `struct qed_iwarp_ll2_mpa_buf`: a packet that was received, with its `unaligned_opaque_data`. -/
structure MpaBuf where
  ll2Buf : ℕ
  firstMpaOffset : ℕ
  tcpPayloadOffset : ℕ
  /-- `QED_IWARP_IS_RIGHT_EDGE` -/
  rightEdge : Bool
  cid : ℕ
  tcpPayloadLen : ℕ
  placementOffset : ℕ
  deriving DecidableEq, Repr

inductive TxDest
  | lb
  | drop
  deriving DecidableEq, Repr

/-- `enum iwarp_ll2_tx_queues`, as far as it is used here. -/
inductive IwarpTxQueue
  | aligned
  | alignedRightTrimmed
  deriving DecidableEq, Repr

structure TxFrag where
  addr : BufAddr
  len : ℕ
  deriving DecidableEq, Repr

/-- A packet that was posted to LL2, with what its fragments behind the header hold at that time. -/
structure TxPkt where
  numOfBds : ℕ
  txDest : TxDest
  queue : Option IwarpTxQueue
  cookie : Option ℕ
  frags : List TxFrag
  data : List (BitVec 8)
  deriving DecidableEq, Repr

/-- 0, `-EBUSY`, or another error. -/
inductive MpaRc
  | ok
  | busy
  | error
  deriving DecidableEq, Repr

/-- The state of `qed_iwarp_process_mpa_pkt`, with the packets it has posted. -/
structure MpaState where
  fpdu : IwarpFpdu
  pkt : MpaBuf
  mem : ℕ → ℕ → BitVec 8
  /-- `piggy_buf` of each buffer -/
  piggy : ℕ → Option ℕ
  txs : List TxPkt
  rc : MpaRc

/-- What LL2 returns in one turn: for the packet of the right edge, and for the other one. -/
structure MpaEnv where
  edge : MpaRc
  post : MpaRc
  deriving DecidableEq, Repr

/-- Bytes of the packet that are not processed yet. -/
def MpaState.byte (s : MpaState) (i : ℕ) : BitVec 8 := s.mem s.pkt.ll2Buf (s.pkt.firstMpaOffset + i)

def MpaState.payload (s : MpaState) : List (BitVec 8) :=
  slice (s.mem s.pkt.ll2Buf) s.pkt.firstMpaOffset s.pkt.tcpPayloadLen

/-! ## The length of an FPDU -/

def qedIwarpInvalidFpduLength : ℕ := 0xffff

/-- `QED_IWARP_FPDU_LEN_WITH_PAD`, an `int`: length field and data, aligned to 4, and the CRC. -/
def fpduLenWithPad (mpaLen : ℕ) : ℕ := (mpaLen + 2 + 3) / 4 * 4 + 4

/-- `ntohs` of two bytes. -/
def ntohs (hi lo : BitVec 8) : ℕ := hi.toNat * 2 ^ 8 + lo.toNat

inductive MpaPktType
  | packed
  | partial_
  | unaligned
  deriving DecidableEq, Repr

/-- `qed_iwarp_mpa_classify`, with the new `fpdu_length`. -/
def qedIwarpMpaClassify (s : MpaState) : MpaPktType × IwarpFpdu :=
  if s.fpdu.incompleteBytes ≠ 0 then (.unaligned, s.fpdu)
  else if s.pkt.tcpPayloadLen = 1 then
    (.partial_, { s.fpdu with fpduLength := (s.byte 0).toNat * 2 ^ 8 })
  else
    let fpduLength := fpduLenWithPad (ntohs (s.byte 0) (s.byte 1)) % 2 ^ 16
    (if fpduLength ≤ s.pkt.tcpPayloadLen then .packed else .partial_,
      { s.fpdu with fpduLength := fpduLength })

def qedIwarpInitFpdu (pkt : MpaBuf) (fpdu : IwarpFpdu) : IwarpFpdu :=
  let incompleteBytes :=
    if pkt.tcpPayloadLen = 1 then qedIwarpInvalidFpduLength
    else if pkt.tcpPayloadLen < fpdu.fpduLength then fpdu.fpduLength - pkt.tcpPayloadLen
    else 0
  { mpaBuf := pkt.ll2Buf
    pktHdr := ⟨pkt.ll2Buf, pkt.placementOffset⟩
    pktHdrSize := pkt.tcpPayloadOffset
    mpaFrag := ⟨pkt.ll2Buf, pkt.firstMpaOffset⟩
    fpduLength := fpdu.fpduLength
    incompleteBytes := incompleteBytes
    mpaFragLen := Word.sub 16 fpdu.fpduLength incompleteBytes }

/-- `qed_iwarp_update_fpdu_length`: the second byte of the length has come. -/
def qedIwarpUpdateFpduLength (fpdu : IwarpFpdu) (mpaData : BitVec 8) : IwarpFpdu :=
  if fpdu.incompleteBytes = qedIwarpInvalidFpduLength then
    let fpduLength := fpduLenWithPad (fpdu.fpduLength ||| mpaData.toNat) % 2 ^ 16
    { fpdu with
      fpduLength := fpduLength
      mpaFragLen := 1
      incompleteBytes := Word.sub 16 fpduLength 1 }
  else fpdu

/-! ## Transmits -/

/-- A packet is posted if LL2 accepts it; its result is the result of the turn so far. -/
def MpaState.post (s : MpaState) (p : TxPkt) (rc : MpaRc) : MpaState :=
  { s with txs := if rc = .ok then s.txs ++ [p] else s.txs, rc := rc }

/-- `qed_iwarp_recycle_pkt`: a packet to be dropped gives the buffer back when it is completed. -/
def qedIwarpRecyclePkt (s : MpaState) (buf : ℕ) (rc : MpaRc) : MpaState :=
  { s with piggy := update s.piggy buf none }.post
    ⟨1, .drop, none, some buf, [⟨s.fpdu.pktHdr, s.fpdu.pktHdrSize⟩], []⟩ rc

def qedIwarpWinRightEdge (s : MpaState) (rc : MpaRc) : MpaState :=
  s.post ⟨1, .lb, some .alignedRightTrimmed, none, [⟨s.fpdu.pktHdr, s.fpdu.pktHdrSize⟩], []⟩ rc

/-- The fragments of an FPDU behind the header. -/
def MpaState.fpduFrags (s : MpaState) : List TxFrag :=
  ⟨s.fpdu.mpaFrag, s.fpdu.mpaFragLen⟩ ::
    if s.fpdu.incompleteBytes = 0 then []
    else [⟨⟨s.pkt.ll2Buf, s.pkt.firstMpaOffset⟩, s.fpdu.incompleteBytes⟩]

def readFrags (mem : ℕ → ℕ → BitVec 8) (frags : List TxFrag) : List (BitVec 8) :=
  frags.flatMap fun f => slice (mem f.addr.buf) f.addr.off f.len

/-- The packet that hands an FPDU to the firmware. The buffer is its cookie, but for an FPDU that is
followed by others of the same packet. -/
def MpaState.fpduPkt (s : MpaState) (pktType : MpaPktType) : TxPkt :=
  { numOfBds := if pktType = .unaligned then 3 else 2
    txDest := .lb
    queue := some .aligned
    cookie :=
      if pktType = .unaligned ∨ s.pkt.tcpPayloadLen ≤ s.fpdu.fpduLength then some s.fpdu.mpaBuf
      else none
    frags := ⟨s.fpdu.pktHdr, s.fpdu.pktHdrSize⟩ :: s.fpduFrags
    data := readFrags s.mem s.fpduFrags }

def qedIwarpSendFpdu (s : MpaState) (pktType : MpaPktType) (rc : MpaRc) : MpaState :=
  { s with
    piggy :=
      if s.pkt.tcpPayloadLen = s.fpdu.incompleteBytes then
        update s.piggy s.fpdu.mpaBuf (some s.pkt.ll2Buf)
      else s.piggy }.post (s.fpduPkt pktType) rc

/-- What is at the begin of the buffer after an FPDU was copied to it: what was kept, and the
packet's payload. -/
def MpaState.copied (s : MpaState) (k : ℕ) : BitVec 8 :=
  if k < s.fpdu.mpaFragLen then s.mem s.fpdu.mpaFrag.buf (s.fpdu.mpaFrag.off + k)
  else if k < s.fpdu.mpaFragLen + s.pkt.tcpPayloadLen then s.byte (k - s.fpdu.mpaFragLen)
  else s.mem s.pkt.ll2Buf k

/-- The FPDU after the payload of a packet was added to it in the packet's buffer. `pkt_hdr` remains
as it is. -/
def IwarpFpdu.appended (fpdu : IwarpFpdu) (pkt : MpaBuf) : IwarpFpdu :=
  { fpdu with
    mpaBuf := pkt.ll2Buf
    mpaFrag := ⟨pkt.ll2Buf, 0⟩
    mpaFragLen := (fpdu.mpaFragLen + pkt.tcpPayloadLen) % 2 ^ 16
    incompleteBytes := Word.sub 16 fpdu.incompleteBytes pkt.tcpPayloadLen }

/-- `qed_iwarp_cp_pkt`; `(u16) buf->buff_size` is the size of all buffers. -/
def qedIwarpCpPkt (buffSize : BitVec 16) (s : MpaState) (rc : MpaRc) : MpaState :=
  if buffSize.toNat < s.fpdu.mpaFragLen + s.pkt.tcpPayloadLen then { s with rc := .error }
  else
    let s' := qedIwarpRecyclePkt s s.fpdu.mpaBuf rc
    if rc ≠ .ok then s'
    else
      { s' with
        mem := update s.mem s.pkt.ll2Buf s.copied
        fpdu := s.fpdu.appended s.pkt }

/-! ## The loop -/

def MpaState.drain (s : MpaState) : MpaState := { s with pkt := { s.pkt with tcpPayloadLen := 0 } }

/-- So many bytes of the packet are done. -/
def MpaState.advance (s : MpaState) (n : ℕ) : MpaState :=
  { s with
    pkt :=
      { s.pkt with
        tcpPayloadLen := Word.sub 16 s.pkt.tcpPayloadLen n
        firstMpaOffset := (s.pkt.firstMpaOffset + n) % 2 ^ 16 } }

/-- `QED_IWARP_MPA_PKT_PARTIAL`. -/
def MpaState.partialTurn (s : MpaState) (env : MpaEnv) : MpaState :=
  let s := { s with fpdu := qedIwarpInitFpdu s.pkt s.fpdu }
  if s.pkt.rightEdge then
    if env.edge = .ok then (qedIwarpWinRightEdge s env.edge).drain
    else { qedIwarpWinRightEdge s env.edge with fpdu := .cleared }
  else s.drain

/-- `QED_IWARP_MPA_PKT_PACKED`. -/
def MpaState.packedTurn (s : MpaState) (env : MpaEnv) : MpaState :=
  if s.fpdu.fpduLength = 8 then s.drain
  else
    let s := { s with fpdu := qedIwarpInitFpdu s.pkt s.fpdu }
    if env.post = .ok then (qedIwarpSendFpdu s .packed env.post).advance s.fpdu.fpduLength
    else { qedIwarpSendFpdu s .packed env.post with fpdu := .cleared }

/-- `QED_IWARP_MPA_PKT_UNALIGNED`, with an FPDU that does not end in this packet. -/
def MpaState.splitTurn (buffSize : BitVec 16) (s : MpaState) (env : MpaEnv) : MpaState :=
  let s' := if s.pkt.rightEdge then qedIwarpWinRightEdge s env.edge else s
  if s'.rc ≠ .ok then s'
  else
    let s'' := qedIwarpCpPkt buffSize s' env.post
    if s''.rc ≠ .ok then s'' else s''.drain

/-- `QED_IWARP_MPA_PKT_UNALIGNED`, with an FPDU that ends in this packet. -/
def MpaState.tailTurn (s : MpaState) (env : MpaEnv) : MpaState :=
  let s' := qedIwarpSendFpdu s .unaligned env.post
  if env.post = .ok then
    { s'.advance s.fpdu.incompleteBytes with fpdu := { s.fpdu with incompleteBytes := 0 } }
  else s'

/-- The state before the `switch`: the packet is classified, and the length of an FPDU of which only
one byte was there is completed. -/
def MpaState.classified (s : MpaState) : MpaState :=
  { s with
    fpdu :=
      if s.fpdu.incompleteBytes ≠ 0 then qedIwarpUpdateFpduLength s.fpdu (s.byte 0)
      else (qedIwarpMpaClassify s).2 }

/-- One turn of the loop of `qed_iwarp_process_mpa_pkt`. -/
def MpaState.turn (buffSize : BitVec 16) (s : MpaState) (env : MpaEnv) : MpaState :=
  match (qedIwarpMpaClassify s).1 with
  | .partial_ => s.classified.partialTurn env
  | .packed => s.classified.packedTurn env
  | .unaligned =>
    if s.pkt.tcpPayloadLen < s.classified.fpdu.incompleteBytes then
      s.classified.splitTurn buffSize env
    else s.classified.tailTurn env

/-- The loop ends, or returns from within. -/
def MpaState.Finished (s : MpaState) : Prop := s.pkt.tcpPayloadLen = 0 ∨ s.rc ≠ .ok
  deriving Decidable

/-- `qed_iwarp_process_mpa_pkt` after `n` turns of its loop, for a packet of a known connection. -/
def qedIwarpProcessMpaPkt (buffSize : BitVec 16) (env : ℕ → MpaEnv) (s : MpaState) (n : ℕ) :
    MpaState :=
  Loop.doRun MpaState.Finished (MpaState.turn buffSize) env s n

end FastLinQ.Qed
