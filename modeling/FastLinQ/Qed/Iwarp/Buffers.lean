import FastLinQ.Foundations.Places
import FastLinQ.Qed.Iwarp.Progress

/-!
# The receive buffers of the MPA connection

Every receive buffer of the MPA connection is posted to LL2 (`ring`), in a packet that is to be
processed (`pending`), kept with a part of an FPDU (`held`), or attached to a transmit packet as its
cookie or as the `piggy_buf` of the cookie (`attached`), to be given back when the packet is
completed.

The system takes its steps as the driver does: LL2 hands up a packet, or completes one; then the
pending packets are processed turn by turn, until there are none, LL2 is busy, or there is an error.
In between, the firmware may flush the FPDU of a connection.
-/

namespace FastLinQ.Qed

open Places Function List Word IwarpFpdu TxPkt Nat

/-! ## The system -/

/-- The numbers that the setup chooses: `(u16) buff_size`, `max_num_partial_fpdus` and the first
CID. -/
structure IwarpCfg where
  buffSize : BitVec 16
  maxNumPartialFpdus : ℕ
  cidStart : ℕ

/-- `qed_iwarp_get_curr_fpdu`: the index of the connection. -/
def IwarpCfg.getCurrFpdu (cfg : IwarpCfg) (cid : ℕ) : Option ℕ :=
  let idx := Word.sub 32 (cid % 2 ^ 16) cfg.cidStart
  if idx < cfg.maxNumPartialFpdus then some idx else none

structure MpaSys where
  /-- `partial_fpdus` -/
  fpdus : ℕ → IwarpFpdu
  /-- `mpa_buf_pending_list` -/
  pending : List MpaBuf
  /-- the buffers that are posted to LL2 -/
  ring : List ℕ
  /-- the transmit packets that are not completed -/
  posted : List TxPkt
  mem : ℕ → ℕ → BitVec 8
  piggy : ℕ → Option ℕ
  /-- within `qed_iwarp_process_pending_pkts` -/
  active : Bool
  /-- whether a fragment was posted that points to a buffer that was given back or attached before
  -/
  stale : Bool

/-- The buffer that is kept with a part of an FPDU. -/
def IwarpFpdu.held (fpdu : IwarpFpdu) : Option ℕ := if fpdu.Partial then some fpdu.mpaBuf else none

/-- The buffers that a packet gives back when it is completed. -/
def TxPkt.attached (piggy : ℕ → Option ℕ) (p : TxPkt) : List ℕ :=
  match p.cookie with
  | none => []
  | some c => c :: (piggy c).toList

def MpaSys.pendingBufs (s : MpaSys) : List ℕ := s.pending.map MpaBuf.ll2Buf

def MpaSys.held (cfg : IwarpCfg) (s : MpaSys) : List ℕ :=
  tabled (fun i => (s.fpdus i).held) cfg.maxNumPartialFpdus

def MpaSys.attached (s : MpaSys) : List ℕ := s.posted.flatMap (TxPkt.attached s.piggy)

/-- The state in which the packet is processed for the connection `i`. -/
def MpaSys.load (s : MpaSys) (pkt : MpaBuf) (i : ℕ) : MpaState :=
  ⟨s.fpdus i, pkt, s.mem, s.piggy, [], .ok⟩

/-- A buffer may be used for a packet of the connection: it is the packet's own or the one that is
kept, and it was not given back or attached. -/
def MpaSys.Usable (s : MpaSys) (pkt : MpaBuf) (i b : ℕ) : Prop :=
  (b = pkt.ll2Buf ∨ (s.fpdus i).held = some b) ∧ b ∉ s.ring ∧ b ∉ s.attached
  deriving Decidable

def MpaSys.store (s : MpaSys) (pkt : MpaBuf) (i : ℕ) (t : MpaState) : MpaSys :=
  { s with
    fpdus := update s.fpdus i t.fpdu
    mem := t.mem
    piggy := t.piggy
    posted := s.posted ++ t.txs
    stale := s.stale || !decide (∀ p ∈ t.txs, ∀ f ∈ p.frags, s.Usable pkt i f.addr.buf) }

/-- One turn for the first pending packet, and what `qed_iwarp_process_pending_pkts` does after the
last one: a packet stays on the list if LL2 is busy, and an error ends the processing as well. -/
def MpaSys.turn (cfg : IwarpCfg) (s : MpaSys) (env : MpaEnv) : MpaSys :=
  match s.pending with
  | [] => { s with active := false }
  | pkt :: rest =>
    match cfg.getCurrFpdu pkt.cid with
    | none => { s with ring := s.ring ++ [pkt.ll2Buf], pending := rest, active := !rest.isEmpty }
    | some i =>
      let t := (s.load pkt i).turn cfg.buffSize env
      let s' := s.store pkt i t
      match t.rc with
      | .ok =>
        if t.pkt.tcpPayloadLen = 0 then { s' with pending := rest, active := !rest.isEmpty }
        else { s' with pending := t.pkt :: rest }
      | .busy => { s' with pending := t.pkt :: rest, active := false }
      | .error => { s' with pending := rest, active := false }

/-- `qed_iwarp_ll2_comp_mpa_pkt`: a packet comes in a buffer that was posted. -/
def MpaSys.compMpaPkt (s : MpaSys) (pkt : MpaBuf) (data : ℕ → BitVec 8) : MpaSys :=
  if pkt.ll2Buf ∈ s.ring then
    { s with
      ring := s.ring.erase pkt.ll2Buf
      mem := update s.mem pkt.ll2Buf data
      pending := s.pending ++ [pkt]
      active := true }
  else s

/-- `qed_iwarp_ll2_comp_tx_pkt`: the first transmit packet is completed. -/
def MpaSys.compTxPkt (s : MpaSys) : MpaSys :=
  match s.posted with
  | [] => s
  | p :: rest =>
    match p.cookie with
    | none => { s with posted := rest }
    | some c =>
      { s with
        posted := rest
        ring := s.ring ++ (s.piggy c).toList ++ [c]
        piggy := update s.piggy c none
        active := !s.pending.isEmpty }

/-- `qed_iwarp_ll2_slowpath`: the FPDU of a connection is flushed. -/
def MpaSys.slowpath (cfg : IwarpCfg) (s : MpaSys) (cid : ℕ) : MpaSys :=
  match cfg.getCurrFpdu cid with
  | none => s
  | some i => { s with fpdus := update s.fpdus i .cleared }

inductive MpaStep
  | compMpaPkt (pkt : MpaBuf) (data : ℕ → BitVec 8)
  | compTxPkt
  | slowpath (cid : ℕ)
  | turn (env : MpaEnv)

/-- A step of the system. LL2 calls the driver when the pending packets are not being processed. -/
def MpaSys.step (cfg : IwarpCfg) (s : MpaSys) : MpaStep → MpaSys
  | .turn env => if s.active then s.turn cfg env else s
  | .compMpaPkt pkt data => if s.active then s else s.compMpaPkt pkt data
  | .compTxPkt => if s.active then s else s.compTxPkt
  | .slowpath cid => if s.active then s else s.slowpath cfg cid

/-- The state after the setup, with `n` buffers. -/
def MpaSys.init (n : ℕ) (mem : ℕ → ℕ → BitVec 8) : MpaSys :=
  ⟨fun _ => .cleared, [], range n, [], mem, fun _ => none, false, false⟩

/-- Every buffer is in one place, once, and no fragment was posted that points to a buffer that was
given back or attached before. -/
structure MpaSys.Owned (cfg : IwarpCfg) (n : ℕ) (s : MpaSys) : Prop where
  one : ∀ b < n, s.pendingBufs.count b + (s.held cfg).count b + s.attached.count b +
    s.ring.count b = 1
  fresh : s.stale = false

/-! ## The steps that keep buffers in their places -/

/-- A turn for which the buffers are kept in their places. -/
@[mk_iff]
structure MpaState.Sound (buffSize : BitVec 16) (s : MpaState) (env : MpaEnv) : Prop where
  /-- LL2 accepts a packet or is busy -/
  edge : env.edge ≠ .error
  post : env.post ≠ .error
  /-- there is no FPDU of eight bytes, and none of no bytes in a packet without payload -/
  eight : s.fpdu.incompleteBytes = 0 → s.pkt.tcpPayloadLen ≠ 1 →
    s.fpduLen ≤ s.pkt.tcpPayloadLen → s.fpduLen ≠ 8
  empty : s.fpdu.incompleteBytes = 0 → s.pkt.tcpPayloadLen = 0 → s.fpduLen ≠ 0
  /-- the header of the FPDU is in the buffer that is kept, unless nothing is posted -/
  header : s.fpdu.Partial → s.fpdu.pktHdr.buf = s.fpdu.mpaBuf ∨ env.edge = .busy ∧ env.post = .busy
  /-- a packet within an FPDU fits in a buffer with the part that is kept -/
  fits : s.fpdu.Partial → s.pkt.tcpPayloadLen < s.keptFpdu.incompleteBytes →
    s.keptFpdu.mpaFragLen + s.pkt.tcpPayloadLen ≤ buffSize.toNat

instance (buffSize : BitVec 16) (s : MpaState) (env : MpaEnv) : Decidable (s.Sound buffSize env) :=
  decidable_of_iff _ (s.sound_iff buffSize env).symm

/-- The condition for a step. A packet lies behind a header in its buffer. -/
def MpaStep.Sound (cfg : IwarpCfg) (s : MpaSys) : MpaStep → Prop
  | .turn env => ∀ pkt ∈ s.pending.head?, ∀ i ∈ cfg.getCurrFpdu pkt.cid,
    (s.load pkt i).Sound cfg.buffSize env
  | .compMpaPkt pkt _ => 0 < pkt.firstMpaOffset ∧
    pkt.firstMpaOffset + pkt.tcpPayloadLen ≤ cfg.buffSize.toNat
  | .compTxPkt => True
  | .slowpath cid => ∀ i ∈ cfg.getCurrFpdu cid, ¬ (s.fpdus i).Partial

instance (cfg : IwarpCfg) (s : MpaSys) (e : MpaStep) : Decidable (e.Sound cfg s) := by
  unfold MpaStep.Sound
  cases e <;> infer_instance

/-! ## One turn -/

@[simp] theorem IwarpFpdu.held_cleared : cleared.held = none := rfl

variable {fpdu : IwarpFpdu}

theorem IwarpFpdu.held_of_part (h : fpdu.Partial) : fpdu.held = some fpdu.mpaBuf := if_pos h

theorem IwarpFpdu.held_of_zero (h : fpdu.incompleteBytes = 0) :
    fpdu.held = none := if_neg (not_not.2 h)

theorem IwarpFpdu.partial_of_held {b : ℕ} (h : fpdu.held = some b) : fpdu.Partial := by
  by_contra hnot
  rw [held, if_neg hnot] at h
  cases h

theorem TxPkt.attached_of_none {p : TxPkt} (h : p.cookie = none) (piggy : ℕ → Option ℕ) :
    p.attached piggy = [] := by
  rw [attached, h]

theorem TxPkt.attached_of_some {p : TxPkt} {c : ℕ} (h : p.cookie = some c) (piggy : ℕ → Option ℕ) :
    p.attached piggy = c :: (piggy c).toList := by
  rw [attached, h]

theorem flatMap_attached_of_none {txs : List TxPkt} (h : ∀ p ∈ txs, p.cookie = none)
    (piggy : ℕ → Option ℕ) : txs.flatMap (attached piggy) = [] :=
  flatMap_eq_nil_iff.2 fun p hp => attached_of_none (h p hp) piggy

namespace MpaState

/-- What stays on the list of pending packets. -/
def left (t : MpaState) : List MpaBuf :=
  if t.rc = .ok ∧ t.pkt.tcpPayloadLen = 0 then [] else [t.pkt]

def stays (t : MpaState) : List ℕ := t.left.map MpaBuf.ll2Buf

/-- What holds before a turn of the system: the packet's buffer is not the one that is kept, and a
buffer has a `piggy_buf` only if the packet ends with the FPDU that is kept. -/
structure Begins (s : MpaState) : Prop where
  rc : s.rc = .ok
  txs : s.txs = []
  len : s.pkt.tcpPayloadLen < qedIwarpInvalidFpduLength
  le : s.fpdu.incompleteBytes ≤ qedIwarpInvalidFpduLength
  frag : s.fpdu.Partial → s.fpdu.mpaFrag.buf = s.fpdu.mpaBuf
  ne : s.fpdu.held ≠ some s.pkt.ll2Buf
  own : s.piggy s.pkt.ll2Buf = none
  piggy : ∀ b, s.fpdu.held = some b → s.piggy b ≠ none →
    s.fpdu.incompleteBytes = s.pkt.tcpPayloadLen

/-- What a turn does with the two buffers it has: that of the packet, and the one that is kept. -/
structure Moved (s t : MpaState) : Prop where
  rc : t.rc ≠ .error
  buf : t.pkt.ll2Buf = s.pkt.ll2Buf
  cid : t.pkt.cid = s.pkt.cid
  len : t.pkt.tcpPayloadLen ≤ s.pkt.tcpPayloadLen
  le : t.fpdu.incompleteBytes ≤ qedIwarpInvalidFpduLength
  frag : t.fpdu.Partial → t.fpdu.mpaFrag.buf = t.fpdu.mpaBuf
  count : ∀ b, [s.pkt.ll2Buf].count b + s.fpdu.held.toList.count b =
    t.stays.count b + t.fpdu.held.toList.count b + (t.txs.flatMap (attached t.piggy)).count b
  frags : ∀ p ∈ t.txs, ∀ f ∈ p.frags, f.addr.buf = s.pkt.ll2Buf ∨ s.fpdu.held = some f.addr.buf
  piggy : ∀ b, s.fpdu.held ≠ some b → t.piggy b = s.piggy b
  waits : ∀ b, s.fpdu.held = some b → t.piggy b ≠ none → (∃ p ∈ t.txs, p.cookie = some b) ∨
      t.fpdu.held = some b ∧ t.fpdu.incompleteBytes = t.pkt.tcpPayloadLen

variable {s t : MpaState} {env : MpaEnv} {buffSize : BitVec 16}

theorem left_of_zero (hrc : t.rc = .ok) (hlen : t.pkt.tcpPayloadLen = 0) : t.left = [] :=
  if_pos ⟨hrc, hlen⟩

theorem left_of_ne (hlen : t.pkt.tcpPayloadLen ≠ 0) : t.left = [t.pkt] := if_neg fun h => hlen h.2

theorem left_of_busy (hrc : t.rc = .busy) : t.left = [t.pkt] :=
  if_neg fun h => by rw [hrc] at h; cases h.1

theorem mem_left {q : MpaBuf} (h : q ∈ t.left) : q = t.pkt := by
  rw [left] at h
  split at h
  · cases h
  · exact mem_singleton.1 h

theorem stays_of_zero (hrc : t.rc = .ok) (hlen : t.pkt.tcpPayloadLen = 0) : t.stays = [] := by
  rw [stays, left_of_zero hrc hlen, map_nil]

theorem stays_of_ne (hlen : t.pkt.tcpPayloadLen ≠ 0) : t.stays = [t.pkt.ll2Buf] := by
  rw [stays, left_of_ne hlen, map_singleton]

theorem Moved.of_fpdu {fpdu : IwarpFpdu} (h : Moved { s with fpdu := fpdu } t)
    (hheld : fpdu.held = s.fpdu.held) : s.Moved t :=
  ⟨h.rc, h.buf, h.cid, h.len, h.le, h.frag, fun b => hheld ▸ h.count b,
    fun p hp f hf => hheld ▸ h.frags p hp f hf, fun b hb => h.piggy b (hheld ▸ hb),
    fun b hb => h.waits b (hheld ▸ hb)⟩

theorem Moved.of_busy (hrc : t.rc = .busy) (hpkt : t.pkt = s.pkt)
    (hheld : t.fpdu.held = s.fpdu.held)
    (hle : t.fpdu.incompleteBytes ≤ qedIwarpInvalidFpduLength)
    (hfrag : t.fpdu.Partial → t.fpdu.mpaFrag.buf = t.fpdu.mpaBuf)
    (hcookie : ∀ p ∈ t.txs, p.cookie = none)
    (hfrags : ∀ p ∈ t.txs, ∀ f ∈ p.frags, f.addr.buf = s.pkt.ll2Buf ∨ s.fpdu.held = some f.addr.buf)
    (hpiggy : ∀ b, s.fpdu.held ≠ some b → t.piggy b = s.piggy b)
    (hwaits : ∀ b, s.fpdu.held = some b → t.piggy b ≠ none →
      t.fpdu.incompleteBytes = t.pkt.tcpPayloadLen) : s.Moved t := by
  refine ⟨by rw [hrc]; decide, by rw [hpkt], by rw [hpkt], by rw [hpkt], hle, hfrag, fun b => ?_,
    hfrags, hpiggy, fun b hb hne => .inr ⟨hheld.trans hb, hwaits b hb hne⟩⟩
  rw [stays, left_of_busy hrc, flatMap_attached_of_none hcookie, hpkt, hheld]
  rfl

/-- An FPDU was handed over, and nothing of it is kept. -/
theorem Moved.of_sent {p : TxPkt} (hrc : t.rc = .ok) (hbuf : t.pkt.ll2Buf = s.pkt.ll2Buf)
    (hcid : t.pkt.cid = s.pkt.cid) (hlen : t.pkt.tcpPayloadLen ≤ s.pkt.tcpPayloadLen)
    (hdone : t.fpdu.incompleteBytes = 0) (htxs : t.txs = [p])
    (hcount : ∀ b, [s.pkt.ll2Buf].count b + s.fpdu.held.toList.count b =
      t.stays.count b + (p.attached t.piggy).count b)
    (hfrags : ∀ f ∈ p.frags, f.addr.buf = s.pkt.ll2Buf ∨ s.fpdu.held = some f.addr.buf)
    (hpiggy : ∀ b, s.fpdu.held ≠ some b → t.piggy b = s.piggy b)
    (hcookie : ∀ b, s.fpdu.held = some b → p.cookie = some b) : s.Moved t := by
  refine ⟨by rw [hrc]; decide, hbuf, hcid, hlen, by rw [hdone]; exact zero_le _,
    fun h => absurd hdone h, fun b => ?_, fun q hq => ?_, hpiggy,
    fun b hb _ => .inl ⟨p, by rw [htxs]; exact mem_singleton_self p, hcookie b hb⟩⟩
  · rw [held_of_zero hdone, htxs, flatMap_singleton]
    exact hcount b
  · rw [htxs] at hq
    rw [mem_singleton.1 hq]
    exact hfrags

theorem txs_qedIwarpSendFpdu (h : s.txs = []) (pktType : MpaPktType) :
    (qedIwarpSendFpdu s pktType .ok).txs = [s.fpduPkt pktType] := by
  change s.txs ++ [_] = _
  rw [h]
  rfl

/-! ### At the begin of an FPDU -/

/-- A packet that ends within an FPDU: its buffer is kept, or the packet stays. -/
theorem Begins.partialTurn (hs : s.Begins) (hinc : s.fpdu.incompleteBytes = 0)
    (hedge : env.edge ≠ .error) (hnew : (qedIwarpInitFpdu s.pkt s.fpdu).Partial)
    (hle : (qedIwarpInitFpdu s.pkt s.fpdu).incompleteBytes ≤ qedIwarpInvalidFpduLength) :
    s.Moved (s.partialTurn env) := by
  have hnone : s.fpdu.held = none := held_of_zero hinc
  have hkept : (qedIwarpInitFpdu s.pkt s.fpdu).held = some s.pkt.ll2Buf :=
    held_of_part hnew
  -- the packet of the right edge has no cookie
  have hdone : ∀ t : MpaState, t.rc = .ok → t.fpdu = qedIwarpInitFpdu s.pkt s.fpdu →
      t.pkt = { s.pkt with tcpPayloadLen := 0 } → t.piggy = s.piggy →
      (∀ p ∈ t.txs, p.cookie = none) →
      (∀ p ∈ t.txs, ∀ f ∈ p.frags, f.addr.buf = s.pkt.ll2Buf) → s.Moved t := by
    intro t hrc hfpdu hpkt hpiggy hcookie hfrags
    refine ⟨by rw [hrc]; decide, by rw [hpkt], by rw [hpkt], by rw [hpkt]; exact zero_le _,
      by rw [hfpdu]; exact hle, fun _ => by rw [hfpdu]; rfl, fun b => ?_,
      fun p hp f hf => .inl (hfrags p hp f hf), fun b _ => by rw [hpiggy],
      fun b hb => by rw [hnone] at hb; cases hb⟩
    rw [stays_of_zero hrc (by rw [hpkt]), flatMap_attached_of_none hcookie, hfpdu, hkept, hnone]
    simp
  rw [MpaState.partialTurn]
  split
  · cases henv : env.edge with
    | error => exact absurd henv hedge
    | ok =>
      refine hdone _ rfl rfl rfl rfl ?_ ?_
      · simp [qedIwarpWinRightEdge, post, drain, hs.txs]
      · simp [qedIwarpWinRightEdge, post, drain, hs.txs, qedIwarpInitFpdu]
    | busy =>
      refine Moved.of_busy rfl rfl (by rw [hnone]; rfl) (zero_le _) (absurd rfl) ?_ ?_
        (fun _ _ => rfl) (fun b hb => by rw [hnone] at hb; cases hb)
      · simp [qedIwarpWinRightEdge, post, hs.txs]
      · simp [qedIwarpWinRightEdge, post, hs.txs]
  · refine hdone _ hs.rc rfl rfl rfl ?_ ?_ <;> simp [drain, hs.txs]

/-- A whole FPDU is handed over: its buffer stays with the packet, or is attached with the last
FPDU. -/
theorem moved_packed (htxs : s.txs = []) (hinc : s.fpdu.incompleteBytes = 0)
    (hbuf : s.fpdu.mpaBuf = s.pkt.ll2Buf) (hhdr : s.fpdu.pktHdr.buf = s.pkt.ll2Buf)
    (hfrag : s.fpdu.mpaFrag.buf = s.pkt.ll2Buf) (hown : s.piggy s.pkt.ll2Buf = none)
    (hle : s.fpdu.fpduLength ≤ s.pkt.tcpPayloadLen) (hlen : s.pkt.tcpPayloadLen ≠ 0)
    (hlt : s.pkt.tcpPayloadLen < 2 ^ 16) :
    s.Moved ((qedIwarpSendFpdu s .packed .ok).advance s.fpdu.fpduLength) := by
  have hnone : s.fpdu.held = none := held_of_zero hinc
  have hpiggy : ((qedIwarpSendFpdu s .packed .ok).advance s.fpdu.fpduLength).piggy = s.piggy :=
    if_neg (by rw [hinc]; exact hlen)
  have hlen' : ((qedIwarpSendFpdu s .packed .ok).advance s.fpdu.fpduLength).pkt.tcpPayloadLen =
      s.pkt.tcpPayloadLen - s.fpdu.fpduLength := sub_of_le_of_lt hle hlt
  refine Moved.of_sent rfl rfl rfl (by rw [hlen']; exact sub_le ..) hinc
    (txs_qedIwarpSendFpdu htxs .packed) (fun b => ?_) ?_ (fun b _ => congrFun hpiggy b)
    (fun b hb => by rw [hnone] at hb; cases hb)
  · rw [hpiggy, hnone]
    rcases lt_or_eq_of_le hle with hmore | hlast
    · have hcookie : (s.fpduPkt .packed).cookie = none := if_neg (by simp; omega)
      rw [stays_of_ne (by omega), attached_of_none hcookie]
      rfl
    · have hcookie : (s.fpduPkt .packed).cookie = some s.pkt.ll2Buf := by
        rw [← hbuf]
        exact if_pos (.inr hlast.ge)
      rw [stays_of_zero rfl (by omega), attached_of_some hcookie, hown]
      simp
  · simp [fpduPkt, fpduFrags, hinc, hhdr, hfrag]

/-- A whole FPDU is handed over, or the packet stays. -/
theorem Begins.packedTurn (hs : s.Begins) (hinc : s.fpdu.incompleteBytes = 0)
    (hpost : env.post ≠ .error) (h8 : s.fpdu.fpduLength ≠ 8) (hone : s.pkt.tcpPayloadLen ≠ 1)
    (hle : s.fpdu.fpduLength ≤ s.pkt.tcpPayloadLen) (hlen : s.pkt.tcpPayloadLen ≠ 0) :
    s.Moved (s.packedTurn env) := by
  have hnone : s.fpdu.held = none := held_of_zero hinc
  have hnew : (qedIwarpInitFpdu s.pkt s.fpdu).incompleteBytes = 0 := by
    simp [qedIwarpInitFpdu, if_neg hone, if_neg (not_lt.2 hle)]
  rw [MpaState.packedTurn, if_neg h8]
  cases henv : env.post with
  | error => exact absurd henv hpost
  | busy =>
    refine Moved.of_busy rfl rfl (by rw [hnone]; rfl) (zero_le _) (absurd rfl) ?_ ?_
      (fun b _ => congrFun (if_neg (by rw [hnew]; exact hlen)) b)
      (fun b hb => by rw [hnone] at hb; cases hb)
    · simp [qedIwarpSendFpdu, post, hs.txs]
    · simp [qedIwarpSendFpdu, post, hs.txs]
  | ok =>
    refine Moved.of_fpdu ?_ ((held_of_zero hnew).trans hnone.symm)
    exact moved_packed hs.txs hnew rfl rfl rfl hs.own hle hlen (hs.len.trans (by decide))

/-! ### Behind a part that is kept -/

/-- Only the buffer that is kept gets a `piggy_buf`. -/
theorem piggy_qedIwarpSendFpdu (hheld : s.fpdu.held = some s.fpdu.mpaBuf) (pktType : MpaPktType)
    (rc : MpaRc) (b : ℕ) (hb : s.fpdu.held ≠ some b) :
    (qedIwarpSendFpdu s pktType rc).piggy b = s.piggy b := by
  change (if _ then update s.piggy s.fpdu.mpaBuf _ else s.piggy) b = _
  split
  · exact update_of_ne (fun h => hb (by rw [hheld, h])) ..
  · rfl

/-- The buffers that are given back with the end of an FPDU. -/
theorem Begins.attached_tail (hs : s.Begins) (hheld : s.fpdu.held = some s.fpdu.mpaBuf) :
    (s.fpduPkt .unaligned).attached (qedIwarpSendFpdu s .unaligned .ok).piggy =
      if s.pkt.tcpPayloadLen = s.fpdu.incompleteBytes then [s.fpdu.mpaBuf, s.pkt.ll2Buf]
      else [s.fpdu.mpaBuf] := by
  change _ :: ((if _ then update s.piggy _ _ else s.piggy) _).toList = _
  split
  · rw [update_self]
    rfl
  · rename_i hne
    have hnone : s.piggy s.fpdu.mpaBuf = none := by
      by_contra hsome
      exact hne (hs.piggy _ hheld hsome).symm
    rw [hnone]
    rfl

/-- The end of an FPDU: the buffer that is kept is attached, and that of the packet with it if
nothing is left of it. -/
theorem Begins.tailTurn (hs : s.Begins) (hinc : s.fpdu.Partial) (hpost : env.post ≠ .error)
    (hhdr : s.fpdu.pktHdr.buf = s.fpdu.mpaBuf ∨ env.post = .busy)
    (hle : s.fpdu.incompleteBytes ≤ s.pkt.tcpPayloadLen) : s.Moved (s.tailTurn env) := by
  have hheld := held_of_part hinc
  rw [MpaState.tailTurn]
  cases henv : env.post with
  | error => exact absurd henv hpost
  | busy =>
    refine Moved.of_busy rfl rfl rfl hs.le hs.frag ?_ ?_ (piggy_qedIwarpSendFpdu hheld _ _)
      (fun b hb hne => ?_)
    · simp [qedIwarpSendFpdu, post, hs.txs]
    · simp [qedIwarpSendFpdu, post, hs.txs]
    · by_cases heq : s.pkt.tcpPayloadLen = s.fpdu.incompleteBytes
      · exact heq.symm
      · have hsame : (qedIwarpSendFpdu s .unaligned .busy).piggy = s.piggy := if_neg heq
        exact hs.piggy b hb fun h => hne ((congrFun hsame b).trans h)
  | ok =>
    have hlen : ((qedIwarpSendFpdu s .unaligned .ok).advance
        s.fpdu.incompleteBytes).pkt.tcpPayloadLen = s.pkt.tcpPayloadLen - s.fpdu.incompleteBytes :=
      sub_of_le_of_lt hle (hs.len.trans (by decide))
    have hbuf := hhdr.resolve_right (by rw [henv]; nofun)
    rw [if_pos rfl]
    refine Moved.of_sent rfl rfl rfl (hlen.trans_le (sub_le ..)) rfl
      (txs_qedIwarpSendFpdu hs.txs .unaligned) (fun b => ?_) ?_
      (piggy_qedIwarpSendFpdu hheld .unaligned .ok)
      (fun b hb => by simp [fpduPkt, ← hb, hheld])
    · refine .trans ?_ (congrArg (_ + count b ·) (hs.attached_tail hheld).symm)
      rw [hheld]
      split
      · rw [stays_of_zero]
        · simp [count_cons, add_comm]
        · rfl
        · exact hlen.trans (by omega)
      · rw [stays_of_ne]
        · rfl
        · exact hlen.trans_ne (by omega)
    · have hne : s.fpdu.incompleteBytes ≠ 0 := hinc
      simp [fpduPkt, fpduFrags, hbuf, hs.frag hinc, hheld, hne]

/-- The packet of the right edge, if there is one, was accepted. It has no cookie. -/
structure Edged (s t : MpaState) : Prop where
  fpdu : t.fpdu = s.fpdu
  pkt : t.pkt = s.pkt
  piggy : t.piggy = s.piggy
  cookie : ∀ p ∈ t.txs, p.cookie = none
  frags : ∀ p ∈ t.txs, ∀ f ∈ p.frags, f.addr.buf = s.fpdu.pktHdr.buf

section

variable (hs : s.Begins)

include hs

theorem Begins.edged : s.Edged s := by
  refine ⟨rfl, rfl, rfl, ?_, ?_⟩ <;> simp [hs.txs]

theorem Begins.edged_qedIwarpWinRightEdge (rc : MpaRc) : s.Edged (qedIwarpWinRightEdge s rc) := by
  refine ⟨rfl, rfl, rfl, ?_, ?_⟩ <;> cases rc <;> simp [qedIwarpWinRightEdge, post, hs.txs]

/-- What is kept stays as it is if the buffer cannot be given back. -/
theorem Begins.moved_recycle_busy (hheld : s.fpdu.held = some s.fpdu.mpaBuf) (he : s.Edged t)
    (hhdr : t.txs = [] ∨ s.fpdu.pktHdr.buf = s.fpdu.mpaBuf) :
    s.Moved (qedIwarpRecyclePkt t s.fpdu.mpaBuf .busy) := by
  refine Moved.of_busy rfl he.pkt (congrArg _ he.fpdu) (he.fpdu ▸ hs.le) (he.fpdu ▸ hs.frag)
    he.cookie (fun p hp f hf => .inr ?_) (fun b hb => ?_) (fun b hb hne => absurd ?_ hne)
  · rcases hhdr with hnil | hhdr
    · rw [show (qedIwarpRecyclePkt t s.fpdu.mpaBuf .busy).txs = [] from hnil] at hp
      cases hp
    · rw [he.frags p hp f hf, hhdr, hheld]
  · rw [← he.piggy]
    exact update_of_ne (fun h => hb (by rw [hheld, h])) ..
  · rw [hheld, Option.some.injEq] at hb
    rw [← hb]
    exact update_self ..

/-- The buffer that was kept is given back, and that of the packet is kept. -/
theorem Begins.moved_recycle_ok (hheld : s.fpdu.held = some s.fpdu.mpaBuf) (he : s.Edged t)
    (hhdr : s.fpdu.pktHdr.buf = s.fpdu.mpaBuf) (hlt : s.pkt.tcpPayloadLen < s.fpdu.incompleteBytes)
    (mem : ℕ → ℕ → BitVec 8) :
    s.Moved { qedIwarpRecyclePkt t s.fpdu.mpaBuf .ok with
      mem := mem
      fpdu := t.fpdu.appended t.pkt }.drain := by
  have hle := hs.le
  have hinc : (s.fpdu.appended s.pkt).incompleteBytes =
      s.fpdu.incompleteBytes - s.pkt.tcpPayloadLen :=
    sub_of_le_of_lt hlt.le (hs.le.trans_lt (by decide))
  have hpart : (s.fpdu.appended s.pkt).Partial := by
    rw [Partial]
    omega
  have hnone : (qedIwarpRecyclePkt t s.fpdu.mpaBuf .ok).piggy s.fpdu.mpaBuf = none := update_self ..
  have hbuf : t.pkt.ll2Buf = s.pkt.ll2Buf := congrArg _ he.pkt
  have hcid : t.pkt.cid = s.pkt.cid := congrArg _ he.pkt
  refine ⟨by nofun, hbuf, hcid, zero_le _, ?_, fun _ => rfl,
    fun b => ?_, fun p hp f hf => .inr ?_, fun b hb => ?_, ?_⟩
  · change (t.fpdu.appended t.pkt).incompleteBytes ≤ _
    rw [he.fpdu, he.pkt]
    omega
  · have hkept : (t.fpdu.appended t.pkt).held = some s.pkt.ll2Buf := by
      rw [he.fpdu, he.pkt]
      exact held_of_part hpart
    change _ = 0 + (t.fpdu.appended t.pkt).held.toList.count b + count b
      ((t.txs ++ [_]).flatMap (attached (qedIwarpRecyclePkt t s.fpdu.mpaBuf .ok).piggy))
    rw [flatMap_append, flatMap_attached_of_none he.cookie, flatMap_singleton,
      attached_of_some rfl, hnone, hkept, hheld]
    simp
  · rcases mem_append.1 (show p ∈ t.txs ++ [_] from hp) with hp | hp
    · rw [he.frags p hp f hf, hhdr, hheld]
    · rw [mem_singleton.1 hp] at hf
      rw [mem_singleton.1 hf, he.fpdu, hhdr, hheld]
  · rw [← he.piggy]
    exact update_of_ne (fun h => hb (by rw [hheld, h])) ..
  · intro b hb hne
    rw [hheld, Option.some.injEq] at hb
    rw [← hb] at hne
    exact absurd hnone hne

/-- A packet within an FPDU: the buffer that is kept is attached, and that of the packet is kept; or
the packet stays. -/
theorem Begins.splitTurn (hinc : s.fpdu.Partial) (hedge : env.edge ≠ .error)
    (hpost : env.post ≠ .error)
    (hhdr : s.fpdu.pktHdr.buf = s.fpdu.mpaBuf ∨ env.edge = .busy ∧ env.post = .busy)
    (hlt : s.pkt.tcpPayloadLen < s.fpdu.incompleteBytes)
    (hfits : s.fpdu.mpaFragLen + s.pkt.tcpPayloadLen ≤ buffSize.toNat) :
    s.Moved (s.splitTurn buffSize env) := by
  have hheld := held_of_part hinc
  -- the copy, after the packet of the right edge
  have hcp : ∀ t : MpaState, s.Edged t → t.rc = .ok →
      (t.txs = [] ∨ s.fpdu.pktHdr.buf = s.fpdu.mpaBuf) →
      s.Moved (if (qedIwarpCpPkt buffSize t env.post).rc ≠ .ok then
        qedIwarpCpPkt buffSize t env.post
        else (qedIwarpCpPkt buffSize t env.post).drain) := by
    intro t he hrc htxs
    have hroom : ¬ buffSize.toNat < t.fpdu.mpaFragLen + t.pkt.tcpPayloadLen := by
      rw [he.fpdu, he.pkt]
      omega
    cases henv : env.post with
    | error => exact absurd henv hpost
    | busy =>
      have hcp : qedIwarpCpPkt buffSize t .busy = qedIwarpRecyclePkt t s.fpdu.mpaBuf .busy := by
        rw [qedIwarpCpPkt, if_neg hroom, if_pos (by decide), he.fpdu]
      rw [hcp]
      exact hs.moved_recycle_busy hheld he htxs
    | ok =>
      have hcp : qedIwarpCpPkt buffSize t .ok =
          { qedIwarpRecyclePkt t s.fpdu.mpaBuf .ok with
            mem := update t.mem t.pkt.ll2Buf t.copied
            fpdu := t.fpdu.appended t.pkt } := by
        rw [qedIwarpCpPkt, if_neg hroom, if_neg (by decide), he.fpdu]
      rw [hcp]
      exact hs.moved_recycle_ok hheld he (hhdr.resolve_right (by simp [henv])) hlt _
  rw [MpaState.splitTurn]
  split
  · cases henv : env.edge with
    | error => exact absurd henv hedge
    | busy =>
      have hnil : (qedIwarpWinRightEdge s .busy).txs = [] := hs.txs
      rw [if_pos (by change MpaRc.busy ≠ .ok; decide)]
      exact Moved.of_busy rfl rfl rfl hs.le hs.frag (by simp [hnil]) (by simp [hnil])
        (fun _ _ => rfl) hs.piggy
    | ok =>
      exact hcp _ (hs.edged_qedIwarpWinRightEdge .ok) rfl
        (.inr (hhdr.resolve_right (by simp [henv])))
  · rw [if_neg (not_not.2 hs.rc)]
    exact hcp s hs.edged hs.rc (.inl hs.txs)

/-! ### All turns -/

/-- The length of an FPDU is a multiple of four: more than the first byte of it is missing. -/
theorem Begins.keptFpdu (hinc : s.fpdu.Partial) :
    s.keptFpdu.Partial ∧ s.keptFpdu.incompleteBytes ≤ qedIwarpInvalidFpduLength := by
  by_cases hinv : s.fpdu.incompleteBytes = qedIwarpInvalidFpduLength
  · have hkept : s.keptFpdu.incompleteBytes =
        Word.sub 16 (fpduLenWithPad (s.fpdu.fpduLength ||| (s.byte 0).toNat) % 2 ^ 16) 1 := by
      rw [MpaState.keptFpdu, qedIwarpUpdateFpduLength, if_pos hinv]
    rw [Partial, hkept, qedIwarpInvalidFpduLength, Word.sub, fpduLenWithPad]
    omega
  · rw [keptFpdu_of_ne hinv]
    exact ⟨hinc, hs.le⟩

end

theorem pktHdr_keptFpdu (s : MpaState) : s.keptFpdu.pktHdr = s.fpdu.pktHdr := by
  rw [MpaState.keptFpdu, qedIwarpUpdateFpduLength]
  split <;> rfl

theorem Begins.held_keptFpdu (hs : s.Begins) (hinc : s.fpdu.Partial) :
    s.keptFpdu.held = s.fpdu.held := by
  rw [held_of_part (hs.keptFpdu hinc).1, held_of_part hinc, s.keptFpdu_buf.1]

theorem Begins.kept (hs : s.Begins) (hinc : s.fpdu.Partial) :
    Begins { s with fpdu := s.keptFpdu } := by
  refine ⟨hs.rc, hs.txs, hs.len, (hs.keptFpdu hinc).2, fun _ => ?_, ?_, hs.own, fun b hb hne => ?_⟩
  · rw [s.keptFpdu_buf.1, s.keptFpdu_buf.2]
    exact hs.frag hinc
  · exact (hs.held_keptFpdu hinc).trans_ne hs.ne
  · have heq := hs.piggy b ((hs.held_keptFpdu hinc).symm.trans hb) hne
    have hlen := hs.len
    change s.keptFpdu.incompleteBytes = _
    rw [keptFpdu_of_ne (by omega)]
    exact heq

theorem Begins.withLength (hs : s.Begins) (n : ℕ) :
    Begins { s with fpdu := { s.fpdu with fpduLength := n } } :=
  { hs with }

theorem Moved.of_length {m : ℕ}
    (h : Moved { s with fpdu := { s.fpdu with fpduLength := m } } t) : s.Moved t :=
  h.of_fpdu rfl

/-- **One turn.** The two buffers go to their new places. -/
theorem Begins.turn (hs : s.Begins) (hok : s.Sound buffSize env) :
    s.Moved (s.turn buffSize env) := by
  by_cases hinc : s.fpdu.incompleteBytes = 0
  · by_cases hone : s.pkt.tcpPayloadLen = 1
    · rw [turn_of_one hinc hone]
      have hnew : (qedIwarpInitFpdu s.pkt { s.fpdu with fpduLength := (s.byte 0).toNat * 2 ^ 8 }
          ).incompleteBytes = qedIwarpInvalidFpduLength := by
        simp [qedIwarpInitFpdu, if_pos hone]
      refine ((hs.withLength ((s.byte 0).toNat * 2 ^ 8)).partialTurn hinc hok.edge ?_
        hnew.le).of_length
      rw [Partial, hnew]
      decide
    · rcases lt_or_ge s.pkt.tcpPayloadLen s.fpduLen with hlt | hle
      · rw [turn_of_part hinc hone hlt]
        have hnew : (qedIwarpInitFpdu s.pkt { s.fpdu with fpduLength := s.fpduLen }
            ).incompleteBytes = s.fpduLen - s.pkt.tcpPayloadLen := by
          simp [qedIwarpInitFpdu, if_neg hone, if_pos hlt]
        have hbound : s.fpduLen < 2 ^ 16 := mod_lt _ (by decide)
        refine ((hs.withLength s.fpduLen).partialTurn hinc hok.edge ?_ ?_).of_length
        · rw [Partial, hnew]
          omega
        · rw [hnew, qedIwarpInvalidFpduLength]
          omega
      · rw [turn_of_packed hinc hone hle]
        refine ((hs.withLength s.fpduLen).packedTurn hinc hok.post
          (hok.eight hinc hone hle) hone hle fun h0 => ?_).of_length
        exact hok.empty hinc h0 (by change s.pkt.tcpPayloadLen = 0 at h0; omega)
  · have hhdr :
        s.keptFpdu.pktHdr.buf = s.keptFpdu.mpaBuf ∨ env.edge = .busy ∧ env.post = .busy := by
      rw [pktHdr_keptFpdu, s.keptFpdu_buf.1]
      exact hok.header hinc
    rw [turn_of_unaligned hinc]
    split
    · rename_i hlt
      exact ((hs.kept hinc).splitTurn (hs.keptFpdu hinc).1 hok.edge hok.post hhdr hlt
        (hok.fits hinc hlt)).of_fpdu (hs.held_keptFpdu hinc)
    · rename_i hge
      exact ((hs.kept hinc).tailTurn (hs.keptFpdu hinc).1 hok.post (hhdr.imp_right And.right)
        (not_lt.1 hge)).of_fpdu (hs.held_keptFpdu hinc)

end MpaState

end FastLinQ.Qed
