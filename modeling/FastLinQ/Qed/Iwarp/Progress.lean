import FastLinQ.Foundations.Run
import FastLinQ.Qed.Iwarp.Turn

/-!
# The loop over a packet makes progress

`fpdu_length` has 16 bits, but the padded length of an FPDU with an MPA length above 65526 has 17:
the length that is computed for it is 0, 4 or 8. With 0 the loop of `qed_iwarp_process_mpa_pkt` does
not get on, and hands the same empty FPDU over for ever.

`MpaConn.Fits` says that a packet is not empty and that no MPA length that the loop comes to is
above 65526. `mpaProgress_iff`: after packets of this kind, the loop makes progress for these
packets and for no other.
-/

namespace FastLinQ.Qed

open Function Nat Word IwarpFpdu Loop List Option

/-! ## What is asked for -/

/-- The MPA length field from which the next turn computes the length of an FPDU, if it does. Of a
field that is in two packets, the first byte was kept. -/
def MpaState.mpaLen (s : MpaState) : Option ℕ :=
  if s.fpdu.incompleteBytes = 0 then
    if s.pkt.tcpPayloadLen = 1 then none else some (ntohs (s.byte 0) (s.byte 1))
  else if s.fpdu.incompleteBytes = qedIwarpInvalidFpduLength then
    some (ntohs (s.mem s.fpdu.mpaFrag.buf s.fpdu.mpaFrag.off) (s.byte 0))
  else none

/-- The loop over the packet in `s` makes progress, with LL2 transmits that succeed. -/
structure MpaProgress (buffSize : BitVec 16) (s : MpaState) : Prop where
  ends : ∃ n ≤ s.pkt.tcpPayloadLen, 0 < n ∧
    (qedIwarpProcessMpaPkt buffSize (fun _ => .allOk) s n).Finished
  decreases : ∀ n, n = 0 ∨ ¬ (qedIwarpProcessMpaPkt buffSize (fun _ => .allOk) s n).Finished →
    (qedIwarpProcessMpaPkt buffSize (fun _ => .allOk) s (n + 1)).rc = .ok →
    (qedIwarpProcessMpaPkt buffSize (fun _ => .allOk) s (n + 1)).pkt.tcpPayloadLen <
      (qedIwarpProcessMpaPkt buffSize (fun _ => .allOk) s n).pkt.tcpPayloadLen
  lengths : ∀ n, n = 0 ∨ ¬ (qedIwarpProcessMpaPkt buffSize (fun _ => .allOk) s n).Finished →
    ∀ m, (qedIwarpProcessMpaPkt buffSize (fun _ => .allOk) s n).mpaLen = some m →
      8 ≤ (qedIwarpProcessMpaPkt buffSize (fun _ => .allOk) s (n + 1)).fpdu.fpduLength ∧
      (qedIwarpProcessMpaPkt buffSize (fun _ => .allOk) s (n + 1)).fpdu.fpduLength =
        fpduLenWithPad m

/-! ## The saved FPDU of a connection -/

/-- What is kept between packets: the FPDU, the buffers, and what was posted. -/
structure MpaConn where
  fpdu : IwarpFpdu
  mem : ℕ → ℕ → BitVec 8
  piggy : ℕ → Option ℕ
  txs : List TxPkt

def MpaConn.fresh (mem : ℕ → ℕ → BitVec 8) (piggy : ℕ → Option ℕ) : MpaConn :=
  ⟨.cleared, mem, piggy, []⟩

/-- A packet, with the contents of its buffer. The payload is inside the buffer. -/
structure MpaRx (buffSize : BitVec 16) where
  pkt : MpaBuf
  data : ℕ → BitVec 8
  inside : pkt.firstMpaOffset + pkt.tcpPayloadLen ≤ buffSize.toNat

def MpaRx.payload {buffSize : BitVec 16} (rx : MpaRx buffSize) : List (BitVec 8) :=
  slice rx.data rx.pkt.firstMpaOffset rx.pkt.tcpPayloadLen

/-- The packet is in its buffer, and the loop begins. -/
def MpaConn.deliver {buffSize : BitVec 16} (c : MpaConn) (rx : MpaRx buffSize) : MpaState :=
  ⟨c.fpdu, rx.pkt, update c.mem rx.pkt.ll2Buf rx.data, c.piggy, c.txs, .ok⟩

/-- The connection after a packet, with LL2 transmits that succeed. A loop that makes progress has
ended after as many turns. -/
def MpaConn.receive {buffSize : BitVec 16} (c : MpaConn) (rx : MpaRx buffSize) : MpaConn :=
  let s :=
    qedIwarpProcessMpaPkt buffSize (fun _ => .allOk) (c.deliver rx) (rx.pkt.tcpPayloadLen + 1)
  ⟨s.fpdu, s.mem, s.piggy, s.txs⟩

/-- LL2 hands a packet up in a buffer that was posted to it, which the one that is kept is not. -/
def MpaConn.Free {buffSize : BitVec 16} (c : MpaConn) (rx : MpaRx buffSize) : Prop :=
  c.fpdu.Partial → rx.pkt.ll2Buf ≠ c.fpdu.mpaBuf

/-- From the begin of an FPDU on, the MPA lengths that are read are at most 65526. The loop reads no
more lengths behind an FPDU that is not complete or has eight bytes. -/
def MpaFits (p : List (BitVec 8)) : Prop :=
  match p with
  | hi :: lo :: rest =>
    ntohs hi lo ≤ 65526 ∧
      (fpduLenWithPad (ntohs hi lo) ≤ rest.length + 2 → fpduLenWithPad (ntohs hi lo) ≠ 8 →
        MpaFits ((hi :: lo :: rest).drop (fpduLenWithPad (ntohs hi lo))))
  | _ => True
termination_by p.length
decreasing_by
  simp only [length_drop, length_cons, fpduLenWithPad]
  omega

/-- A payload with its MPA lengths, behind the part of an FPDU that was kept. -/
def IwarpFpdu.Fits (fpdu : IwarpFpdu) (mem : ℕ → ℕ → BitVec 8) (p : List (BitVec 8)) : Prop :=
  if fpdu.incompleteBytes = 0 then MpaFits p
  else if fpdu.incompleteBytes = qedIwarpInvalidFpduLength then
    ∀ lo ∈ p.head?, ntohs (mem fpdu.mpaFrag.buf fpdu.mpaFrag.off) lo ≤ 65526 ∧
        MpaFits (p.drop (fpduLenWithPad (ntohs (mem fpdu.mpaFrag.buf fpdu.mpaFrag.off) lo) - 1))
  else MpaFits (p.drop fpdu.incompleteBytes)

/-- The packet is not empty, and the MPA lengths that are read are at most 65526. -/
def MpaConn.Fits {buffSize : BitVec 16} (c : MpaConn) (rx : MpaRx buffSize) : Prop :=
  0 < rx.pkt.tcpPayloadLen ∧ c.fpdu.Fits c.mem rx.payload

/-! ## Arithmetic of the lengths -/

theorem eight_le_fpduLenWithPad (m : ℕ) : 8 ≤ fpduLenWithPad m := by
  unfold fpduLenWithPad
  omega

theorem fpduLenWithPad_lt {m : ℕ} : fpduLenWithPad m < 2 ^ 16 ↔ m ≤ 65526 := by
  unfold fpduLenWithPad
  omega

/-- The length field, put together from its bytes. -/
theorem ntohs_eq_or (hi lo : BitVec 8) : hi.toNat * 2 ^ 8 ||| lo.toNat = ntohs hi lo := by
  rw [ntohs, mul_comm]
  exact (two_pow_add_eq_or_of_lt lo.isLt hi.toNat).symm

/-- There is no length in less than two bytes. -/
theorem mpaFits_of_length_lt {p : List (BitVec 8)} (h : p.length < 2) : MpaFits p := by
  match p with
  | [] => simp [MpaFits]
  | [_] => simp [MpaFits]

theorem mpaFits_slice {m : ℕ → BitVec 8} {k n : ℕ} (hn : 2 ≤ n) :
    MpaFits (slice m k n) ↔ ntohs (m k) (m (k + 1)) ≤ 65526 ∧
      (fpduLenWithPad (ntohs (m k) (m (k + 1))) ≤ n → fpduLenWithPad (ntohs (m k) (m (k + 1))) ≠ 8 →
        MpaFits ((slice m k n).drop (fpduLenWithPad (ntohs (m k) (m (k + 1)))))) := by
  obtain ⟨n, rfl⟩ := Nat.exists_eq_add_of_le' hn
  rw [slice_succ, slice_succ, MpaFits]
  simp

/-! ## One turn -/

/-- What is known of the FPDU that was kept: it is in its buffer, and if only the first byte of the
length was there, this byte is in `fpdu_length`. -/
structure IwarpFpdu.Sane (fpdu : IwarpFpdu) (mem : ℕ → ℕ → BitVec 8) : Prop where
  buf : fpdu.Partial → fpdu.mpaFrag.buf = fpdu.mpaBuf
  high : fpdu.incompleteBytes = qedIwarpInvalidFpduLength →
    fpdu.fpduLength = (mem fpdu.mpaFrag.buf fpdu.mpaFrag.off).toNat * 2 ^ 8
  le : fpdu.incompleteBytes ≤ qedIwarpInvalidFpduLength

/-- The loop is about to take a turn. -/
structure MpaState.Ready (s : MpaState) : Prop where
  rc : s.rc = .ok
  pos : 0 < s.pkt.tcpPayloadLen
  inside : s.pkt.firstMpaOffset + s.pkt.tcpPayloadLen < 2 ^ 16
  sane : s.fpdu.Sane s.mem

def MpaState.Fits (s : MpaState) : Prop := s.fpdu.Fits s.mem s.payload

/-- What a turn does that hands an FPDU over: it is done with `k` bytes, and at the begin of an
FPDU. -/
structure MpaState.Advanced (s t : MpaState) (k : ℕ) : Prop where
  rc : t.rc = .ok
  mem : t.mem = s.mem
  buf : t.pkt.ll2Buf = s.pkt.ll2Buf
  len : t.pkt.tcpPayloadLen = s.pkt.tcpPayloadLen - k
  offset : t.pkt.firstMpaOffset = s.pkt.firstMpaOffset + k
  done : t.fpdu.incompleteBytes = 0
  le : k ≤ s.pkt.tcpPayloadLen

namespace MpaState

variable {s t : MpaState} {buffSize : BitVec 16} {k : ℕ}

section

variable (h : s.Advanced t k)

include h

theorem Advanced.payload : t.payload = s.payload.drop k := by
  rw [MpaState.payload, MpaState.payload, drop_slice h.le, h.mem, h.buf, h.offset, h.len]

theorem Advanced.fits_iff : t.Fits ↔ MpaFits (s.payload.drop k) := by
  rw [Fits, IwarpFpdu.Fits, if_pos h.done, h.payload]

theorem Advanced.sane : t.fpdu.Sane t.mem := by
  refine ⟨fun hp => absurd h.done hp, fun hi => ?_, by rw [h.done]; exact zero_le _⟩
  rw [h.done] at hi
  exact absurd hi (by decide)

theorem Advanced.ready (hs : s.Ready) (hfin : ¬ t.Finished) : t.Ready := by
  refine ⟨h.rc, pos_of_ne_zero fun h0 => hfin (.inl h0), ?_, h.sane⟩
  have := hs.inside
  rw [h.offset, h.len]
  have := h.le
  omega

end

/-- `advance` does not wrap inside of the payload. -/
theorem advance_pkt (hin : s.pkt.firstMpaOffset + s.pkt.tcpPayloadLen < 2 ^ 16)
    (hk : k ≤ s.pkt.tcpPayloadLen) :
    (s.advance k).pkt.tcpPayloadLen = s.pkt.tcpPayloadLen - k ∧
      (s.advance k).pkt.firstMpaOffset = s.pkt.firstMpaOffset + k :=
  ⟨sub_of_le_of_lt hk (by omega), mod_eq_of_lt (by omega)⟩

/-- Nothing is left to fit behind a turn that ends the loop. -/
theorem Advanced.fits_drop (h : s.Advanced t k) (hs : s.Ready)
    (hnext : ¬ t.Finished → t.Ready → t.Fits) : MpaFits (s.payload.drop k) := by
  by_cases hfin : t.Finished
  · have hzero : t.pkt.tcpPayloadLen = 0 := hfin.resolve_right (not_not.2 h.rc)
    refine mpaFits_of_length_lt ?_
    rw [← h.payload, MpaState.payload, length_slice, hzero]
    decide
  · exact h.fits_iff.1 (hnext hfin (h.ready hs hfin))

theorem keptFpdu_of_ne (hinc : s.fpdu.incompleteBytes ≠ qedIwarpInvalidFpduLength) :
    s.keptFpdu = s.fpdu := if_neg hinc

theorem keptFpdu_buf (s : MpaState) : s.keptFpdu.mpaBuf = s.fpdu.mpaBuf ∧
    s.keptFpdu.mpaFrag = s.fpdu.mpaFrag := by
  rw [keptFpdu, qedIwarpUpdateFpduLength]
  split <;> exact ⟨rfl, rfl⟩

/-- At the begin of an FPDU the length that is computed is right. -/
theorem fpduLen_of_fits (hinc : s.fpdu.incompleteBytes = 0) (hlen : 2 ≤ s.pkt.tcpPayloadLen)
    (hfit : s.Fits) :
    s.fpduLen = fpduLenWithPad (ntohs (s.byte 0) (s.byte 1)) ∧
      (s.fpduLen ≤ s.pkt.tcpPayloadLen → s.fpduLen ≠ 8 → MpaFits (s.payload.drop s.fpduLen)) := by
  rw [Fits, IwarpFpdu.Fits, if_pos hinc, payload, mpaFits_slice hlen] at hfit
  have hlen' : s.fpduLen = fpduLenWithPad (ntohs (s.byte 0) (s.byte 1)) :=
    mod_eq_of_lt (fpduLenWithPad_lt.2 hfit.1)
  rw [hlen']
  exact ⟨rfl, hfit.2⟩

section

variable (hs : s.Ready)

include hs

/-- The first byte of the length was there. -/
theorem Ready.keptFpdu_of_invalid (hinc : s.fpdu.incompleteBytes = qedIwarpInvalidFpduLength) :
    s.keptFpdu.fpduLength =
        fpduLenWithPad (ntohs (s.mem s.fpdu.mpaFrag.buf s.fpdu.mpaFrag.off) (s.byte 0)) % 2 ^ 16 ∧
      s.keptFpdu.incompleteBytes = Word.sub 16 s.keptFpdu.fpduLength 1 := by
  rw [keptFpdu, qedIwarpUpdateFpduLength, if_pos hinc, hs.sane.high hinc, ntohs_eq_or]
  exact ⟨rfl, rfl⟩

theorem Ready.head_payload : s.payload.head? = some (s.byte 0) := by
  obtain ⟨n, hn⟩ := exists_eq_succ_of_ne_zero hs.pos.ne'
  rw [payload, hn, slice_succ]
  rfl

/-- The part that is missing of the FPDU that was kept. -/
theorem Ready.kept_of_fits (hinc : s.fpdu.Partial) (hfit : s.Fits) :
    0 < s.keptFpdu.incompleteBytes ∧ s.keptFpdu.incompleteBytes < qedIwarpInvalidFpduLength ∧
      MpaFits (s.payload.drop s.keptFpdu.incompleteBytes) ∧
      ∀ m, s.mpaLen = some m → s.keptFpdu.fpduLength = fpduLenWithPad m := by
  have hinc0 := hinc
  rw [Fits, IwarpFpdu.Fits, if_neg hinc0] at hfit
  rw [mpaLen, if_neg hinc0]
  by_cases hinv : s.fpdu.incompleteBytes = qedIwarpInvalidFpduLength
  · rw [if_pos hinv] at hfit ⊢
    obtain ⟨hm, hrest⟩ := hfit _ hs.head_payload
    obtain ⟨hlen, hsub⟩ := hs.keptFpdu_of_invalid hinv
    have hpad := fpduLenWithPad_lt.2 hm
    have h8 := eight_le_fpduLenWithPad
      (ntohs (s.mem s.fpdu.mpaFrag.buf s.fpdu.mpaFrag.off) (s.byte 0))
    rw [mod_eq_of_lt hpad] at hlen
    rw [hsub, hlen, sub_of_le_of_lt (by omega) hpad, qedIwarpInvalidFpduLength]
    exact ⟨by omega, by omega, hrest, fun m hmm => by rw [← some.inj hmm]⟩
  · rw [if_neg hinv] at hfit ⊢
    rw [keptFpdu_of_ne hinv]
    exact ⟨pos_of_ne_zero hinc0, lt_of_le_of_ne hs.sane.le hinv, hfit, nofun⟩

variable (ht : s.turn buffSize .allOk = t)

include ht

/-- The last byte of a packet is the first one of a length. -/
theorem Ready.turn_one (hinc : s.fpdu.incompleteBytes = 0) (hlen : s.pkt.tcpPayloadLen = 1) :
    t.pkt.tcpPayloadLen = 0 ∧ t.fpdu.Sane t.mem := by
  rw [← ht, turn_of_one hinc hlen]
  obtain ⟨hfpdu, hmem, hzero, -⟩ := partialTurn_allOk
    (s := { s with fpdu := { s.fpdu with fpduLength := (s.byte 0).toNat * 2 ^ 8 } }) hs.rc
  refine ⟨hzero, ?_⟩
  rw [hfpdu, hmem]
  refine ⟨fun _ => rfl, fun _ => rfl, ?_⟩
  simp only [qedIwarpInitFpdu, hlen, if_true]
  exact le_rfl

theorem Ready.turn_short (hinc : s.fpdu.incompleteBytes = 0)
    (hlen : s.pkt.tcpPayloadLen ≠ 1) (hlt : s.pkt.tcpPayloadLen < s.fpduLen) :
    t.pkt.tcpPayloadLen = 0 ∧ t.fpdu.fpduLength = s.fpduLen ∧ t.fpdu.Sane t.mem := by
  rw [← ht, turn_of_part hinc hlen hlt]
  obtain ⟨hfpdu, hmem, hzero, -⟩ := partialTurn_allOk
    (s := { s with fpdu := { s.fpdu with fpduLength := s.fpduLen } }) hs.rc
  have hpos := hs.pos
  have hbound : s.fpduLen < 2 ^ 16 := mod_lt _ (by decide)
  have hinc' : (qedIwarpInitFpdu s.pkt { s.fpdu with fpduLength := s.fpduLen }).incompleteBytes =
      s.fpduLen - s.pkt.tcpPayloadLen := by
    simp only [qedIwarpInitFpdu, if_neg hlen, if_pos hlt]
  refine ⟨hzero, by rw [hfpdu]; rfl, ?_⟩
  rw [hfpdu]
  refine ⟨fun _ => rfl, fun h => ?_, ?_⟩
  · rw [hinc', qedIwarpInvalidFpduLength] at h
    omega
  · rw [hinc', qedIwarpInvalidFpduLength]
    omega

/-- An FPDU of eight bytes ends the packet. -/
theorem Ready.turn_eight (hinc : s.fpdu.incompleteBytes = 0)
    (hlen : s.pkt.tcpPayloadLen ≠ 1) (hle : s.fpduLen ≤ s.pkt.tcpPayloadLen) (h8 : s.fpduLen = 8) :
    t.pkt.tcpPayloadLen = 0 ∧ t.fpdu.fpduLength = s.fpduLen ∧ t.fpdu.Sane t.mem := by
  rw [← ht, turn_of_packed hinc hlen hle, packedTurn, if_pos h8]
  refine ⟨rfl, rfl, fun h => absurd hinc h, fun h => ?_, hs.sane.le⟩
  have : s.fpdu.incompleteBytes = qedIwarpInvalidFpduLength := h
  rw [hinc] at this
  exact absurd this (by decide)

theorem Ready.turn_packed (hinc : s.fpdu.incompleteBytes = 0)
    (hlen : s.pkt.tcpPayloadLen ≠ 1) (hle : s.fpduLen ≤ s.pkt.tcpPayloadLen) (h8 : s.fpduLen ≠ 8) :
    s.Advanced t s.fpduLen ∧ t.fpdu.fpduLength = s.fpduLen := by
  rw [← ht, turn_of_packed hinc hlen hle, packedTurn_allOk h8]
  obtain ⟨hlen', hoff⟩ := advance_pkt hs.inside hle
  refine ⟨⟨rfl, rfl, rfl, hlen', hoff, ?_, hle⟩, rfl⟩
  change (qedIwarpInitFpdu s.pkt { s.fpdu with fpduLength := s.fpduLen }).incompleteBytes = 0
  simp only [qedIwarpInitFpdu, if_neg hlen, if_neg (not_lt.2 hle)]

theorem Ready.turn_tail (hinc : s.fpdu.Partial)
    (hle : s.keptFpdu.incompleteBytes ≤ s.pkt.tcpPayloadLen) :
    s.Advanced t s.keptFpdu.incompleteBytes ∧ t.fpdu.fpduLength = s.keptFpdu.fpduLength := by
  rw [← ht, turn_of_unaligned hinc, if_neg (not_lt.2 hle)]
  obtain ⟨hlen, hoff⟩ := advance_pkt hs.inside hle
  exact ⟨⟨rfl, rfl, rfl, hlen, hoff, rfl, hle⟩, rfl⟩

/-- A packet within an FPDU: it is added to what was kept, or there is an error. -/
theorem Ready.turn_split (hinc : s.fpdu.Partial)
    (hlt : s.pkt.tcpPayloadLen < s.keptFpdu.incompleteBytes) :
    (t.rc = .error ∧ t.fpdu = s.keptFpdu ∧ t.mem = s.mem) ∨
    (t.rc = .ok ∧ t.pkt.tcpPayloadLen = 0 ∧ t.fpdu = s.keptFpdu.appended s.pkt) := by
  rw [← ht, turn_of_unaligned hinc, if_pos hlt]
  rcases lt_or_ge buffSize.toNat (s.keptFpdu.mpaFragLen + s.pkt.tcpPayloadLen) with h | h
  · exact .inl (splitTurn_allOk_of_lt hs.rc h)
  · obtain ⟨t, -, hturn⟩ := splitTurn_allOk_of_le (s := { s with fpdu := s.keptFpdu }) hs.rc h
    rw [hturn]
    exact .inr ⟨rfl, rfl, rfl⟩

/-- What a turn leaves as the length of the FPDU that was kept. -/
theorem Ready.turn_keptFpdu (hinc : s.fpdu.Partial) :
    t.fpdu.fpduLength = s.keptFpdu.fpduLength := by
  rcases lt_or_ge s.pkt.tcpPayloadLen s.keptFpdu.incompleteBytes with hlt | hle
  · rcases hs.turn_split ht hinc hlt with ⟨-, hfpdu, -⟩ | ⟨-, -, hfpdu⟩
    · rw [hfpdu]
    · rw [hfpdu]
      rfl
  · exact (hs.turn_tail ht hinc hle).2

/-- **A turn with lengths that fit** gets on, computes the right length, and leaves lengths that
fit. -/
theorem Ready.turn_fits (hfit : s.Fits) :
    (t.rc = .ok → t.pkt.tcpPayloadLen < s.pkt.tcpPayloadLen) ∧
    (∀ m, s.mpaLen = some m → 8 ≤ t.fpdu.fpduLength ∧ t.fpdu.fpduLength = fpduLenWithPad m) ∧
    t.fpdu.Sane t.mem ∧ (¬ t.Finished → t.Ready ∧ t.Fits) := by
  have hpos := hs.pos
  by_cases hinc : s.fpdu.incompleteBytes = 0
  · by_cases hone : s.pkt.tcpPayloadLen = 1
    · obtain ⟨hzero, hsane⟩ := hs.turn_one ht hinc hone
      refine ⟨fun _ => by omega, fun m hm => ?_, hsane, fun h => absurd (.inl hzero) h⟩
      rw [mpaLen, if_pos hinc, if_pos hone] at hm
      cases hm
    · obtain ⟨hlen, hrest⟩ := fpduLen_of_fits hinc (by omega) hfit
      have h8 := eight_le_fpduLenWithPad (ntohs (s.byte 0) (s.byte 1))
      -- what is left to show of the length in each case
      have hmpa : t.fpdu.fpduLength = s.fpduLen → ∀ m, s.mpaLen = some m →
          8 ≤ t.fpdu.fpduLength ∧ t.fpdu.fpduLength = fpduLenWithPad m := by
        intro hturn m hm
        rw [mpaLen, if_pos hinc, if_neg hone] at hm
        rw [hturn, hlen, ← some.inj hm]
        exact ⟨h8, rfl⟩
      rcases lt_or_ge s.pkt.tcpPayloadLen s.fpduLen with hlt | hle
      · obtain ⟨hzero, hturn, hsane⟩ := hs.turn_short ht hinc hone hlt
        exact ⟨fun _ => by omega, hmpa hturn, hsane, fun h => absurd (.inl hzero) h⟩
      · by_cases height : s.fpduLen = 8
        · obtain ⟨hzero, hturn, hsane⟩ := hs.turn_eight ht hinc hone hle height
          exact ⟨fun _ => by omega, hmpa hturn, hsane, fun h => absurd (.inl hzero) h⟩
        · obtain ⟨hadv, hturn⟩ := hs.turn_packed ht hinc hone hle height
          refine ⟨fun _ => ?_, hmpa hturn, hadv.sane, fun h => ⟨hadv.ready hs h, ?_⟩⟩
          · rw [hadv.len]
            omega
          · exact hadv.fits_iff.2 (hrest hle height)
  · obtain ⟨hkpos, hklt, hrest, hklen⟩ := hs.kept_of_fits hinc hfit
    have hmpa : ∀ m, s.mpaLen = some m → 8 ≤ t.fpdu.fpduLength ∧
        t.fpdu.fpduLength = fpduLenWithPad m := by
      intro m hm
      rw [hs.turn_keptFpdu ht hinc, hklen m hm]
      exact ⟨eight_le_fpduLenWithPad m, rfl⟩
    refine ⟨?_, hmpa, ?_⟩ <;>
      rcases lt_or_ge s.pkt.tcpPayloadLen s.keptFpdu.incompleteBytes with hlt | hle
    · rcases hs.turn_split ht hinc hlt with ⟨hrc, -, -⟩ | ⟨-, hzero, -⟩
      · rw [hrc]
        exact nofun
      · exact fun _ => by omega
    · rw [(hs.turn_tail ht hinc hle).1.len]
      exact fun _ => by omega
    · obtain ⟨hbuf, hfrag⟩ := keptFpdu_buf s
      rcases hs.turn_split ht hinc hlt with ⟨hrc, hfpdu, -⟩ | ⟨-, hzero, hfpdu⟩
      · refine ⟨?_, fun h => absurd (.inr (by rw [hrc]; decide)) h⟩
        rw [hfpdu]
        refine ⟨fun _ => ?_, fun h => absurd h hklt.ne, hklt.le⟩
        rw [hbuf, hfrag]
        exact hs.sane.buf hinc
      · refine ⟨?_, fun h => absurd (.inl hzero) h⟩
        have hsub : (s.keptFpdu.appended s.pkt).incompleteBytes =
            s.keptFpdu.incompleteBytes - s.pkt.tcpPayloadLen :=
          sub_of_le_of_lt hlt.le (by rw [qedIwarpInvalidFpduLength] at hklt; omega)
        rw [hfpdu]
        refine ⟨fun _ => rfl, fun h => ?_, ?_⟩
        · rw [hsub] at h
          omega
        · rw [hsub]
          omega
    · have hadv := (hs.turn_tail ht hinc hle).1
      exact ⟨hadv.sane, fun h => ⟨hadv.ready hs h, hadv.fits_iff.2 hrest⟩⟩

/-- **The converse**: if a turn computes the right length, and what it leaves fits, the lengths fit.
-/
theorem Ready.fits_of_turn
    (hlen : ∀ m, s.mpaLen = some m → t.fpdu.fpduLength = fpduLenWithPad m)
    (hnext : ¬ t.Finished → t.Ready → t.Fits) : s.Fits := by
  have hpos := hs.pos
  -- a padded length that is the same in 16 bits belongs to a length that fits
  have hle16 : ∀ m, fpduLenWithPad m % 2 ^ 16 = fpduLenWithPad m → m ≤ 65526 := fun m hm =>
    fpduLenWithPad_lt.1 (hm ▸ mod_lt _ (by decide))
  by_cases hinc : s.fpdu.incompleteBytes = 0
  · rw [Fits, IwarpFpdu.Fits, if_pos hinc]
    by_cases hone : s.pkt.tcpPayloadLen = 1
    · exact mpaFits_of_length_lt (by rw [payload, length_slice, hone]; decide)
    · have hmpa : s.mpaLen = some (ntohs (s.byte 0) (s.byte 1)) := by
        rw [mpaLen, if_pos hinc, if_neg hone]
      rw [payload, mpaFits_slice (by omega)]
      have hturn : t.fpdu.fpduLength = s.fpduLen := by
        rcases lt_or_ge s.pkt.tcpPayloadLen s.fpduLen with hlt | hle
        · exact (hs.turn_short ht hinc hone hlt).2.1
        · by_cases height : s.fpduLen = 8
          · exact (hs.turn_eight ht hinc hone hle height).2.1
          · exact (hs.turn_packed ht hinc hone hle height).2
      have heq := hturn.symm.trans (hlen _ hmpa)
      refine ⟨hle16 _ heq, fun hle h8 => ?_⟩
      have hadv := (hs.turn_packed ht hinc hone (heq.trans_le hle)
        (heq.trans_ne h8)).1
      rw [heq] at hadv
      exact hadv.fits_drop hs hnext
  · have hdrop : MpaFits (s.payload.drop s.keptFpdu.incompleteBytes) := by
      rcases lt_or_ge s.pkt.tcpPayloadLen s.keptFpdu.incompleteBytes with hlt | hle
      · refine mpaFits_of_length_lt ?_
        rw [length_drop, payload, length_slice]
        omega
      · exact (hs.turn_tail ht hinc hle).1.fits_drop hs hnext
    rw [Fits, IwarpFpdu.Fits, if_neg hinc]
    split
    · rename_i hinv
      intro lo hlo
      rw [hs.head_payload] at hlo
      obtain rfl := some.inj hlo
      obtain ⟨hklen, hksub⟩ := hs.keptFpdu_of_invalid hinv
      have hmpa : s.mpaLen =
          some (ntohs (s.mem s.fpdu.mpaFrag.buf s.fpdu.mpaFrag.off) (s.byte 0)) := by
        rw [mpaLen, if_neg hinc, if_pos hinv]
      have heq := (hs.turn_keptFpdu ht hinc).symm.trans (hlen _ hmpa)
      have hm := hle16 _ (hklen.symm.trans heq)
      have h8 := eight_le_fpduLenWithPad
        (ntohs (s.mem s.fpdu.mpaFrag.buf s.fpdu.mpaFrag.off) (s.byte 0))
      rw [hksub, heq, sub_of_le_of_lt (by omega) (fpduLenWithPad_lt.2 hm)] at hdrop
      exact ⟨hm, hdrop⟩
    · rename_i hinv
      rwa [keptFpdu_of_ne hinv] at hdrop

end

/-! ## The whole loop -/

section

variable {r : ℕ → MpaState} (hr : qedIwarpProcessMpaPkt buffSize (fun _ => .allOk) s = r) {n : ℕ}

include hr

theorem loop_succ (hn : n = 0 ∨ ¬ (r n).Finished) : r (n + 1) = (r n).turn buffSize .allOk := by
  subst hr
  exact doRun_succ hn

theorem loop_of_fin (hn : ¬ (n = 0 ∨ ¬ (r n).Finished)) : r (n + 1) = r n := by
  subst hr
  push Not at hn
  exact doRun_of_fin (pos_of_ne_zero hn.1) hn.2 n.le_succ

theorem loop_succ_left (hfin : ¬ (s.turn buffSize .allOk).Finished) :
    qedIwarpProcessMpaPkt buffSize (fun _ => .allOk) (s.turn buffSize .allOk) =
      fun n => r (n + 1) := by
  subst hr
  exact funext fun n => (doRun_succ_left _ hfin n).symm

variable (hs : s.Ready)

include hs

/-- Lengths that fit stay so, wherever a turn is taken. -/
theorem Ready.executed (hfit : s.Fits) (n : ℕ) (hn : n = 0 ∨ ¬ (r n).Finished) :
    (r n).Ready ∧ (r n).Fits := by
  induction n with
  | zero =>
    subst hr
    exact ⟨hs, hfit⟩
  | succ n ih =>
    have hfin := hn.resolve_left (succ_ne_zero n)
    have hexec : n = 0 ∨ ¬ (r n).Finished := by
      by_contra h
      rw [loop_of_fin hr h] at hfin
      exact h (.inr hfin)
    obtain ⟨hready, hf⟩ := ih hexec
    exact (hready.turn_fits (loop_succ hr hexec).symm hf).2.2.2 hfin

theorem Ready.sane_process (hfit : s.Fits) (n : ℕ) : (r n).fpdu.Sane (r n).mem := by
  induction n with
  | zero =>
    subst hr
    exact hs.sane
  | succ n ih =>
    by_cases hexec : n = 0 ∨ ¬ (r n).Finished
    · obtain ⟨hready, hf⟩ := hs.executed hr hfit n hexec
      exact (hready.turn_fits (loop_succ hr hexec).symm hf).2.2.1
    · rw [loop_of_fin hr hexec]
      exact ih

/-- The number of turns is at most the number of bytes. -/
theorem Ready.ends (hfit : s.Fits) : ∃ n ≤ s.pkt.tcpPayloadLen, 0 < n ∧ (r n).Finished := by
  generalize hlen : s.pkt.tcpPayloadLen = len
  induction len using Nat.strong_induction_on generalizing s r with
  | h len ih =>
    obtain ⟨hdec, -, -, hnext⟩ := hs.turn_fits rfl hfit
    by_cases hfin : (s.turn buffSize .allOk).Finished
    · refine ⟨1, by rw [← hlen]; exact hs.pos, one_pos, ?_⟩
      subst hr
      exact hfin
    · obtain ⟨hready, hf⟩ := hnext hfin
      have hlt := hdec hready.rc
      obtain ⟨n, hn, -, hend⟩ := ih _ (hlen ▸ hlt) (loop_succ_left hr hfin) hready hf rfl
      exact ⟨n + 1, by omega, n.succ_pos, hend⟩

/-- If every turn of the loop gets on and computes the right length, the lengths fit. -/
theorem Ready.fits_of_progress
    (hdec : ∀ n, n = 0 ∨ ¬ (r n).Finished → (r (n + 1)).rc = .ok →
      (r (n + 1)).pkt.tcpPayloadLen < (r n).pkt.tcpPayloadLen)
    (hlen : ∀ n, n = 0 ∨ ¬ (r n).Finished → ∀ m, (r n).mpaLen = some m →
      8 ≤ (r (n + 1)).fpdu.fpduLength ∧ (r (n + 1)).fpdu.fpduLength = fpduLenWithPad m) :
    s.Fits := by
  generalize hk : s.pkt.tcpPayloadLen = k
  induction k using Nat.strong_induction_on generalizing s r with
  | h k ih =>
    have hrest := loop_succ_left hr
    subst hr
    refine hs.fits_of_turn rfl (fun m hm => (hlen 0 (.inl rfl) m hm).2) fun hfin hready => ?_
    -- the turns of the rest of the loop are turns of the loop
    have hexec : ∀ n, n = 0 ∨
        ¬ (qedIwarpProcessMpaPkt buffSize (fun _ => .allOk) s (n + 1)).Finished →
        n + 1 = 0 ∨ ¬ (qedIwarpProcessMpaPkt buffSize (fun _ => .allOk) s (n + 1)).Finished := by
      rintro n (rfl | hn)
      · exact .inr hfin
      · exact .inr hn
    exact ih _ (hk ▸ hdec 0 (.inl rfl) hready.rc) (hrest hfin) hready
      (fun n hn => hdec (n + 1) (hexec n hn)) (fun n hn => hlen (n + 1) (hexec n hn)) rfl

end

theorem Ready.progress (hs : s.Ready) (hfit : s.Fits) (buffSize : BitVec 16) :
    MpaProgress buffSize s := by
  refine ⟨hs.ends rfl hfit, fun n hexec hrc => ?_, fun n hexec m hm => ?_⟩
  · obtain ⟨hready, hf⟩ := hs.executed rfl hfit n hexec
    exact (hready.turn_fits (loop_succ rfl hexec).symm hf).1 hrc
  · obtain ⟨hready, hf⟩ := hs.executed rfl hfit n hexec
    exact (hready.turn_fits (loop_succ rfl hexec).symm hf).2.1 m hm

end MpaState

/-! ## All packets of a connection -/

section Conn

variable {buffSize : BitVec 16} {c : MpaConn} {rx : MpaRx buffSize}

/-- The buffer of the packet is not the one that is kept, so what is kept stays in memory. -/
theorem MpaConn.mem_deliver (hsane : c.fpdu.Sane c.mem) (hfree : c.Free rx)
    (hinc : c.fpdu.Partial) :
    (c.deliver rx).mem c.fpdu.mpaFrag.buf = c.mem c.fpdu.mpaFrag.buf := by
  refine update_of_ne ?_ _ _
  rw [hsane.buf hinc]
  exact (hfree hinc).symm

theorem MpaConn.ready_deliver (hsane : c.fpdu.Sane c.mem) (hfree : c.Free rx)
    (hpos : 0 < rx.pkt.tcpPayloadLen) : (c.deliver rx).Ready := by
  refine ⟨rfl, hpos, rx.inside.trans_lt buffSize.isLt, hsane.buf, fun h => ?_, hsane.le⟩
  have hinc : c.fpdu.Partial := fun h0 => by
    have : c.fpdu.incompleteBytes = qedIwarpInvalidFpduLength := h
    rw [h0] at this
    exact absurd this (by decide)
  change c.fpdu.fpduLength =
    ((c.deliver rx).mem c.fpdu.mpaFrag.buf c.fpdu.mpaFrag.off).toNat * 2 ^ 8
  rw [mem_deliver hsane hfree hinc]
  exact hsane.high h

theorem MpaConn.payload_deliver (c : MpaConn) (rx : MpaRx buffSize) :
    (c.deliver rx).payload = rx.payload := by
  exact congrArg (slice · _ _) (update_self ..)

theorem MpaConn.fits_deliver (hsane : c.fpdu.Sane c.mem) (hfree : c.Free rx) :
    (c.deliver rx).Fits ↔ c.fpdu.Fits c.mem rx.payload := by
  rw [MpaState.Fits, payload_deliver]
  change c.fpdu.Fits (c.deliver rx).mem _ ↔ _
  unfold IwarpFpdu.Fits
  split
  · rfl
  · rename_i hinc
    rw [mem_deliver hsane hfree hinc]

theorem MpaConn.fresh_sane (mem : ℕ → ℕ → BitVec 8) (piggy : ℕ → Option ℕ) :
    (fresh mem piggy).fpdu.Sane (fresh mem piggy).mem :=
  ⟨fun h => absurd rfl h, nofun, zero_le _⟩

/-- **Progress of the MPA loop.** After packets of a connection that are not empty and whose MPA
lengths are at most 65526, the loop makes progress for the packets of this kind, and for no other.
-/
theorem mpaProgress_iff (mem : ℕ → ℕ → BitVec 8) (piggy : ℕ → Option ℕ) (l : List (MpaRx buffSize))
    (hl : Run.Meets (fun c rx => MpaConn.Free c rx ∧ MpaConn.Fits c rx) MpaConn.receive
      (.fresh mem piggy) l)
    (rx : MpaRx buffSize) (hfree : (l.foldl MpaConn.receive (.fresh mem piggy)).Free rx) :
    MpaProgress buffSize ((l.foldl MpaConn.receive (.fresh mem piggy)).deliver rx) ↔
      (l.foldl MpaConn.receive (.fresh mem piggy)).Fits rx := by
  have hsane := by
    refine Run.Meets.invariant (P := fun c : MpaConn => c.fpdu.Sane c.mem) ?_
      (MpaConn.fresh_sane mem piggy) hl
    rintro c rx hsane ⟨hfree, hpos, hfit⟩
    exact (MpaConn.ready_deliver hsane hfree hpos).sane_process rfl
      ((MpaConn.fits_deliver hsane hfree).2 hfit) _
  constructor
  · intro h
    have hpos : 0 < rx.pkt.tcpPayloadLen := by
      obtain ⟨n, hn, hn0, -⟩ := h.ends
      exact hn0.trans_le hn
    refine ⟨hpos, (MpaConn.fits_deliver hsane hfree).1 ?_⟩
    exact (MpaConn.ready_deliver hsane hfree hpos).fits_of_progress rfl h.decreases h.lengths
  · rintro ⟨hpos, hfit⟩
    exact (MpaConn.ready_deliver hsane hfree hpos).progress
      ((MpaConn.fits_deliver hsane hfree).2 hfit) buffSize

end Conn

/-! ## Two bytes of length -/

/-- A packet of bytes in a buffer, behind a header of 54 bytes. -/
def mpaRxOf (buf : ℕ) (p : List (BitVec 8)) (h : 54 + p.length ≤ 1600) : MpaRx 1600 :=
  ⟨⟨buf, 54, 54, false, 0, p.length, 0⟩, fun i => p.getD (i - 54) 0, h⟩

/-- The first byte of a length in one packet, the second one in the next. -/
theorem mpaProgress_oneByte :
    MpaProgress 1600 ((MpaConn.fresh (fun _ _ => 0) fun _ => none).receive
      (mpaRxOf 0 [0] (by decide)) |>.deliver (mpaRxOf 1 [5] (by decide))) := by
  have hfit : ∀ c : MpaConn, ∀ buf b, c.fpdu.incompleteBytes = 0 →
      c.Fits (mpaRxOf buf [b] (by simp)) := by
    intro c buf b hinc
    refine ⟨one_pos, ?_⟩
    rw [Fits, if_pos hinc]
    exact mpaFits_of_length_lt (by simp [mpaRxOf, MpaRx.payload])
  refine (mpaProgress_iff _ _ [mpaRxOf 0 [0] (by decide)]
    ⟨⟨fun h => absurd rfl h, hfit _ _ _ rfl⟩, trivial⟩ _ (fun _ => by decide)).2 ⟨by decide, ?_⟩
  rw [Fits, if_neg (by decide), if_pos (by decide)]
  intro lo hlo
  obtain rfl : (5 : BitVec 8) = lo := by simpa [mpaRxOf, MpaRx.payload, slice] using hlo
  exact ⟨by decide, mpaFits_of_length_lt (by decide)⟩

/-- An MPA length of 65527: the loop never ends. -/
theorem not_mpaProgress_65527 :
    ¬ ∃ n, (qedIwarpProcessMpaPkt 1600 (fun _ => .allOk)
      ((MpaConn.fresh (fun _ _ => 0) fun _ => none).deliver (mpaRxOf 0 [0xff, 0xf7] (by decide)))
      n).Finished := by
  -- no turn gets on, since the length that is computed is 0
  let Stuck (t : MpaState) : Prop := t.Ready ∧ t.fpdu.incompleteBytes = 0 ∧
    t.pkt.tcpPayloadLen = 2 ∧ t.byte 0 = 0xff ∧ t.byte 1 = 0xf7
  have hfin : ∀ t, Stuck t → ¬ t.Finished := by
    rintro t ⟨hr, -, hlen, -⟩ (h | h)
    · omega
    · exact h hr.rc
  have hturn : ∀ t, Stuck t → Stuck (t.turn 1600 .allOk) := by
    rintro t ⟨hr, hinc, hlen, hb₀, hb₁⟩
    have h0 : t.fpduLen = 0 := by
      rw [MpaState.fpduLen, hb₀, hb₁]
      decide
    obtain ⟨hadv, -⟩ := hr.turn_packed (t := t.turn 1600 .allOk) rfl hinc (by omega) (by omega)
      (by omega)
    rw [h0] at hadv
    have hbyte : ∀ i, (t.turn 1600 .allOk).byte i = t.byte i := fun i => by
      simp only [MpaState.byte, hadv.mem, hadv.buf, hadv.offset, add_zero]
    have hlen' : (t.turn 1600 .allOk).pkt.tcpPayloadLen = 2 := hadv.len.trans hlen
    refine ⟨hadv.ready hr ?_, hadv.done, hlen', (hbyte 0).trans hb₀, (hbyte 1).trans hb₁⟩
    rintro (h | h)
    · omega
    · exact h hadv.rc
  have hall : ∀ n, Stuck (qedIwarpProcessMpaPkt 1600 (fun _ => .allOk)
      ((MpaConn.fresh (fun _ _ => 0) fun _ => none).deliver (mpaRxOf 0 [0xff, 0xf7] (by decide)))
      n) := by
    intro n
    induction n with
    | zero =>
      exact ⟨MpaConn.ready_deliver (MpaConn.fresh_sane _ _) (fun h => absurd rfl h) (by decide),
        rfl,
        rfl, rfl, rfl⟩
    | succ n ih =>
      rw [qedIwarpProcessMpaPkt, doRun_succ (.inr (hfin _ ih))]
      exact hturn _ ih
  rintro ⟨n, hn⟩
  exact hfin _ (hall n) hn

end FastLinQ.Qed
