import FastLinQ.Qed.Iwarp.Progress

/-!
# The FPDUs of a stream are handed over

`reassembly_faithful`: however a stream of FPDUs is cut into packets, the loop hands over its FPDUs,
in order and each once. The invariant is `MpaConn.Follows`: the FPDUs that were handed over, and the
part that is kept of the next one, are what has come so far.
-/

namespace FastLinQ.Qed

open List Word MpaConn Nat MpaRx IwarpFpdu

/-! ## Streams -/

/-- The MPA length of an FPDU. -/
def mpaLenOf (f : List (BitVec 8)) : ℕ := ntohs (f.getD 0 0) (f.getD 1 0)

/-- An FPDU has an MPA length of 1 to 65526 and its padded length, which is not 8. -/
structure IsFpdu (f : List (BitVec 8)) : Prop where
  one_le : 1 ≤ mpaLenOf f
  le : mpaLenOf f ≤ 65526
  length : f.length = fpduLenWithPad (mpaLenOf f)
  ne_eight : f.length ≠ 8

/-- The FPDUs that were handed to the firmware by `qed_iwarp_send_fpdu`. -/
def handed (txs : List TxPkt) : List (List (BitVec 8)) :=
  (txs.filter fun p => p.queue == some .aligned).map TxPkt.data

section

variable {f : List (BitVec 8)}

theorem IsFpdu.twelve_le (h : IsFpdu f) : 12 ≤ f.length := by
  have := h.length
  have := h.ne_eight
  unfold fpduLenWithPad at *
  omega

theorem IsFpdu.lt (h : IsFpdu f) : f.length < 2 ^ 16 := by
  rw [h.length]
  exact fpduLenWithPad_lt.2 h.le

theorem handed_append_of_aligned (txs : List TxPkt) {p : TxPkt} (h : p.queue = some .aligned) :
    handed (txs ++ [p]) = handed txs ++ [p.data] := by
  simp [handed, filter_append, h]

theorem handed_append_of_ne (txs : List TxPkt) {p : TxPkt} (h : p.queue ≠ some .aligned) :
    handed (txs ++ [p]) = handed txs := by
  simp [handed, filter_append, h]

/-- Of two ways to cut a stream, the first one cuts no later. -/
theorem exists_append_of_le {a b r : List (BitVec 8)} (h : f ++ r = a ++ b)
    (hle : f.length ≤ a.length) : ∃ c, a = f ++ c ∧ r = c ++ b := by
  rcases append_eq_append_iff.1 h with h | ⟨c, rfl, rfl⟩
  · exact h
  · rw [length_append] at hle
    obtain rfl : c = [] := eq_nil_of_length_eq_zero (by omega)
    exact ⟨[], by simp, by simp⟩

theorem getD_eq_of_append {a b r : List (BitVec 8)} (h : f ++ r = a ++ b) {i : ℕ}
    (hf : i < f.length) (ha : i < a.length) : f.getD i 0 = a.getD i 0 := by
  rw [← getD_append f r 0 i hf, h, getD_append a b 0 i ha]

end

/-! ## What one turn hands over -/

namespace MpaState

variable {s : MpaState} {buffSize : BitVec 16}

theorem handed_winRightEdge (s : MpaState) :
    handed (qedIwarpWinRightEdge s .ok).txs = handed s.txs :=
  handed_append_of_ne s.txs nofun

theorem handed_partialTurn (s : MpaState) : handed (s.partialTurn .allOk).txs = handed s.txs := by
  cases hedge : s.pkt.rightEdge with
  | false => simp [partialTurn, hedge, drain]
  | true =>
    simp only [partialTurn, hedge, if_true]
    exact handed_winRightEdge { s with fpdu := qedIwarpInitFpdu s.pkt s.fpdu }

theorem handed_splitTurn (hrc : s.rc = .ok)
    (hle : s.fpdu.mpaFragLen + s.pkt.tcpPayloadLen ≤ buffSize.toNat) :
    handed (s.splitTurn buffSize .allOk).txs = handed s.txs := by
  obtain ⟨t, ht, hturn⟩ := splitTurn_allOk_of_le hrc hle
  have hdrop : handed (qedIwarpRecyclePkt t s.fpdu.mpaBuf .ok).txs = handed t.txs :=
    handed_append_of_ne t.txs nofun
  rw [hturn]
  refine hdrop.trans ?_
  rcases ht with rfl | rfl
  · rfl
  · exact handed_winRightEdge s

/-- What the packet of a whole FPDU holds. -/
theorem handed_packedTurn (h8 : s.fpdu.fpduLength ≠ 8) (hone : s.pkt.tcpPayloadLen ≠ 1)
    (hle : s.fpdu.fpduLength ≤ s.pkt.tcpPayloadLen) (hlt : s.fpdu.fpduLength < 2 ^ 16) :
    handed (s.packedTurn .allOk).txs = handed s.txs ++ [s.payload.take s.fpdu.fpduLength] := by
  have hinc : (qedIwarpInitFpdu s.pkt s.fpdu).incompleteBytes = 0 := by
    simp [qedIwarpInitFpdu, if_neg hone, if_neg (not_lt.2 hle)]
  have hlen : (qedIwarpInitFpdu s.pkt s.fpdu).mpaFragLen = s.fpdu.fpduLength := by
    change Word.sub 16 s.fpdu.fpduLength (qedIwarpInitFpdu s.pkt s.fpdu).incompleteBytes = _
    rw [hinc, sub_of_le_of_lt (Nat.zero_le _) hlt, Nat.sub_zero]
  rw [packedTurn_allOk h8]
  refine (handed_append_of_aligned s.txs rfl).trans ?_
  simp only [fpduPkt, fpduFrags, hinc, hlen, if_true, readFrags, flatMap_cons,
    flatMap_nil, append_nil, payload, take_slice hle]
  rfl

end MpaState

/-! ## The part that is kept -/

/-- The part `head` of the FPDU `f` is kept. -/
structure IwarpFpdu.Holds (fpdu : IwarpFpdu) (mem : ℕ → ℕ → BitVec 8) (f head : List (BitVec 8)) :
    Prop where
  pos : 0 < head.length
  lt : head.length < f.length
  buf : fpdu.mpaFrag.buf = fpdu.mpaBuf
  data : slice (mem fpdu.mpaFrag.buf) fpdu.mpaFrag.off head.length = head
  missing :
    (head.length = 1 ∧ fpdu.incompleteBytes = qedIwarpInvalidFpduLength ∧
      fpdu.fpduLength = (mem fpdu.mpaFrag.buf fpdu.mpaFrag.off).toNat * 2 ^ 8) ∨
    (fpdu.incompleteBytes + head.length = f.length ∧ fpdu.mpaFragLen = head.length)

/-- Nothing is kept, or a part of the FPDU that comes next. -/
def IwarpFpdu.Keeps (fpdu : IwarpFpdu) (mem : ℕ → ℕ → BitVec 8) (todo : List (List (BitVec 8)))
    (head : List (BitVec 8)) : Prop :=
  (head = [] ∧ fpdu.incompleteBytes = 0) ∨ ∃ f rest, todo = f :: rest ∧ fpdu.Holds mem f head

/-- The loop has ended after it has handed over the FPDUs that were complete, of those in `todo`,
and keeps the rest. The bytes `q` are to come. -/
structure MpaState.Delivered (s t : MpaState) (todo : List (List (BitVec 8)))
    (q : List (BitVec 8)) :
    Prop where
  finished : t.Finished
  rc : t.rc = .ok
  rest : ∃ done todo' head, todo = done ++ todo' ∧ handed t.txs = handed s.txs ++ done ∧
    todo'.flatten = head ++ q ∧ t.fpdu.Keeps t.mem todo' head

namespace MpaState

variable {s t u : MpaState} {buffSize : BitVec 16} {todo : List (List (BitVec 8))}
  {f q : List (BitVec 8)}

theorem Delivered.cons (h : t.Delivered u todo q) (htx : handed t.txs = handed s.txs ++ [f]) :
    s.Delivered u (f :: todo) q := by
  obtain ⟨done, todo', head, htodo, hhand, hrest⟩ := h.rest
  refine ⟨h.finished, h.rc, f :: done, todo', head, by rw [htodo]; rfl, ?_, hrest⟩
  rw [hhand, htx, append_assoc]
  rfl

theorem length_payload (s : MpaState) : s.payload.length = s.pkt.tcpPayloadLen := by
  rw [payload, length_slice]

/-- The bytes of the packet belong to the FPDU that comes first. -/
theorem fpduLen_eq (hf : IsFpdu f) {r : List (BitVec 8)}
    (hstream : f ++ r = s.payload ++ q) (hlen : 2 ≤ s.pkt.tcpPayloadLen) :
    s.fpduLen = f.length := by
  have h12 := hf.twelve_le
  have hbyte : ∀ i < 2, f.getD i 0 = s.byte i := fun i hi => by
    rw [getD_eq_of_append hstream (by omega) (by rw [length_payload]; omega), payload,
      getD_slice (by omega)]
    rfl
  have hm : ntohs (s.byte 0) (s.byte 1) = mpaLenOf f := by
    rw [mpaLenOf, hbyte 0 (by decide), hbyte 1 (by decide)]
  rw [fpduLen, hm, ← hf.length, mod_eq_of_lt hf.lt]

section

variable (hs : s.Ready)

include hs

theorem Ready.keep (hinc : s.fpdu.incompleteBytes = 0) (buffSize : BitVec 16)
    {rest : List (List (BitVec 8))} (hf : IsFpdu f) (hstream : (f :: rest).flatten = s.payload ++ q)
    (hlt : s.pkt.tcpPayloadLen < f.length) :
    s.Delivered (s.turn buffSize .allOk) (f :: rest) q := by
  have hpos := hs.pos
  have hlen := s.length_payload
  -- what the two cases have in common: the FPDU that is kept has the length `L`
  have hkeep : ∀ L, s.turn buffSize .allOk =
      ({ s with fpdu := { s.fpdu with fpduLength := L } } : MpaState).partialTurn .allOk →
      (qedIwarpInitFpdu s.pkt { s.fpdu with fpduLength := L }).Holds s.mem f s.payload →
      s.Delivered (s.turn buffSize .allOk) (f :: rest) q := by
    intro L hturn hholds
    obtain ⟨hfpdu, hmem, hzero, hrc⟩ := partialTurn_allOk
      (s := { s with fpdu := { s.fpdu with fpduLength := L } }) hs.rc
    have hhand := handed_partialTurn { s with fpdu := { s.fpdu with fpduLength := L } }
    rw [← hturn] at hfpdu hmem hzero hrc hhand
    refine ⟨.inl hzero, hrc, [], f :: rest, s.payload, rfl, by rw [hhand]; simp, hstream,
      .inr ⟨f, rest, rfl, ?_⟩⟩
    rw [hfpdu, hmem]
    exact hholds
  by_cases hone : s.pkt.tcpPayloadLen = 1
  · refine hkeep _ (turn_of_one hinc hone) ⟨by omega, by omega, rfl, ?_,
      .inl ⟨hlen.trans hone, ?_, rfl⟩⟩
    · rw [hlen]
      rfl
    · simp [qedIwarpInitFpdu, hone]
  · have heq := fpduLen_eq hf hstream (by omega)
    have hf16 := hf.lt
    have hinc' : (qedIwarpInitFpdu s.pkt { s.fpdu with fpduLength := s.fpduLen }).incompleteBytes =
        f.length - s.pkt.tcpPayloadLen := by
      simp [qedIwarpInitFpdu, if_neg hone, heq, if_pos hlt]
    refine hkeep _ (turn_of_part hinc hone (heq ▸ hlt)) ⟨by omega, by omega, rfl, ?_, .inr ⟨?_, ?_⟩⟩
    · rw [hlen]
      rfl
    · omega
    · change Word.sub 16 s.fpduLen (qedIwarpInitFpdu s.pkt _).incompleteBytes = _
      rw [hinc', heq, sub_of_le_of_lt (by omega) hf16]
      omega

/-- A turn hands an FPDU over, and the rest of the loop those behind it. -/
theorem Ready.deliver_cons {k : ℕ} (ht : s.turn buffSize .allOk = t) (hadv : s.Advanced t k)
    (hk : 0 < k) (hhand : handed t.txs = handed s.txs ++ [f])
    (hflat : todo.flatten = t.payload ++ q)
    (hnext : ¬ t.Finished → ∃ n ≤ t.pkt.tcpPayloadLen, 0 < n ∧
      t.Delivered (qedIwarpProcessMpaPkt buffSize (fun _ => .allOk) t n) todo q) :
    ∃ n ≤ s.pkt.tcpPayloadLen, 0 < n ∧
      s.Delivered (qedIwarpProcessMpaPkt buffSize (fun _ => .allOk) s n) (f :: todo) q := by
  have hpos := hs.pos
  subst ht
  by_cases hfin : (s.turn buffSize .allOk).Finished
  · refine ⟨1, hpos, one_pos, hfin, hadv.rc, [f], todo, [], rfl, hhand, ?_, .inl ⟨rfl, hadv.done⟩⟩
    rw [hflat, payload, hfin.resolve_right (not_not.2 hadv.rc), slice_zero]
  · obtain ⟨n, hn, -, hdel⟩ := hnext hfin
    have hlen := hadv.len
    refine ⟨n + 1, by omega, n.succ_pos, ?_⟩
    rw [← congrFun (loop_succ_left rfl hfin) n]
    exact hdel.cons hhand

/-- **From the begin of an FPDU on**: the loop hands over what is complete and keeps the rest. -/
theorem Ready.deliver (hinc : s.fpdu.incompleteBytes = 0) (buffSize : BitVec 16)
    (hf : ∀ f ∈ todo, IsFpdu f) (hstream : todo.flatten = s.payload ++ q) :
    ∃ n ≤ s.pkt.tcpPayloadLen, 0 < n ∧
      s.Delivered (qedIwarpProcessMpaPkt buffSize (fun _ => .allOk) s n) todo q := by
  generalize hk : s.pkt.tcpPayloadLen = k
  induction k using Nat.strong_induction_on generalizing s todo with
  | h k ih =>
    have hpos := hs.pos
    cases todo with
    | nil =>
      have := congrArg length hstream
      simp [payload] at this
      omega
    | cons f rest =>
      have hff := hf f mem_cons_self
      rcases lt_or_ge s.pkt.tcpPayloadLen f.length with hlt | hle
      · exact ⟨1, by omega, one_pos, hs.keep hinc buffSize hff hstream hlt⟩
      · have h12 := hff.twelve_le
        have hlen := fpduLen_eq hff hstream (by omega)
        obtain ⟨c, hc, hrest⟩ := exists_append_of_le hstream
          (hle.trans_eq s.length_payload.symm)
        obtain ⟨hadv, -⟩ := hs.turn_packed rfl hinc (by omega)
          (hlen ▸ hle) (hlen ▸ hff.ne_eight)
        have hhand : handed (s.turn buffSize .allOk).txs = handed s.txs ++ [f] := by
          rw [turn_of_packed hinc (by omega) (hlen ▸ hle)]
          refine (handed_packedTurn
            (hlen ▸ hff.ne_eight) (by change s.pkt.tcpPayloadLen ≠ 1; omega) (hlen ▸ hle)
            (hlen ▸ hff.lt)).trans ?_
          change _ ++ [s.payload.take s.fpduLen] = _
          rw [hlen, hc, take_left]
        have hflat : rest.flatten = (s.turn buffSize .allOk).payload ++ q := by
          rw [hadv.payload, hlen, hc, drop_left, hrest]
        rw [← hk]
        exact hs.deliver_cons rfl hadv (by omega) hhand hflat fun hfin =>
          ih _ (by rw [hadv.len]; omega) (hadv.ready hs hfin) hadv.done
            (fun g hg => hf g (mem_cons_of_mem f hg)) hflat rfl

/-- What is missing of the FPDU of which a part is kept, when its length is complete. -/
theorem Ready.kept_of_holds {head b : List (BitVec 8)} (h : s.fpdu.Holds s.mem f head)
    (hf : IsFpdu f) {r : List (BitVec 8)} (hstream : f ++ r = head ++ (s.payload ++ b)) :
    s.keptFpdu.incompleteBytes + head.length = f.length ∧ s.keptFpdu.mpaFragLen = head.length := by
  have h12 := hf.twelve_le
  have hlt := hf.lt
  have hpos := h.pos
  rcases h.missing with ⟨hone, hinv, -⟩ | ⟨hinc, hfrag⟩
  · -- the length field is the byte that is kept and the first one of the packet
    obtain ⟨hlen, hsub⟩ := hs.keptFpdu_of_invalid hinv
    have hhi : f.getD 0 0 = s.mem s.fpdu.mpaFrag.buf s.fpdu.mpaFrag.off := by
      rw [getD_eq_of_append hstream (by omega) (by omega), ← h.data, getD_slice (by omega)]
      rfl
    have hlo : f.getD 1 0 = s.byte 0 := by
      rw [← getD_append f r 0 1 (by omega), hstream, getD_append_right _ _ _ _ (by omega),
        hone, getD_append _ _ _ _ (by rw [length_payload]; exact hs.pos), payload,
        getD_slice hs.pos]
      rfl
    rw [← hhi, ← hlo] at hlen
    have hlen' : s.keptFpdu.fpduLength = f.length := by
      rw [hlen, hf.length, mod_eq_of_lt (hf.length ▸ hlt)]
      rfl
    rw [hsub, hlen', sub_of_le_of_lt (by omega) hlt, hone]
    refine ⟨by omega, ?_⟩
    rw [keptFpdu, qedIwarpUpdateFpduLength, if_pos hinv]
  · rw [keptFpdu_of_ne (by rw [qedIwarpInvalidFpduLength]; omega)]
    exact ⟨hinc, hfrag⟩

theorem Ready.append {head : List (BitVec 8)} (hinc : s.fpdu.Partial)
    (hmiss : s.keptFpdu.incompleteBytes + head.length = f.length)
    (hfrag : s.keptFpdu.mpaFragLen = head.length) (h : s.fpdu.Holds s.mem f head) (hf : IsFpdu f)
    (hlt : s.pkt.tcpPayloadLen < s.keptFpdu.incompleteBytes)
    (hsize : f.length + s.pkt.tcpPayloadLen ≤ buffSize.toNat) :
    (s.turn buffSize .allOk).pkt.tcpPayloadLen = 0 ∧ (s.turn buffSize .allOk).rc = .ok ∧
      handed (s.turn buffSize .allOk).txs = handed s.txs ∧
      (s.turn buffSize .allOk).fpdu.Holds (s.turn buffSize .allOk).mem f (head ++ s.payload) := by
  have hf16 := hf.lt
  have hpos := hs.pos
  have hhead := h.lt
  have hle : s.keptFpdu.mpaFragLen + s.pkt.tcpPayloadLen ≤ buffSize.toNat := by omega
  have hhand := handed_splitTurn (s := { s with fpdu := s.keptFpdu }) hs.rc hle
  obtain ⟨t, -, hturn⟩ := splitTurn_allOk_of_le (s := { s with fpdu := s.keptFpdu }) hs.rc hle
  rw [turn_of_unaligned hinc, if_pos hlt]
  refine ⟨by rw [hturn]; rfl, by rw [hturn]; rfl, hhand, ?_⟩
  rw [hturn]
  have hlen : (head ++ s.payload).length = head.length + s.pkt.tcpPayloadLen := by
    rw [length_append, length_payload]
  refine ⟨by omega, by omega, rfl, ?_, .inr ⟨?_, ?_⟩⟩
  · -- the buffer begins with what was kept, followed by the payload
    change slice (Function.update s.mem s.pkt.ll2Buf _ s.pkt.ll2Buf) 0 _ = _
    rw [Function.update_self, hlen, slice_add]
    congr 1
    · refine Eq.trans (slice_congr fun i hi => ?_) h.data
      dsimp only
      rw [if_pos (by omega), (keptFpdu_buf s).2, zero_add]
    · refine slice_congr fun i hi => ?_
      change (if 0 + head.length + i < s.keptFpdu.mpaFragLen then _
        else if 0 + head.length + i < s.keptFpdu.mpaFragLen + s.pkt.tcpPayloadLen then
          s.mem s.pkt.ll2Buf (s.pkt.firstMpaOffset + (0 + head.length + i - s.keptFpdu.mpaFragLen))
        else _) = _
      rw [if_neg (by omega), if_pos (by omega)]
      congr 1
      omega
  · change Word.sub 16 s.keptFpdu.incompleteBytes s.pkt.tcpPayloadLen + _ = _
    rw [sub_of_le_of_lt hlt.le (by omega)]
    omega
  · change (s.keptFpdu.mpaFragLen + s.pkt.tcpPayloadLen) % 2 ^ 16 = _
    rw [mod_eq_of_lt (by omega), hlen, hfrag]

/-- **With a part of an FPDU that is kept**: the loop completes it, hands over what is complete and
keeps the rest. -/
theorem Ready.deliver_holds {head : List (BitVec 8)} {rest : List (List (BitVec 8))}
    (hinc : s.fpdu.Partial) (h : s.fpdu.Holds s.mem f head) (hf : IsFpdu f)
    (hrest : ∀ g ∈ rest, IsFpdu g) (hstream : (f :: rest).flatten = head ++ (s.payload ++ q))
    (hsize : f.length + s.pkt.tcpPayloadLen ≤ buffSize.toNat) :
    ∃ n ≤ s.pkt.tcpPayloadLen, 0 < n ∧
      s.Delivered (qedIwarpProcessMpaPkt buffSize (fun _ => .allOk) s n) (f :: rest) q := by
  have hpos := hs.pos
  have hflat : f ++ rest.flatten = head ++ (s.payload ++ q) := by rwa [flatten_cons] at hstream
  obtain ⟨hmiss, hfrag⟩ := hs.kept_of_holds h hf hflat
  have hhead := h.lt
  rcases lt_or_ge s.pkt.tcpPayloadLen s.keptFpdu.incompleteBytes with hlt | hle
  · obtain ⟨hzero, hrc, hhand, hholds⟩ := hs.append hinc hmiss hfrag h hf hlt hsize
    refine ⟨1, hpos, one_pos, .inl hzero, hrc, [], f :: rest, head ++ s.payload, rfl, ?_, ?_,
      .inr ⟨f, rest, rfl, hholds⟩⟩
    · rw [append_nil]
      exact hhand
    · rw [hstream, append_assoc]
  · -- the packet holds the part `c` that is missing, and `c'` behind it
    obtain ⟨c, hc, hcr⟩ := exists_append_of_le hflat.symm hhead.le
    have hclen : c.length = s.keptFpdu.incompleteBytes := by
      have := congrArg length hc
      rw [length_append] at this
      omega
    obtain ⟨c', hc', hrest'⟩ := exists_append_of_le hcr.symm
      (by rw [hclen, length_payload]; exact hle)
    obtain ⟨hadv, -⟩ := hs.turn_tail (t := s.turn buffSize .allOk) rfl hinc hle
    have hhand : handed (s.turn buffSize .allOk).txs = handed s.txs ++ [f] := by
      rw [turn_of_unaligned hinc, if_neg (not_lt.2 hle)]
      refine (handed_append_of_aligned s.txs rfl).trans ?_
      have hinc' : s.keptFpdu.incompleteBytes ≠ 0 := by omega
      simp only [fpduPkt, fpduFrags, if_neg hinc', readFrags, flatMap_cons, flatMap_nil,
        append_nil, ← take_slice hle]
      rw [(keptFpdu_buf s).2, hfrag, h.data, ← payload, hc', take_left' hclen, ← hc]
    have hflat' : rest.flatten = (s.turn buffSize .allOk).payload ++ q := by
      rw [hadv.payload, hc', drop_left' hclen, hrest']
    exact hs.deliver_cons rfl hadv (by omega) hhand hflat' fun hfin =>
      (hadv.ready hs hfin).deliver hadv.done buffSize hrest hflat'

end

end MpaState

/-! ## All packets of a stream -/

section Conn

variable {buffSize : BitVec 16} {fpdus : List (List (BitVec 8))}

/-- A packet is not empty, comes in a buffer that is free, and the buffers are large enough for an
FPDU and a packet. -/
structure MpaConn.Accepts (fpdus : List (List (BitVec 8))) (c : MpaConn)
    (rx : MpaRx buffSize) : Prop where
  free : c.Free rx
  pos : 0 < rx.pkt.tcpPayloadLen
  fits : ∀ f ∈ fpdus, f.length + rx.pkt.tcpPayloadLen ≤ buffSize.toNat

/-- The FPDUs that were handed over and the part that is kept are what has come so far. -/
def MpaConn.Follows (fpdus : List (List (BitVec 8))) (l : List (MpaRx buffSize))
    (c : MpaConn) : Prop :=
  ∃ todo head, fpdus = handed c.txs ++ todo ∧
    l.flatMap payload = (handed c.txs).flatten ++ head ∧ c.fpdu.Keeps c.mem todo head

theorem IwarpFpdu.Keeps.sane {fpdu : IwarpFpdu} {mem : ℕ → ℕ → BitVec 8}
    {todo : List (List (BitVec 8))} {head : List (BitVec 8)} (h : fpdu.Keeps mem todo head)
    (hf : ∀ f ∈ todo, IsFpdu f) : fpdu.Sane mem := by
  rcases h with ⟨-, hinc⟩ | ⟨f, rest, rfl, h⟩
  · refine ⟨fun h => absurd hinc h, fun h => ?_, by rw [hinc]; exact zero_le _⟩
    rw [hinc] at h
    exact absurd h (by decide)
  · have hlt := (hf f mem_cons_self).lt
    have hpos := h.pos
    rcases h.missing with ⟨-, hinc, hhi⟩ | ⟨hinc, -⟩
    · exact ⟨fun _ => h.buf, fun _ => hhi, hinc.le⟩
    · refine ⟨fun _ => h.buf, fun h => ?_, ?_⟩ <;> rw [qedIwarpInvalidFpduLength] at *
      · omega
      · omega

/-- A packet of the stream: the loop ends, and the connection follows the stream. -/
theorem MpaConn.Follows.receive {l : List (MpaRx buffSize)} {c : MpaConn} {rx : MpaRx buffSize}
    {q : List (BitVec 8)} (h : c.Follows fpdus l) (hf : ∀ f ∈ fpdus, IsFpdu f)
    (hacc : c.Accepts fpdus rx)
    (hstream : fpdus.flatten = l.flatMap payload ++ (rx.payload ++ q)) {r : ℕ → MpaState}
    (hr : qedIwarpProcessMpaPkt buffSize (fun _ => .allOk) (c.deliver rx) = r) :
    (c.receive rx).Follows fpdus (l ++ [rx]) ∧ (r rx.pkt.tcpPayloadLen).Finished ∧
      (r rx.pkt.tcpPayloadLen).rc = .ok := by
  obtain ⟨todo, head, hfpdus, hcome, hkeeps⟩ := h
  have hftodo : ∀ f ∈ todo, IsFpdu f := fun f hft =>
    hf f (by rw [hfpdus]; exact mem_append_right _ hft)
  have hsane := hkeeps.sane hftodo
  have hready := ready_deliver hsane hacc.free hacc.pos
  have hpay := c.payload_deliver rx
  -- what is left of the stream begins with the part that is kept
  have htodo : todo.flatten = head ++ (rx.payload ++ q) := by
    rw [hcome, append_assoc] at hstream
    rw [hfpdus, flatten_append] at hstream
    exact append_cancel_left hstream
  have hdel : ∃ n ≤ rx.pkt.tcpPayloadLen, 0 < n ∧ (c.deliver rx).Delivered (r n) todo q := by
    subst hr
    rcases hkeeps with ⟨rfl, hinc⟩ | ⟨f, rest, rfl, hholds⟩
    · exact hready.deliver hinc buffSize hftodo (by rw [hpay, htodo]; rfl)
    · have hff := hftodo f mem_cons_self
      have hpart : c.fpdu.Partial := by
        have := hholds.lt
        rcases hholds.missing with ⟨-, hinc, -⟩ | ⟨hinc, -⟩
        · rw [Partial, hinc]
          decide
        · rw [Partial]
          omega
      have hmem := mem_deliver hsane hacc.free hpart
      have hholds' : (c.deliver rx).fpdu.Holds (c.deliver rx).mem f head := by
        refine ⟨hholds.pos, hholds.lt, hholds.buf, ?_, ?_⟩
        · exact (congrArg (slice · _ _) hmem).trans hholds.data
        · have hmiss := hholds.missing
          rw [← hmem] at hmiss
          exact hmiss
      exact hready.deliver_holds hpart hholds' hff
        (fun g hg => hftodo g (mem_cons_of_mem f hg)) (by rw [hpay, htodo])
        (hacc.fits f (by rw [hfpdus]; exact mem_append_right _ mem_cons_self))
  obtain ⟨n, hn, hn0, hdel⟩ := hdel
  have hstay : ∀ m, n ≤ m → r m = r n := by
    subst hr
    exact fun m hm => Loop.doRun_of_fin hn0 hdel.finished hm
  refine ⟨?_, by rw [hstay _ hn]; exact hdel.finished, by rw [hstay _ hn]; exact hdel.rc⟩
  obtain ⟨done, todo', head', rfl, hhand, hflat, hkeeps'⟩ := hdel.rest
  have hreceive : (c.receive rx).txs = (r n).txs ∧ (c.receive rx).fpdu = (r n).fpdu ∧
      (c.receive rx).mem = (r n).mem := by
    rw [MpaConn.receive, hr, hstay _ (by omega)]
    exact ⟨rfl, rfl, rfl⟩
  have hhand' : handed (c.receive rx).txs = handed c.txs ++ done := by
    rw [hreceive.1, hhand]
    rfl
  refine ⟨todo', head', ?_, ?_, ?_⟩
  · rw [hhand', hfpdus, append_assoc]
  · rw [hhand', flatMap_append, flatMap_singleton, hcome, flatten_append, append_assoc,
      append_assoc]
    congr 1
    -- both are what is left of the stream without `q`
    rw [flatten_append, hflat, ← append_assoc, ← append_assoc] at htodo
    exact (append_cancel_right htodo).symm
  · rw [hreceive.2.1, hreceive.2.2]
    exact hkeeps'

/-- The connection follows the stream, as far as it has come. -/
theorem MpaConn.follows_run (mem : ℕ → ℕ → BitVec 8) (piggy : ℕ → Option ℕ)
    (hf : ∀ f ∈ fpdus, IsFpdu f) {l : List (MpaRx buffSize)} {q : List (BitVec 8)}
    (hl : Run.Meets (Accepts fpdus) receive (.fresh mem piggy) l)
    (hstream : fpdus.flatten = l.flatMap payload ++ q) :
    (l.foldl receive (.fresh mem piggy)).Follows fpdus l := by
  have hrun := hl.history (P := fun l c =>
    ∀ q, fpdus.flatten = l.flatMap payload ++ q → Follows fpdus l c) ?_ []
    (fun _ _ => ⟨fpdus, [], rfl, rfl, .inl ⟨rfl, rfl⟩⟩)
  · exact hrun q hstream
  · intro l c rx ih hacc q hq
    rw [flatMap_append, append_assoc, flatMap_singleton] at hq
    exact ((ih _ hq).receive hf hacc hq rfl).1

/-- **Reassembly is faithful.** A stream of FPDUs is cut into packets that are not empty, with
buffers large enough for an FPDU and a packet. Then every loop over a packet ends well, and the
FPDUs that were handed to the firmware are those of the stream, in order and each once. -/
theorem reassembly_faithful (mem : ℕ → ℕ → BitVec 8) (piggy : ℕ → Option ℕ)
    (hf : ∀ f ∈ fpdus, IsFpdu f) (segs : List (MpaRx buffSize))
    (hsegs : segs.flatMap payload = fpdus.flatten)
    (hacc : Run.Meets (Accepts fpdus) receive (.fresh mem piggy) segs) :
    handed (segs.foldl receive (.fresh mem piggy)).txs = fpdus ∧
      ∀ l rx r, segs = l ++ rx :: r → (qedIwarpProcessMpaPkt buffSize (fun _ => .allOk)
          ((l.foldl receive (.fresh mem piggy)).deliver rx) rx.pkt.tcpPayloadLen).Finished ∧
        (qedIwarpProcessMpaPkt buffSize (fun _ => .allOk)
          ((l.foldl receive (.fresh mem piggy)).deliver rx) rx.pkt.tcpPayloadLen).rc = .ok := by
  refine ⟨?_, ?_⟩
  · obtain ⟨todo, head, hfpdus, hcome, hkeeps⟩ :=
      follows_run (q := []) mem piggy hf hacc (by rw [hsegs, append_nil])
    -- nothing is left of the stream, so no FPDU is left
    have hflat : todo.flatten = head := by
      rw [hsegs] at hcome
      rw [hfpdus, flatten_append] at hcome
      exact append_cancel_left hcome
    have htodo : todo = [] := by
      rcases hkeeps with ⟨rfl, -⟩ | ⟨f, rest, rfl, hholds⟩
      · cases todo with
        | nil => rfl
        | cons f rest =>
          have := (hf f (by rw [hfpdus]; simp)).twelve_le
          have := congrArg length hflat
          rw [flatten_cons, length_append, length_nil] at this
          omega
      · have := hholds.lt
        have := congrArg length hflat
        rw [flatten_cons, length_append] at this
        omega
    rw [htodo, append_nil] at hfpdus
    exact hfpdus.symm
  · rintro l rx r rfl
    obtain ⟨hl, hr⟩ := hacc.of_append
    have hstream : fpdus.flatten = l.flatMap payload ++ (rx.payload ++ r.flatMap payload) := by
      rw [← hsegs, flatMap_append, flatMap_cons]
    exact ((follows_run mem piggy hf hl hstream).receive hf hr.1 hstream rfl).2

end Conn

/-! ## An FPDU in four packets -/

/-- An FPDU with an MPA length of 5: the length, the data, a byte of padding and the CRC. -/
def smallFpdu (b : BitVec 8) : List (BitVec 8) := [0, 5, b, b, b, b, b, 0, 1, 2, 3, 4]

/-- Two FPDUs, cut behind the first byte, within the first FPDU, and within the second one. -/
def smallSegments : List (MpaRx 1600) :=
  [mpaRxOf 0 [0] (by decide), mpaRxOf 1 [5, 7, 7] (by decide),
    mpaRxOf 2 [7, 7, 7, 0, 1, 2, 3, 4, 0, 5] (by decide),
    mpaRxOf 3 [9, 9, 9, 9, 9, 0, 1, 2, 3, 4] (by decide)]

theorem reassembly_smallSegments :
    handed (smallSegments.foldl receive (.fresh (fun _ _ => 0) fun _ => none)).txs =
      [smallFpdu 7, smallFpdu 9] := by
  refine (reassembly_faithful _ _ (fun f hf => ?_) smallSegments (by decide) ?_).1
  · obtain rfl | rfl : f = smallFpdu 7 ∨ f = smallFpdu 9 := by simpa using hf
    · exact ⟨by decide, by decide, by decide, by decide⟩
    · exact ⟨by decide, by decide, by decide, by decide⟩
  · exact ⟨⟨fun h => absurd rfl h, by decide, by decide⟩,
      ⟨fun _ => by decide +kernel, by decide, by decide⟩,
      ⟨fun _ => by decide +kernel, by decide, by decide⟩,
      ⟨fun _ => by decide +kernel, by decide, by decide⟩, trivial⟩

end FastLinQ.Qed
