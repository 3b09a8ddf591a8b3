import FastLinQ.Qed.Iwarp.Mpa

/-!
# One turn of the MPA loop

What a turn of the loop of `qed_iwarp_process_mpa_pkt` does, by the class of the packet and for LL2
transmits that succeed.
-/

namespace FastLinQ.Qed

def MpaEnv.allOk : MpaEnv := ⟨.ok, .ok⟩

/-- The length that is computed at the begin of an FPDU. -/
def MpaState.fpduLen (s : MpaState) : ℕ := fpduLenWithPad (ntohs (s.byte 0) (s.byte 1)) % 2 ^ 16

namespace MpaState

variable {s : MpaState} {buffSize : BitVec 16} {env : MpaEnv}

section

variable (hinc : s.fpdu.incompleteBytes = 0)

include hinc

theorem turn_of_one (hlen : s.pkt.tcpPayloadLen = 1) :
    s.turn buffSize env =
      { s with
        fpdu := { s.fpdu with fpduLength := (s.byte 0).toNat * 2 ^ 8 } }.partialTurn env := by
  have hc : qedIwarpMpaClassify s =
      (.partial_, { s.fpdu with fpduLength := (s.byte 0).toNat * 2 ^ 8 }) := by
    rw [qedIwarpMpaClassify, if_neg (not_not.2 hinc), if_pos hlen]
  simp [turn, classified, hc, hinc]

theorem turn_of_part (hlen : s.pkt.tcpPayloadLen ≠ 1) (hlt : s.pkt.tcpPayloadLen < s.fpduLen) :
    s.turn buffSize env =
      { s with fpdu := { s.fpdu with fpduLength := s.fpduLen } }.partialTurn env := by
  have hc : qedIwarpMpaClassify s = (.partial_, { s.fpdu with fpduLength := s.fpduLen }) := by
    rw [qedIwarpMpaClassify, if_neg (not_not.2 hinc), if_neg hlen]
    exact Prod.ext (if_neg (Nat.not_le.2 hlt)) rfl
  simp [turn, classified, hc, hinc]

theorem turn_of_packed (hlen : s.pkt.tcpPayloadLen ≠ 1) (hle : s.fpduLen ≤ s.pkt.tcpPayloadLen) :
    s.turn buffSize env =
      { s with fpdu := { s.fpdu with fpduLength := s.fpduLen } }.packedTurn env := by
  have hc : qedIwarpMpaClassify s = (.packed, { s.fpdu with fpduLength := s.fpduLen }) := by
    rw [qedIwarpMpaClassify, if_neg (not_not.2 hinc), if_neg hlen]
    exact Prod.ext (if_pos hle) rfl
  simp [turn, classified, hc, hinc]

end

def keptFpdu (s : MpaState) : IwarpFpdu := qedIwarpUpdateFpduLength s.fpdu (s.byte 0)

theorem turn_of_unaligned (hinc : s.fpdu.Partial) :
    s.turn buffSize env =
      if s.pkt.tcpPayloadLen < s.keptFpdu.incompleteBytes then
        { s with fpdu := s.keptFpdu }.splitTurn buffSize env
      else { s with fpdu := s.keptFpdu }.tailTurn env := by
  have hc : (qedIwarpMpaClassify s).1 = .unaligned := by
    rw [qedIwarpMpaClassify, if_pos (show s.fpdu.incompleteBytes ≠ 0 from hinc)]
  have hcl : s.classified = { s with fpdu := s.keptFpdu } := by
    rw [classified, if_pos (show s.fpdu.incompleteBytes ≠ 0 from hinc)]
    rfl
  simp [turn, hc, hcl]

/-! ## With all packets accepted -/

/-- A packet that ends within an FPDU is kept; no more of it is left. -/
theorem partialTurn_allOk (hrc : s.rc = .ok) :
    (s.partialTurn .allOk).fpdu = qedIwarpInitFpdu s.pkt s.fpdu ∧
      (s.partialTurn .allOk).mem = s.mem ∧ (s.partialTurn .allOk).pkt.tcpPayloadLen = 0 ∧
      (s.partialTurn .allOk).rc = .ok := by
  cases hedge : s.pkt.rightEdge with
  | false =>
    simp only [partialTurn, hedge, Bool.false_eq_true, if_false]
    exact ⟨rfl, rfl, rfl, hrc⟩
  | true =>
    simp only [partialTurn, hedge, if_true]
    exact ⟨rfl, rfl, rfl, rfl⟩

theorem packedTurn_allOk (h : s.fpdu.fpduLength ≠ 8) :
    s.packedTurn .allOk =
      (qedIwarpSendFpdu { s with fpdu := qedIwarpInitFpdu s.pkt s.fpdu } .packed .ok).advance
        s.fpdu.fpduLength :=
  if_neg h

/-- A packet within an FPDU, after the packet of the right edge, if there is one. -/
theorem splitTurn_allOk (hrc : s.rc = .ok) (buffSize : BitVec 16) :
    ∃ t : MpaState, (t = s ∨ t = qedIwarpWinRightEdge s .ok) ∧ s.splitTurn buffSize .allOk =
        if (qedIwarpCpPkt buffSize t .ok).rc ≠ .ok then qedIwarpCpPkt buffSize t .ok
        else (qedIwarpCpPkt buffSize t .ok).drain := by
  cases hedge : s.pkt.rightEdge with
  | false =>
    refine ⟨s, .inl rfl, ?_⟩
    simp only [splitTurn, hedge, hrc, Bool.false_eq_true, if_false, ne_eq, not_true_eq_false]
    rfl
  | true =>
    refine ⟨qedIwarpWinRightEdge s .ok, .inr rfl, ?_⟩
    simp only [splitTurn, hedge, if_true]
    rfl

/-- A packet within an FPDU that does not fit in a buffer with the part that was kept. -/
theorem splitTurn_allOk_of_lt (hrc : s.rc = .ok)
    (hlt : buffSize.toNat < s.fpdu.mpaFragLen + s.pkt.tcpPayloadLen) :
    (s.splitTurn buffSize .allOk).rc = .error ∧ (s.splitTurn buffSize .allOk).fpdu = s.fpdu ∧
      (s.splitTurn buffSize .allOk).mem = s.mem := by
  obtain ⟨t, ht, hsplit⟩ := splitTurn_allOk hrc buffSize
  have hcp : qedIwarpCpPkt buffSize t .ok = { t with rc := .error } := by
    rcases ht with rfl | rfl <;> exact if_pos hlt
  rw [hsplit, hcp]
  rcases ht with rfl | rfl <;> exact ⟨rfl, rfl, rfl⟩

/-- A packet within an FPDU that is added to the part that was kept. -/
theorem splitTurn_allOk_of_le (hrc : s.rc = .ok)
    (hle : s.fpdu.mpaFragLen + s.pkt.tcpPayloadLen ≤ buffSize.toNat) :
    ∃ t : MpaState, (t = s ∨ t = qedIwarpWinRightEdge s .ok) ∧ s.splitTurn buffSize .allOk =
        { qedIwarpRecyclePkt t s.fpdu.mpaBuf .ok with
          mem := Function.update s.mem s.pkt.ll2Buf s.copied
          fpdu := s.fpdu.appended s.pkt }.drain := by
  obtain ⟨t, ht, hsplit⟩ := splitTurn_allOk hrc buffSize
  refine ⟨t, ht, ?_⟩
  have hcp : qedIwarpCpPkt buffSize t .ok =
      { qedIwarpRecyclePkt t s.fpdu.mpaBuf .ok with
        mem := Function.update s.mem s.pkt.ll2Buf s.copied
        fpdu := s.fpdu.appended s.pkt } := by
    rcases ht with rfl | rfl <;> exact if_neg (Nat.not_lt.2 hle)
  rw [hsplit, hcp]
  exact if_neg fun h => h rfl

end MpaState

end FastLinQ.Qed
