import FastLinQ.Qede.Tx.Layout

/-!
# Releasing a packet

`qede_free_tx_pkt` finds the socket buffer of the packet in the software ring and everything else
in its BDs. `freeTxPkt_eq` reads the BDs of `Skb.image` back: as many are consumed as were written,
and the mappings are those of the packet wherever a byte count of 16 bits holds their lengths
(`Skb.Fits`).
-/

namespace FastLinQ.Qede

open FastLinQ.Qed Cells Function List Nat Word Skb TxQueue

/-- The length that the BDs of the linear part say. -/
def Skb.linearLen (skb : Skb) (t : XmitType) : ℕ :=
  if skb.split t then
    qedeGetSkbHlen skb t.enc + Word.sub 16 (skb.headlen % 2 ^ 16) (qedeGetSkbHlen skb t.enc)
  else skb.headlen % 2 ^ 16

/-- The call for the linear part, in a first BD and the split ones. -/
def unmapLinear (b : TxBd) (l : List TxBd) : DmaOp :=
  .unmap ⟨.single, b.addr, b.nbytes + (l.map (·.nbytes)).sum⟩

theorem exists_linearBds (skb : Skb) (t : XmitType) (a₀ : DmaAddr) :
    ∃ b l, skb.linearBds t a₀ = b :: l ∧ (l.length = if skb.split t then 1 else 0) ∧
      unmapLinear b l = .unmap ⟨.single, a₀, skb.linearLen t⟩ := by
  unfold linearBds linearLen unmapLinear
  split
  · exact ⟨_, _, rfl, rfl, rfl⟩
  · exact ⟨_, _, rfl, rfl, rfl⟩

/-- The lengths that a byte count of 16 bits must hold: linear data behind a header that is split
off, and fragments. -/
def Skb.Fits (skb : Skb) (t : XmitType) : Prop :=
  (skb.split t → skb.headlen < 2 ^ 16 + qedeGetSkbHlen skb t.enc) ∧
    ∀ size ∈ skb.frags, size < 2 ^ 16
  deriving Decidable

theorem qedeGetSkbHlen_lt (skb : Skb) (enc : Bool) : qedeGetSkbHlen skb enc < 2 ^ 16 :=
  mod_lt _ (by decide)

/-- **The linear part is unmapped with its length** unless the data behind the header is too
long. -/
theorem linearLen_eq_iff {skb : Skb} {t : XmitType} (hlong : ¬ skb.TooLong t) :
    skb.linearLen t = skb.headlen ↔
      (skb.split t → skb.headlen < 2 ^ 16 + qedeGetSkbHlen skb t.enc) := by
  have hh := qedeGetSkbHlen_lt skb t.enc
  unfold linearLen
  by_cases hs : skb.split t
  · have hlt : qedeGetSkbHlen skb t.enc < skb.headlen := by
      rw [split, Bool.and_eq_true, decide_eq_true_eq] at hs
      exact hs.2
    rw [if_pos hs, sub_mod_left, sub_of_le hlt.le]
    constructor
    · intro heq _
      omega
    · intro hfit
      have hfit := hfit hs
      omega
  · rw [if_neg hs]
    refine iff_of_true (mod_eq_of_lt ?_) fun hc => absurd hc hs
    -- a header that fills the linear part, or a packet without segmentation
    cases hl : t.lso with
    | true =>
      rw [split, hl, Bool.true_and, decide_eq_true_eq] at hs
      omega
    | false =>
      have hlen : skb.len < ETH_TX_MAX_NON_LSO_PKT_LEN := by
        by_contra hc
        exact hlong ⟨hl, by omega⟩
      have hle : skb.headlen ≤ skb.len := Nat.le_add_right ..
      exact (hle.trans_lt hlen).trans (by decide)

/-- A byte count fits its field. -/
def TxBd.Bounded (b : TxBd) : Prop := b.nbytes < 2 ^ 16

theorem bounded_linearBds (skb : Skb) (t : XmitType) (a₀ : DmaAddr) :
    ∀ b ∈ skb.linearBds t a₀, b.Bounded := by
  intro b hb
  rw [linearBds] at hb
  split at hb
  · rcases mem_cons.1 hb with rfl | hb
    · exact qedeGetSkbHlen_lt skb t.enc
    · obtain rfl := mem_singleton.1 hb
      exact sub_lt ..
  · obtain rfl := mem_singleton.1 hb
    exact mod_lt _ (by decide)

theorem bounded_fragBds (a : ℕ → DmaAddr) (i : ℕ) (l : List ℕ) :
    ∀ b ∈ fragBds a i l, b.Bounded := by
  induction l generalizing i with
  | nil => nofun
  | cons size l ih =>
    intro b hb
    rcases mem_cons.1 hb with rfl | hb
    · exact mod_lt _ (by decide)
    · exact ih (i + 1) b hb

theorem bounded_zeros (n : ℕ) : ∀ b ∈ List.replicate n TxBd.zero, b.Bounded := by
  intro b hb
  rw [eq_of_mem_replicate hb]
  exact Nat.two_pow_pos 16

theorem bounded_image (skb : Skb) (t : XmitType) (a : ℕ → DmaAddr) :
    ∀ b ∈ skb.image t a, b.Bounded := by
  have hall : ∀ b ∈ skb.linearBds t (a 0) ++ fragBds a 0 skb.frags ++
      List.replicate (skb.room t - skb.nrFrags) .zero, b.Bounded := by
    intro b hb
    rcases mem_append.1 hb with hb | hb
    · rcases mem_append.1 hb with hb | hb
      · exact bounded_linearBds skb t (a 0) b hb
      · exact bounded_fragBds a 0 skb.frags b hb
    · exact bounded_zeros _ b hb
  obtain ⟨b₀, l, hbl, -, -⟩ := exists_linearBds skb t (a 0)
  rw [image, hbl, append_assoc, cons_append]
  rw [hbl, append_assoc] at hall
  intro b hb
  rcases mem_cons.1 hb with rfl | hb
  · exact hall b₀ mem_cons_self
  · exact hall b (mem_cons_of_mem _ hb)

theorem unmapPage_fragBds {a : ℕ → DmaAddr} {i : ℕ} {l : List ℕ} (h : ∀ size ∈ l, size < 2 ^ 16) :
    (fragBds a i l).map TxBd.unmapPage = (fragMaps a i l).map .unmap := by
  induction l generalizing i with
  | nil => rfl
  | cons size l ih =>
    rw [fragBds, fragMaps, map_cons, map_cons,
      ih fun s hs => h s (mem_cons_of_mem _ hs), TxBd.unmapPage,
      mod_eq_of_lt (h size mem_cons_self)]

section Consume

variable {q : TxQueue} {base : ℕ → ℕ} {K : ℕ} (T : TxRing q.txPbl base)
  (h : PblAt q.txPbl base q.txPbl.cons K)

include T h

theorem consume_consumeN (n : ℕ) :
    qedChainConsume (consumeN n q.txPbl) =
      (q.txPbl.elemAddr base (K + n), consumeN (n + 1) q.txPbl) := by
  have haddr := ((h.iterate T.ring T.mode n).next T.ring T.mode).1
  have hsucc : consumeN (n + 1) q.txPbl = (qedChainConsume (consumeN n q.txPbl)).2 := by
    unfold consumeN
    rw [iterate_succ_apply']
  refine Prod.ext ?_ hsucc.symm
  rw [consumeN_eq]
  exact haddr

theorem unmapConsumed_eq {w : List TxBd} (hw : Holds (q.txPbl.elemAddr base) q.bds K w) :
    unmapConsumed w.length q =
      (q.setChain (consumeN w.length q.txPbl)).logs (w.map TxBd.unmapPage) := by
  induction w generalizing q K with
  | nil => exact (logs_nil _).symm
  | cons b w ih =>
    obtain ⟨haddr, hat⟩ := h.next T.ring T.mode
    have hb : q.bds (qedChainConsume q.txPbl).1 = b := (congrArg q.bds haddr).trans hw.1
    rw [length_cons, unmapConsumed, hb,
      ih (q := (q.setChain (qedChainConsume q.txPbl).2).log b.unmapPage) T hat hw.2, log_eq,
      logs_setChain, logs_logs]
    rfl

/-- The second half of the function: the fragments, from `n` BDs behind the first one, and `m` BDs
without data. -/
theorem unmapConsumed_rest {Q : TxQueue} {n : ℕ} {w : List TxBd} (m : ℕ)
    (hQ : Q.txPbl = consumeN n q.txPbl) (hw : Holds (q.txPbl.elemAddr base) Q.bds (K + n) w) :
    (unmapConsumed w.length Q).setChain (consumeN m (unmapConsumed w.length Q).txPbl) =
      (Q.setChain (consumeN (n + w.length + m) q.txPbl)).logs (w.map TxBd.unmapPage) := by
  have hinfo : Q.txPbl.toChainInfo = q.txPbl.toChainInfo := by rw [hQ, consumeN_eq]
  have hat : PblAt q.txPbl base Q.txPbl.cons (K + n) := by
    rw [hQ, consumeN_eq]
    exact h.iterate T.ring T.mode n
  have hadd : consumeN m (consumeN w.length Q.txPbl) = consumeN (n + w.length + m) q.txPbl := by
    rw [hQ, Nat.add_comm (n + w.length), Nat.add_comm n]
    unfold consumeN
    rw [iterate_add_apply, iterate_add_apply]
  rw [← hinfo] at T hat hw
  rw [unmapConsumed_eq T hat hw, ← hadd]
  rfl

theorem freeTxPkt_eq {skb : Skb} {t : XmitType} {a : ℕ → DmaAddr}
    (hslot : q.skbs q.swTxCons = ⟨some skb, skb.split t⟩)
    (hw : Holds (q.txPbl.elemAddr base) q.bds K (skb.image t a)) :
    qedeFreeTxPkt q =
      (true, ((q.setChain (consumeN (skb.image t a).length q.txPbl)).setSlot q.swTxCons
        .empty).logs (.unmap ⟨.single, a 0, skb.linearLen t⟩ ::
          (fragBds a 0 skb.frags).map TxBd.unmapPage)) := by
  obtain ⟨b, l, hbl, hl, hlen⟩ := exists_linearBds skb t (a 0)
  have himg := length_image skb t a
  rw [hbl, length_cons] at himg
  have hfirst : qedChainConsume q.txPbl = (q.txPbl.elemAddr base K, consumeN 1 q.txPbl) :=
    consume_consumeN T h 0
  have hsecond := consume_consumeN T h 1
  -- what the consumer finds
  have hw' := hw
  rw [image, hbl, append_assoc, cons_append] at hw'
  obtain ⟨hb, hw'⟩ := hw'
  obtain ⟨hl', hw'⟩ := holds_append.1 hw'
  obtain ⟨hfrags, -⟩ := holds_append.1 hw'
  have hnbds : (q.bds (q.txPbl.elemAddr base K)).nbds = (skb.image t a).length := by
    rw [hb, himg]
    simp only [length_append, length_fragBds, length_replicate, nrFrags]
    omega
  have hcount : 1 + l.length + (fragBds a 0 skb.frags).length +
      ((skb.image t a).length - (1 + l.length + skb.nrFrags)) = (skb.image t a).length := by
    simp only [length_fragBds, nrFrags] at himg ⊢
    omega
  have hops : ∀ (c c' : Chain), (((q.setChain c).log (unmapLinear b l)).setChain c').logs
      ((fragBds a 0 skb.frags).map TxBd.unmapPage) =
        (q.setChain c').logs (unmapLinear b l :: (fragBds a 0 skb.frags).map TxBd.unmapPage) :=
    fun c c' => by
      rw [log_eq, logs_setChain, logs_logs]
      rfl
  have hrest := unmapConsumed_rest
    (Q := (q.setChain (consumeN (1 + l.length) q.txPbl)).log (unmapLinear b l)) T h
    ((skb.image t a).length - (1 + l.length + skb.nrFrags)) rfl
    (by rw [← Nat.add_assoc]; exact hfrags)
  rw [hcount, hops, length_fragBds] at hrest
  rw [← hlen]
  unfold qedeFreeTxPkt
  simp only [hslot, hfirst, hsecond, hnbds]
  rw [hb]
  cases hs : skb.split t with
  | false =>
    rw [hs] at hl
    obtain rfl : l = [] := length_eq_zero_iff.1 hl
    exact congrArg (fun Q => (true, setSlot Q q.swTxCons .empty)) hrest
  | true =>
    rw [hs] at hl
    obtain ⟨s, rfl⟩ : ∃ s, l = [s] := length_eq_one_iff.1 hl
    rw [hl'.1]
    exact congrArg (fun Q => (true, setSlot Q q.swTxCons .empty)) hrest

end Consume

end FastLinQ.Qede
