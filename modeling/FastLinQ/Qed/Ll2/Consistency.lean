import FastLinQ.Qed.Chain.Account
import FastLinQ.Qed.Ll2.Tx

/-!
# The light L2 transmit queue stays consistent

The descriptors of the queue are dealt out to `free_descq`, `sending_descq`, `active_descq` and
`cur_send_packet`, and the BDs between the consumer and the producer of the chain are those of the
packets in the last three, as long as no packet was flushed: `qed_ll2_txq_flush` gives the
descriptors back and leaves their BDs to the next `qed_chain_reset`.

A completion that has dropped the lock goes on with the number of BDs it has read. It ends well if
these are the BDs of whole packets of `active_descq`, and other calls only add packets behind them.
If the number ends within a packet, the completion gives up with `b_completing_packet` set and
the packet on no list.
-/

namespace FastLinQ.Qed

open Run Function List Option Word Ll2TxQueue

/-! ## BDs of packets -/

namespace Ll2TxQueue

def used (q : Ll2TxQueue) (d : ℕ) : ℕ := (q.descqArray d).bdUsed

def bdsOf (q : Ll2TxQueue) (l : List ℕ) : ℕ := (l.map q.used).sum

/-- The descriptors on one of the lists of packets in use. -/
def inUse (q : Ll2TxQueue) : List ℕ := q.sendingDescq ++ q.activeDescq ++ q.curSendPacket.toList

def placed (q : Ll2TxQueue) : List ℕ := q.freeDescq ++ q.inUse

def notFree (q : Ll2TxQueue) : List ℕ :=
  (range q.txqChain.capacity).filter fun d => d ∉ q.freeDescq

/-- The BDs between the consumer and the producer of the chain. -/
def outstanding (q : Ll2TxQueue) : ℕ := Word.sub 16 q.txqChain.prod.idx q.txqChain.cons.idx

/-- So many BDs are those of the first packets of `active_descq`, all of them whole. -/
def Covers (q : Ll2TxQueue) (numBds : ℕ) : Prop := numBds ∈ q.activeDescq.inits.map q.bdsOf
  deriving Decidable

variable {q q' : Ll2TxQueue} {K flushed p n : ℕ}

theorem bdsOf_cons (q : Ll2TxQueue) (p : ℕ) (l : List ℕ) :
    q.bdsOf (p :: l) = q.used p + q.bdsOf l := sum_cons

theorem bdsOf_perm (q : Ll2TxQueue) {l r : List ℕ} (h : l.Perm r) : q.bdsOf l = q.bdsOf r :=
  (h.map q.used).sum_eq

theorem bdsOf_congr {l : List ℕ} (h : ∀ d ∈ l, q'.used d = q.used d) : q'.bdsOf l = q.bdsOf l := by
  rw [bdsOf, map_congr_left h]
  rfl

/-! ## Whole packets -/

theorem covers_iff : q.Covers n ↔ ∃ l, l <+: q.activeDescq ∧ q.bdsOf l = n := by
  simp [Covers]

/-- More active packets, and changes to packets elsewhere, do no harm. -/
theorem Covers.mono (h : q.Covers n) (ha : q.activeDescq <+: q'.activeDescq)
    (hu : ∀ d ∈ q.activeDescq, q'.used d = q.used d) : q'.Covers n := by
  obtain ⟨l, hl, rfl⟩ := covers_iff.1 h
  exact covers_iff.2 ⟨l, hl.trans ha, bdsOf_congr fun d hd => hu d (hl.subset hd)⟩

theorem covers_zero (q : Ll2TxQueue) : q.Covers 0 := covers_iff.2 ⟨[], nil_prefix, rfl⟩

theorem Covers.first {rest : List ℕ} (h : q.Covers n) (hn : n ≠ 0)
    (ha : q.activeDescq = p :: rest) :
    ∃ l, l <+: rest ∧ n = q.used p + q.bdsOf l := by
  obtain ⟨l, hl, rfl⟩ := covers_iff.1 h
  rw [ha] at hl
  cases l with
  | nil => exact absurd rfl hn
  | cons d l =>
    obtain ⟨rfl, htail⟩ := cons_prefix_cons.1 hl
    exact ⟨l, htail, bdsOf_cons ..⟩

theorem Covers.ne_nil (h : q.Covers n) (hn : n ≠ 0) : q.activeDescq ≠ [] := by
  intro ha
  obtain ⟨l, hl, rfl⟩ := covers_iff.1 h
  rw [ha, prefix_nil] at hl
  exact hn (by rw [hl]; rfl)

/-! ## The invariant of the queue -/

/-- The descriptors are dealt out to the lists; `K` BDs were consumed, and the BDs in use and those
of the flushed packets follow. A chain of `2^16` elements has a room of zero in its 16-bit counter
and takes no packet. -/
structure Inv (q : Ll2TxQueue) (K flushed : ℕ) : Prop where
  mode : q.txqChain.mode = .pbl
  cnt : q.txqChain.cntType = .u16
  placed : q.placed.Perm (range q.txqChain.capacity)
  prod : q.txqChain.prod.idx = (K + (q.bdsOf q.inUse + flushed)) % 2 ^ 16
  cons : q.txqChain.cons.idx = K % 2 ^ 16
  le_capacity : q.bdsOf q.inUse + flushed ≤ q.txqChain.capacity
  lt : q.txqChain.capacity < 2 ^ 16 ∨ q.txqChain.capacity = 2 ^ 16 ∧ q.bdsOf q.inUse + flushed = 0

section

variable (h : q.Inv K flushed)

include h

theorem Inv.wrap_eq (x : ℕ) : q.txqChain.wrap x = x % 2 ^ 16 := by
  rw [ChainShape.wrap, h.cnt]
  rfl

/-- The invariant is about the chain, where the descriptors are, and the number of BDs. -/
theorem Inv.congr {flushed' : ℕ} (hc : q'.txqChain = q.txqChain) (hp : q'.placed.Perm q.placed)
    (hsum : q'.bdsOf q'.inUse + flushed' = q.bdsOf q.inUse + flushed) : q'.Inv K flushed' := by
  refine ⟨?_, ?_, ?_, ?_, ?_, ?_, ?_⟩
  all_goals rw [hc]
  · exact h.mode
  · exact h.cnt
  · exact hp.trans h.placed
  · exact hsum ▸ h.prod
  · exact h.cons
  · exact hsum.trans_le h.le_capacity
  · exact hsum ▸ h.lt

theorem Inv.nodup : q.placed.Nodup := h.placed.nodup_iff.2 nodup_range

/-- The two counters are as far apart as there are BDs. -/
theorem Inv.outstanding_eq : q.outstanding = q.bdsOf q.inUse + flushed := by
  have hlt : q.bdsOf q.inUse + flushed < 2 ^ 16 := by
    have := h.le_capacity
    rcases h.lt with hlt | ⟨-, h0⟩ <;> omega
  rw [outstanding, h.prod, h.cons, sub_mod_left, sub_mod_right,
    sub_of_le (Nat.le_add_right ..), Nat.add_sub_cancel_left, Nat.mod_eq_of_lt hlt]

/-- The descriptors outside `free_descq` are those in use. -/
theorem Inv.notFree_perm : q.notFree.Perm q.inUse := by
  have hnodup := h.nodup
  rw [Ll2TxQueue.placed, nodup_append] at hnodup
  obtain ⟨-, -, hdisj⟩ := hnodup
  have hfilter : (q.placed.filter fun d => d ∉ q.freeDescq) = q.inUse := by
    rw [Ll2TxQueue.placed, filter_append, filter_eq_nil_iff.2 fun d hd => by simp [hd],
      nil_append, filter_eq_self]
    intro d hd
    simpa using fun hf => hdisj d hf d hd rfl
  rw [← hfilter]
  exact (h.placed.filter _).symm

/-- What is left of the chain, as its 16-bit getter says. -/
theorem Inv.elemLeft_eq :
    qedChainGetElemLeft q.txqChain =
      (q.txqChain.capacity - (q.bdsOf q.inUse + flushed)) % 2 ^ 16 := by
  have hleft := elemLeft_of_ne
    (by simp [h.mode]) (by rw [h.wrap_eq]; exact h.prod) (by rw [h.wrap_eq]; exact h.cons)
    (Nat.le_add_right ..) (Nat.add_le_add_left h.le_capacity K)
  simp only [elemLeft, h.cnt, Nat.add_sub_cancel_left] at hleft
  exact hleft

end

/-- Packets move between the lists in use, and new ones come to the end of `active_descq`. -/
structure Moves (q q' : Ll2TxQueue) : Prop where
  chain : q'.txqChain = q.txqChain
  free : q'.freeDescq = q.freeDescq
  used : ∀ d, q'.used d = q.used d
  inUse : q'.inUse.Perm q.inUse
  active : q.activeDescq <+: q'.activeDescq
  completing : q'.bCompletingPacket = q.bCompletingPacket

theorem Moves.refl (q : Ll2TxQueue) : Moves q q := ⟨rfl, rfl, fun _ => rfl, .rfl, prefix_rfl, rfl⟩

/-- **Packets move between the lists in use.** -/
theorem Inv.move (h : q.Inv K flushed) (m : Moves q q') : q'.Inv K flushed := by
  refine h.congr m.chain ?_ ?_
  · rw [Ll2TxQueue.placed, m.free]
    exact m.inUse.append_left _
  · rw [bdsOf_perm _ m.inUse, bdsOf_congr fun d _ => m.used d]

/-- **A free descriptor is taken for a new packet** of `n` BDs, which are produced. -/
theorem Inv.take {free : List ℕ} (h : q.Inv K flushed) (hfree : q.freeDescq = p :: free)
    (hpos : 0 < n) (hroom : n ≤ qedChainGetElemLeft q.txqChain)
    (hc : q'.txqChain = produceN n q.txqChain) (hfree' : q'.freeDescq = free)
    (hused : ∀ d, q'.used d = if d = p then n else q.used d)
    (huse : q'.inUse.Perm (p :: q.inUse)) : q'.Inv K flushed := by
  rw [h.elemLeft_eq] at hroom
  have hnot : p ∉ q.inUse := by
    have hnodup := h.nodup
    rw [Ll2TxQueue.placed, hfree, cons_append, nodup_cons] at hnodup
    exact fun hp => hnodup.1 (mem_append_right _ hp)
  have hbds : q'.bdsOf q'.inUse = n + q.bdsOf q.inUse := by
    rw [bdsOf_perm _ huse, bdsOf_cons, hused, if_pos rfl]
    congr 1
    refine bdsOf_congr fun d hd => ?_
    rw [hused, if_neg fun he : d = p => hnot (he ▸ hd)]
  have hcap : q.txqChain.capacity < 2 ^ 16 := by
    rcases h.lt with hlt | ⟨hcap, h0⟩
    · exact hlt
    · omega
  rw [produceN_eq] at hc
  refine ⟨by rw [hc]; exact h.mode, by rw [hc]; exact h.cnt, ?_, ?_, by rw [hc]; exact h.cons, ?_,
    .inl (by rw [hc]; exact hcap)⟩
  · rw [hc, Ll2TxQueue.placed, hfree']
    refine (huse.append_left free).trans (perm_middle.trans ?_)
    have hperm := h.placed
    rwa [Ll2TxQueue.placed, hfree] at hperm
  · have hidx := nextSide_iterate_idx (by simp [h.mode])
      (h.prod.trans (h.wrap_eq _).symm) n
    rw [hc]
    refine hidx.trans ((h.wrap_eq _).trans ?_)
    congr 1
    omega
  · rw [hc]
    change _ ≤ q.txqChain.capacity
    omega

section GiveBack

variable {rest : List ℕ}

/-- The first active packet goes back to `free_descq`. -/
structure GivesBack (q q' : Ll2TxQueue) (p : ℕ) (rest : List ℕ) : Prop where
  active : q.activeDescq = p :: rest
  active' : q'.activeDescq = rest
  free : q'.freeDescq = q.freeDescq ++ [p]
  sending : q'.sendingDescq = q.sendingDescq
  cur : q'.curSendPacket = q.curSendPacket
  descq : q'.descqArray = q.descqArray

section

variable (g : GivesBack q q' p rest)

include g

theorem GivesBack.inUse_perm : q.inUse.Perm (p :: q'.inUse) := by
  rw [inUse, inUse, g.active, g.active', g.sending, g.cur, append_assoc, append_assoc]
  exact perm_middle

theorem GivesBack.bdsOf_inUse : q.bdsOf q.inUse = q.used p + q'.bdsOf q'.inUse := by
  rw [bdsOf_perm _ g.inUse_perm, bdsOf_cons]
  congr 1
  exact bdsOf_congr fun d _ => by rw [used, used, g.descq]

theorem GivesBack.placed_perm : q'.placed.Perm q.placed := by
  rw [placed, g.free, append_assoc]
  exact (g.inUse_perm.symm).append_left _

end

/-- **The first active packet is completed**: its BDs are consumed. -/
theorem Inv.complete (h : q.Inv K flushed) (g : GivesBack q q' p rest)
    (hc : q'.txqChain = consumeN (q.used p) q.txqChain) : q'.Inv (K + q.used p) flushed := by
  have hbds := g.bdsOf_inUse
  have hle := h.le_capacity
  rw [consumeN_eq] at hc
  refine ⟨by rw [hc]; exact h.mode, by rw [hc]; exact h.cnt,
    by rw [hc]; exact g.placed_perm.trans h.placed, ?_, ?_, ?_, ?_⟩
  · rw [hc]
    refine h.prod.trans ?_
    congr 1
    omega
  · have hidx := nextSide_iterate_idx (by simp [h.mode])
      (h.cons.trans (h.wrap_eq _).symm) (q.used p)
    rw [hc]
    exact hidx.trans (h.wrap_eq _)
  · rw [hc]
    change _ ≤ q.txqChain.capacity
    omega
  · rw [hc]
    rcases h.lt with hlt | ⟨hcap, h0⟩
    · exact .inl hlt
    · exact .inr ⟨hcap, by omega⟩

/-- **The first active packet is flushed**: its BDs stay in the chain. -/
theorem Inv.flush (h : q.Inv K flushed) (g : GivesBack q q' p rest)
    (hc : q'.txqChain = q.txqChain) : q'.Inv K (flushed + q.used p) := by
  refine h.congr hc g.placed_perm ?_
  have := g.bdsOf_inUse
  omega

end GiveBack

/-! ## The calls -/

theorem used_setBdSet (q : Ll2TxQueue) (p i : ℕ) (b : Ll2BdSet) (d : ℕ) :
    (q.setBdSet p i b).used d = q.used d := by
  simp only [setBdSet, used]
  by_cases he : d = p
  · subst he
    rw [update_self]
  · rw [update_of_ne he]

/-- What the loop over further fragments changes: it produces BDs and writes them down. -/
theorem setBdFrags_spec (p n fragIdx : ℕ) (q : Ll2TxQueue) :
    ∃ bds descq, setBdFrags p n fragIdx q =
        { q with txqChain := produceN n q.txqChain, bds := bds, descqArray := descq } ∧
      ∀ d, (descq d).bdUsed = q.used d := by
  induction n generalizing fragIdx q with
  | zero => exact ⟨q.bds, q.descqArray, rfl, fun d => rfl⟩
  | succ n ih =>
    obtain ⟨bds, descq, heq, hd⟩ := ih (fragIdx + 1) _
    exact ⟨bds, descq, heq, fun d => (hd d).trans (used_setBdSet ..)⟩

theorem notify_moves (q : Ll2TxQueue) : Moves q (qedLl2TxPacketNotify q) := by
  unfold qedLl2TxPacketNotify
  split
  · exact .refl q
  · rename_i p hcur
    split
    · exact .refl q
    · split
      · refine ⟨rfl, rfl, fun _ => rfl, ?_, prefix_rfl, rfl⟩
        simp only [inUse, hcur, toList_none, toList_some, append_nil, append_assoc]
        exact perm_append_comm.append_left _
      · refine ⟨rfl, rfl, fun _ => rfl, ?_, prefix_append .., rfl⟩
        simp only [inUse, hcur, toList_none, toList_some, append_nil, nil_append, ← append_assoc]
        exact perm_append_comm.append_right _

theorem setFragment_moves {addr nbytes : ℕ}
    (h : qedLl2SetFragmentOfTxPacket q addr nbytes = .ok q') :
    Moves q q' ∧ q'.curSendPacket = q.curSendPacket ∧ q.curSendPacket.isSome := by
  unfold qedLl2SetFragmentOfTxPacket at h
  split at h
  · cases h
  · rename_i p hcur
    dsimp only at h
    split at h
    · cases h
    · obtain rfl := Except.ok.inj h
      exact ⟨⟨rfl, rfl, used_setBdSet _ _ _ _, .rfl, prefix_rfl, rfl⟩, rfl, by simp [hcur]⟩

variable {pkt : Ll2TxPktInfo}

/-- A packet that `qed_ll2_prepare_tx_packet` accepts: there was no current packet, a descriptor
was free, and there was room for its BDs. -/
theorem prepare_ok {conn : Ll2Conn} {notifyFw : Bool}
    (h : qedLl2PrepareTxPacket conn q pkt notifyFw = .ok q') :
    q.curSendPacket = none ∧ pkt.numOfBds ≤ qedChainGetElemLeft q.txqChain ∧
      ∃ p free, q.freeDescq = p :: free ∧ q' = qedLl2TxPacketNotify
        (qedLl2PrepareTxPacketSetBd (qedLl2PrepareTxPacketSet q p pkt notifyFw) p pkt) := by
  unfold qedLl2PrepareTxPacket at h
  split at h
  · cases h
  · split at h
    · cases h
    · rename_i hcur
      split at h
      · cases h
      · rename_i p free hfree
        split at h
        · cases h
        · rename_i hroom
          exact ⟨by simpa using hcur, Nat.le_of_not_lt hroom, p, free, hfree,
            (Except.ok.inj h).symm⟩

/-- The BDs of a packet of at least one are produced. -/
theorem setBd_spec (hfrag : q.curSendFragNum = 1) (hpos : 1 ≤ pkt.numOfBds) (p : ℕ) :
    ∃ bds descq, qedLl2PrepareTxPacketSetBd q p pkt =
        { q with txqChain := produceN pkt.numOfBds q.txqChain, bds := bds, descqArray := descq } ∧
      ∀ d, (descq d).bdUsed = q.used d := by
  obtain ⟨n, hn⟩ := Nat.exists_eq_add_of_le' hpos
  unfold qedLl2PrepareTxPacketSetBd
  rw [hfrag, hn]
  obtain ⟨bds, descq, heq, hd⟩ := setBdFrags_spec p n 1 _
  exact ⟨bds, descq, heq, hd⟩

theorem Inv.prepare {conn : Ll2Conn} {notifyFw : Bool} (h : q.Inv K flushed)
    (hpos : 1 ≤ pkt.numOfBds) (hok : qedLl2PrepareTxPacket conn q pkt notifyFw = .ok q') :
    q'.Inv K flushed ∧ q.activeDescq <+: q'.activeDescq ∧
      (∀ d ∈ q.activeDescq, q'.used d = q.used d) ∧
      q'.bCompletingPacket = q.bCompletingPacket := by
  obtain ⟨hcur, hroom, p, free, hfree, rfl⟩ := prepare_ok hok
  obtain ⟨bds, descq, heq, hd⟩ :=
    setBd_spec (q := qedLl2PrepareTxPacketSet q p pkt notifyFw) rfl hpos p
  have hm := notify_moves (qedLl2PrepareTxPacketSetBd (qedLl2PrepareTxPacketSet q p pkt notifyFw)
    p pkt)
  rw [heq] at hm ⊢
  have hused : ∀ d, (descq d).bdUsed = if d = p then pkt.numOfBds else q.used d :=
    fun d => (hd d).trans (by
      simp only [used, qedLl2PrepareTxPacketSet, update_apply]
      split <;> rfl)
  have htaken : Inv { qedLl2PrepareTxPacketSet q p pkt notifyFw with
      txqChain := produceN pkt.numOfBds q.txqChain, bds := bds,
      descqArray := descq } K flushed := by
    refine h.take hfree hpos hroom rfl (by simp [qedLl2PrepareTxPacketSet, hfree]) hused ?_
    simp only [inUse, qedLl2PrepareTxPacketSet, hcur, toList_none, toList_some, append_nil]
    exact perm_append_singleton ..
  refine ⟨htaken.move hm, hm.active, fun d hda => ?_, hm.completing⟩
  refine (hm.used d).trans ((hused d).trans (if_neg ?_))
  rintro rfl
  have hnodup := h.nodup
  rw [Ll2TxQueue.placed, hfree, cons_append, nodup_cons] at hnodup
  exact hnodup.1 (mem_append_right _ (by simp [inUse, hda]))

/-- The end of a turn with BDs of whole packets: the first packet was completed, and the rest
covers whole packets again. -/
theorem Inv.turn (h : q.Inv K flushed) (hn : n ≠ 0) (hcov : q.Covers n) :
    ∃ q' left cb, qedLl2TxqCompletionTurn q n = (q', .callback left cb) ∧
      (∃ K', q'.Inv K' flushed) ∧ q'.bCompletingPacket = true ∧ q'.Covers left ∧
      q'.curSendPacket = q.curSendPacket := by
  unfold qedLl2TxqCompletionTurn
  rw [if_neg hn]
  cases ha : q.activeDescq with
  | nil => exact absurd ha (hcov.ne_nil hn)
  | cons p rest =>
    obtain ⟨l, hl, hsum⟩ := hcov.first hn ha
    have hle : ¬ n < (q.descqArray p).bdUsed := by
      change ¬ n < q.used p
      omega
    dsimp only
    rw [if_neg hle]
    refine ⟨_, _, _, rfl, ⟨K + q.used p, ?_⟩, rfl, covers_iff.2 ⟨l, hl, ?_⟩, rfl⟩
    · exact h.complete ⟨ha, rfl, rfl, rfl, rfl, rfl⟩ rfl
    · rw [hsum]
      exact (Nat.add_sub_cancel_left ..).symm

theorem flushTurn_cons (conn : Ll2Conn) {rest : List ℕ} (ha : q.activeDescq = p :: rest) :
    GivesBack q (qedLl2TxqFlushTurn conn q).1 p rest ∧
      (qedLl2TxqFlushTurn conn q).1.txqChain = q.txqChain ∧
      (qedLl2TxqFlushTurn conn q).1.bCompletingPacket = q.bCompletingPacket := by
  simp only [qedLl2TxqFlushTurn, ha]
  split
  · exact ⟨⟨ha, rfl, rfl, rfl, rfl, rfl⟩, rfl, rfl⟩
  · exact ⟨⟨ha, rfl, rfl, rfl, rfl, rfl⟩, rfl, rfl⟩

end Ll2TxQueue

/-! ## The system -/

namespace Ll2TxSys

open Ll2TxQueue

/-- A packet has at least one BD. A completion reads a consumer value that covers whole
packets of `active_descq`, unless it finds nothing to complete or another completion going on. A
flush does not take packets away from a completion that still has BDs to complete. -/
def WholePackets (s : Ll2TxSys) : Ll2TxStep → Prop
  | .prepareTxPacket pkt _ => 1 ≤ pkt.numOfBds
  | .completion =>
    s.q.bCompletingPacket = true ∨ s.q.activeDescq = [] ∨ s.q.Covers s.q.newBds
  | .flushTurn => ∀ numBds ∈ s.completions, numBds = 0
  | .fwWrite _ | .setFragment _ _ | .fragNotify | .completionTurn _ => True

instance (s : Ll2TxSys) (a : Ll2TxStep) : Decidable (s.WholePackets a) := by
  unfold WholePackets
  cases a <;> infer_instance

/-- What the transmit queue looks like between two steps. -/
structure Consistent (s : Ll2TxSys) : Prop where
  /-- Each descriptor is in exactly one place, once. -/
  placed : (s.q.freeDescq ++ s.q.sendingDescq ++ s.q.activeDescq ++ s.q.curSendPacket.toList).Perm
    (range s.q.txqChain.capacity)
  /-- The BDs of the chain are those of the packets in use and those that were flushed. -/
  outstanding : s.q.outstanding = s.q.bdsOf s.q.notFree + s.flushedBds
  /-- No completion is going on unless the flag says so, and then only one. -/
  completing : s.q.bCompletingPacket = false ∧ s.completions = [] ∨
    s.q.bCompletingPacket = true ∧ ∃ numBds, s.completions = [numBds]
  /-- A thread that adds a fragment finds its packet when it has the lock. -/
  sender : s.fragPending = true → s.q.curSendPacket.isSome = true

/-- At most one completion is going on, with whole packets ahead, and the flag says so. -/
def Completing (s : Ll2TxSys) : Prop :=
  s.q.bCompletingPacket = false ∧ s.completions = [] ∨
    s.q.bCompletingPacket = true ∧ ∃ numBds, s.completions = [numBds] ∧ s.q.Covers numBds

structure Inv (s : Ll2TxSys) : Prop where
  queue : ∃ K, s.q.Inv K s.flushedBds
  completing : s.Completing
  sender : s.fragPending = true → s.q.curSendPacket.isSome = true

theorem Inv.consistent {s : Ll2TxSys} (h : s.Inv) : s.Consistent := by
  obtain ⟨⟨K, hq⟩, hcomp, hsender⟩ := h
  refine ⟨?_, ?_, ?_, hsender⟩
  · have hplaced := hq.placed
    simp only [placed, inUse, ← append_assoc] at hplaced
    exact hplaced
  · rw [hq.outstanding_eq, bdsOf_perm _ hq.notFree_perm]
  · rcases hcomp with hnone | ⟨hflag, numBds, hone, -⟩
    · exact .inl hnone
    · exact .inr ⟨hflag, numBds, hone⟩

variable {s s' : Ll2TxSys}

theorem Completing.mono (h : s.Completing)
    (hflag : s'.q.bCompletingPacket = s.q.bCompletingPacket)
    (ha : s.q.activeDescq <+: s'.q.activeDescq)
    (hu : ∀ d ∈ s.q.activeDescq, s'.q.used d = s.q.used d)
    (hc : s'.completions = s.completions) : s'.Completing := by
  rw [Completing, hflag, hc]
  rcases h with hnone | ⟨hset, numBds, hone, hcov⟩
  · exact .inl hnone
  · exact .inr ⟨hset, numBds, hone, hcov.mono ha hu⟩

theorem Inv.moves (h : s.Inv) (m : Moves s.q s'.q) (hc : s'.completions = s.completions)
    (hf : s'.flushedBds = s.flushedBds)
    (hs : s'.fragPending = true → s'.q.curSendPacket.isSome = true) : s'.Inv := by
  obtain ⟨⟨K, hinv⟩, hcomp, -⟩ := h
  refine ⟨⟨K, ?_⟩, hcomp.mono m.completing m.active (fun d _ => m.used d) hc, hs⟩
  rw [hf]
  exact hinv.move m

theorem Inv.afterTurn {K n : ℕ} (hq : s.q.Inv K s.flushedBds) (hcov : s.q.Covers n)
    (hs : s.fragPending = true → s.q.curSendPacket.isSome = true) :
    (s.afterTurn [] (qedLl2TxqCompletionTurn s.q n)).Inv := by
  by_cases hn : n = 0
  · subst hn
    exact ⟨⟨K, { hq with }⟩, .inl ⟨rfl, rfl⟩, hs⟩
  · obtain ⟨q', left, cb, heq, ⟨K', hq'⟩, hflag, hcov', hcur⟩ := hq.turn hn hcov
    rw [heq]
    exact ⟨⟨K', hq'⟩, .inr ⟨hflag, left, rfl, hcov'⟩, fun hp => hcur ▸ hs hp⟩

theorem Inv.completion (h : s.Inv) (hok : s.WholePackets .completion) :
    (s.step .completion).Inv := by
  change (s.afterTurn s.completions (qedLl2TxqCompletion s.q)).Inv
  obtain ⟨⟨K, hq⟩, ⟨hflag, hnone⟩ | ⟨hflag, numBds, hone, hcov⟩, hs⟩ := h
  · rw [qedLl2TxqCompletion, hflag, hnone]
    rcases hok with hset | hempty | hcov
    · rw [hflag] at hset
      cases hset
    · by_cases hn : s.q.newBds = 0
      · rw [hn]
        exact .afterTurn hq (covers_zero _) hs
      · -- the status block runs ahead of an empty queue: the call returns at once
        rw [qedLl2TxqCompletionTurn, if_neg hn, hempty]
        exact ⟨⟨K, hq⟩, .inl ⟨hflag, rfl⟩, hs⟩
    · exact .afterTurn hq hcov hs
  · rw [qedLl2TxqCompletion, hflag]
    exact ⟨⟨K, hq⟩, .inr ⟨hflag, numBds, hone, hcov⟩, hs⟩

theorem Inv.completionTurn (h : s.Inv) (i : ℕ) : (s.step (.completionTurn i)).Inv := by
  simp only [step]
  obtain ⟨⟨K, hq⟩, ⟨hflag, hnone⟩ | ⟨hflag, numBds, hone, hcov⟩, hs⟩ := h
  · rw [hnone]
    exact ⟨⟨K, hq⟩, .inl ⟨hflag, hnone⟩, hs⟩
  · rw [hone]
    cases i with
    | zero => exact .afterTurn hq hcov hs
    | succ i => exact ⟨⟨K, hq⟩, .inr ⟨hflag, numBds, hone, hcov⟩, hs⟩

theorem Inv.flushTurn (h : s.Inv) (hok : s.WholePackets .flushTurn) : (s.step .flushTurn).Inv := by
  obtain ⟨⟨K, hq⟩, hcomp, hs⟩ := h
  cases ha : s.q.activeDescq with
  | nil =>
    simp only [step, qedLl2TxqFlushTurn, ha]
    exact ⟨⟨K, hq⟩, hcomp, hs⟩
  | cons p rest =>
    obtain ⟨g, hc, hflag⟩ := flushTurn_cons s.conn ha
    have hflushed : (s.step .flushTurn).flushedBds = s.flushedBds + s.q.used p := by
      simp [step, ha, used]
    refine ⟨⟨K, by rw [hflushed]; exact hq.flush g hc⟩, ?_, fun hp => ?_⟩
    swap
    · change (qedLl2TxqFlushTurn s.conn s.q).1.curSendPacket.isSome = true
      rw [g.cur]
      exact hs hp
    rw [Completing]
    change (qedLl2TxqFlushTurn s.conn s.q).1.bCompletingPacket = false ∧ s.completions = [] ∨ _
    rw [hflag]
    rcases hcomp with hnone | ⟨hset, numBds, hone, -⟩
    · exact .inl hnone
    · have hzero : numBds = 0 := hok numBds (by rw [hone]; exact mem_singleton_self _)
      refine .inr ⟨hflag.trans hset, numBds, hone, ?_⟩
      rw [hzero]
      exact covers_zero _

theorem Inv.step (h : s.Inv) {a : Ll2TxStep} (hok : s.WholePackets a) : (s.step a).Inv := by
  cases a with
  | fwWrite v =>
    exact h.moves ⟨rfl, rfl, fun _ => rfl, .rfl, prefix_rfl, rfl⟩ rfl rfl h.sender
  | prepareTxPacket pkt notifyFw =>
    simp only [Ll2TxSys.step]
    split
    · exact h
    · rename_i q' hprep
      obtain ⟨⟨K, hq⟩, hcomp, hs⟩ := h
      obtain ⟨hq', ha, hu, hflag⟩ := hq.prepare hok hprep
      refine ⟨⟨K, hq'⟩, hcomp.mono hflag ha hu rfl, fun hp => ?_⟩
      -- no packet is accepted while a fragment is being added to another
      have hcur := hs hp
      rw [(prepare_ok hprep).1] at hcur
      cases hcur
  | setFragment addr nbytes =>
    simp only [Ll2TxSys.step]
    split
    · exact h
    · split
      · exact h
      · rename_i q' hset
        obtain ⟨hm, hcur, hsome⟩ := setFragment_moves hset
        exact h.moves hm rfl rfl fun _ => hcur ▸ hsome
  | fragNotify =>
    simp only [Ll2TxSys.step]
    split
    · exact h.moves (notify_moves s.q) rfl rfl nofun
    · exact h
  | completion => exact h.completion hok
  | completionTurn i => exact h.completionTurn i
  | flushTurn => exact h.flushTurn hok

theorem inv_establish {env : DmaEnv} {txNumDesc : ℕ} {c : Chain} {conn : Ll2Conn} {q : Ll2TxQueue}
    (hc : qedChainAlloc env (ll2TxChainParams txNumDesc) = .ok c)
    (hq : q.txqChain.toChainInfo = c.toChainInfo) : (establish conn q).Inv := by
  obtain ⟨-, -, hsan, hpbl⟩ := alloc_ok hc
  have hshape := (linked_of_allocPbl rfl rfl hpbl).1
  rw [← hq] at hshape
  have hsize := (sanityCheck_le hsan).1
  have hcap : q.txqChain.capacity ≤ 2 ^ 16 := by
    have hper : elemsPerPage QED_CHAIN_PAGE_SIZE 16 = 256 := by decide
    change elemsPerPage QED_CHAIN_PAGE_SIZE 16 * _ ≤ 2 ^ 16 at hsize
    rw [hper] at hsize
    have heq : q.txqChain.capacity = usableElemsPerPage 16 QED_CHAIN_PAGE_SIZE .pbl % 2 ^ 16 *
          (ll2TxChainParams txNumDesc).pageCnt % 2 ^ 32 := by
      rw [hshape]
      rfl
    rw [heq]
    exact (Nat.mod_le _ _).trans hsize
  have hreset : qedChainReset q.txqChain = { q.txqChain with
      prod := q.txqChain.resetSide q.txqChain.prod
      cons := q.txqChain.resetSide q.txqChain.cons } := by
    have huse : q.txqChain.intendedUse = .toConsumeProduce := by rw [hshape]; rfl
    simp [qedChainReset, huse]
  have hchain : (establish conn q).q.txqChain = { q.txqChain with
      prod := q.txqChain.resetSide q.txqChain.prod
      cons := q.txqChain.resetSide q.txqChain.cons } := hreset
  refine ⟨⟨0, ?_⟩, .inl ⟨rfl, rfl⟩, nofun⟩
  refine ⟨by rw [hchain]; change q.txqChain.mode = _; rw [hshape]; rfl,
    by rw [hchain]; change q.txqChain.cntType = _; rw [hshape]; rfl, ?_, by rw [hchain]; rfl,
    by rw [hchain]; rfl, Nat.zero_le _, ?_⟩
  · rw [hchain]
    change (range q.txqChain.capacity ++ []).Perm (range q.txqChain.capacity)
    rw [append_nil]
  · rw [hchain]
    exact hcap.lt_or_eq.imp_right fun he => ⟨he, rfl⟩

/-- **The transmit queue stays consistent.** In every interleaving of the calls on an established
connection, with packets of at least one BD and consumer values that cover whole packets: each
descriptor is in one of the lists or the current packet, the BDs in the chain are those of the
packets in use and those of the packets that were flushed, and `b_completing_packet` is set exactly
while a completion is in its callback. -/
theorem consistent_run {env : DmaEnv} {txNumDesc : ℕ} {c : Chain} {conn : Ll2Conn}
    {q : Ll2TxQueue} {l : List Ll2TxStep}
    (hc : qedChainAlloc env (ll2TxChainParams txNumDesc) = .ok c)
    (hq : q.txqChain.toChainInfo = c.toChainInfo)
    (h : Meets WholePackets step (establish conn q) l) :
    (l.foldl step (establish conn q)).Consistent :=
  (h.invariant (P := Inv) (fun _ _ hs hok => hs.step hok) (inv_establish hc hq)).consistent

def zeroedQueue (c : Chain) : Ll2TxQueue :=
  { txqChain := c, bds := fun _ => ⟨0, 0, false, 0⟩, fwCons := 0, activeDescq := []
    freeDescq := [], sendingDescq := [], descqArray := fun _ => ⟨0, false, 0, fun _ => ⟨0, 0, 0⟩⟩
    curSendPacket := none, curCompletingPacket := ⟨0, false, 0, fun _ => ⟨0, 0, 0⟩⟩
    curCompletingBdIdx := 0, bdsIdx := 0, curSendFragNum := 0, bCompletingPacket := false }

/-- The chain of a connection with 8 descriptors, which is one page of BDs. -/
def smallChain : Except AllocErr Chain :=
  qedChainAlloc (.backToBack 0x10000 QED_CHAIN_PAGE_SIZE) (ll2TxChainParams 8)

/-- A packet of two BDs is handed to the firmware. -/
def sendTwo : List Ll2TxStep :=
  [.prepareTxPacket ⟨7, 0x1000, 60, 2⟩ true, .setFragment 0x2000 100, .fragNotify]

/-- Two packets are sent and the first one is completed; its callback sends another packet; and the
rest is flushed. -/
def sendCompleteFlush : List Ll2TxStep :=
  sendTwo ++ [.prepareTxPacket ⟨8, 0x3000, 60, 1⟩ true, .fwWrite 2, .completion,
    .prepareTxPacket ⟨9, 0x4000, 60, 1⟩ false, .completionTurn 0, .flushTurn]

def runSmall (l : List Ll2TxStep) (c : Chain) : Ll2TxSys :=
  l.foldl step (establish ⟨3, false⟩ (zeroedQueue c))

theorem consistent_sendCompleteFlush :
    ∃ c, smallChain = .ok c ∧ (runSmall sendCompleteFlush c).Consistent := by
  have hrun : smallChain.map (fun c => decide (Meets WholePackets step
      (establish ⟨3, false⟩ (zeroedQueue c)) sendCompleteFlush)) = .ok true := by decide +kernel
  obtain ⟨c, hc, hmeets⟩ := exists_of_map_ok hrun
  exact ⟨c, hc, consistent_run hc rfl (of_decide_eq_true hmeets.symm)⟩

/-- A flush leaves the BDs of its packets in the chain: two are outstanding, none is in use. A
packet of no BDs still takes one. And a consumer value within a packet makes the completion return
with the flag set and the packet on no list. -/
theorem not_consistent_sendTwo :
    smallChain.map (fun c =>
      let s := runSmall (sendTwo ++ [.flushTurn]) c
      (s.q.outstanding, s.q.bdsOf s.q.notFree)) = .ok (2, 0) ∧
    smallChain.map (fun c =>
      let s := runSmall [.prepareTxPacket ⟨7, 0x1000, 60, 0⟩ true] c
      (s.q.outstanding, s.q.bdsOf s.q.notFree)) = .ok (1, 0) ∧
    smallChain.map (fun c =>
      let s := runSmall (sendTwo ++ [.fwWrite 1, .completion]) c
      (s.completions, s.q.bCompletingPacket, decide (0 ∈ s.q.placed))) = .ok ([], true, false) := by
  decide +kernel

end Ll2TxSys

end FastLinQ.Qed
