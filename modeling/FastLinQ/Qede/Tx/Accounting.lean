import FastLinQ.Qed.Chain.Account
import FastLinQ.Qede.Tx.System

/-!
# Every BD and every mapping of a packet

The invariant of a transmit queue over a run, and what follows from it for the packets: as many BDs
are produced as the first one says, at most one more than a socket buffer has fragments, and a
release consumes as many and removes the mappings that were made.
-/

namespace FastLinQ.Qede

open FastLinQ.Qed Cells Run Function List Nat Bool Word TxStep TxSys DmaOp TxQueue ChainShape

/-! ## The invariant -/

structure Job where
  skb : Skb
  t : XmitType
  addr : ℕ → DmaAddr

def Job.image (j : Job) : List TxBd := j.skb.image j.t j.addr

def Job.slot (j : Job) : SwTxBd := ⟨some j.skb, j.skb.split j.t⟩

def Job.sent (j : Job) : Sent := ⟨some j.skb, j.image.length, j.image.length, j.skb.mappings j.addr⟩

def bdsOf (jobs : List Job) : List TxBd := jobs.flatMap Job.image

theorem bdsOf_append (jobs : List Job) (j : Job) : bdsOf (jobs ++ [j]) = bdsOf jobs ++ j.image := by
  rw [bdsOf, flatMap_append]
  simp only [flatMap_cons, flatMap_nil, append_nil]
  rfl

/-- **The queue in a run**: the consumer has handed out `K` elements, and `jobs` are in flight. -/
structure TxInv (maxSkbFrags : ℕ) (base : ℕ → ℕ) (s : TxSys) (jobs : List Job) (K : ℕ) : Prop where
  ring : TxRing s.q.txPbl base
  prod : PblAt s.q.txPbl base s.q.txPbl.prod (K + (bdsOf jobs).length)
  cons : PblAt s.q.txPbl base s.q.txPbl.cons K
  bds : Holds (s.q.txPbl.elemAddr base) s.q.bds K (bdsOf jobs)
  le_capacity : (bdsOf jobs).length ≤ s.q.txPbl.capacity
  room : s.stopped = false → (bdsOf jobs).length + (maxSkbFrags + 1) ≤ s.q.txPbl.capacity
  bdProd : s.q.bdProd = s.q.txPbl.prod.idx
  num_pos : 0 < s.q.numTxBuffers
  few : jobs.length ≤ s.q.numTxBuffers
  slots : Holds (· % s.q.numTxBuffers) s.q.skbs s.released.length
    (jobs.map Job.slot ++ replicate (s.q.numTxBuffers - jobs.length) .empty)
  swTxCons : s.q.swTxCons = s.released.length % s.q.numTxBuffers
  swTxProd : s.q.swTxProd = s.sent.length % s.q.numTxBuffers
  le_sent : s.released.length ≤ s.sent.length
  sent : s.sent.drop s.released.length = jobs.map Job.sent

section Inv

variable {M K : ℕ} {base : ℕ → ℕ} {s : TxSys} {jobs : List Job}

theorem TxInv.length_sent (h : TxInv M base s jobs K) :
    s.sent.length = s.released.length + jobs.length := by
  have hlen := congrArg length h.sent
  have hle := h.le_sent
  rw [length_drop, length_map] at hlen
  omega

theorem elemLeft_eq_sub {c : Chain} {n : ℕ} (T : TxRing c base)
    (hp : PblAt c base c.prod (K + n)) (hc : PblAt c base c.cons K)
    (hn : n ≤ c.capacity) : qedChainGetElemLeft c = c.capacity - n := by
  have hleft := elemLeft_of_ne (by simp [T.mode]) hp.idx hc.idx (Nat.le_add_right K n)
    (Nat.add_le_add_left hn K)
  have hlt := T.capacity_lt
  simp only [Nat.add_sub_cancel_left, elemLeft, T.cnt] at hleft
  exact hleft.trans (mod_eq_of_lt (show c.capacity - n < 2 ^ 16 by omega))

section

variable (h : TxInv M base s jobs K)

include h

section

variable (hfree : jobs.length < s.q.numTxBuffers)

include hfree

/-- A free slot is behind those in use. -/
theorem TxInv.slots_split :
    Holds (· % s.q.numTxBuffers) s.q.skbs s.released.length (jobs.map Job.slot ++
      .empty :: replicate (s.q.numTxBuffers - (jobs.length + 1)) .empty) := by
  have hslots := h.slots
  rwa [show s.q.numTxBuffers - jobs.length =
    s.q.numTxBuffers - (jobs.length + 1) + 1 by omega] at hslots

theorem TxInv.setSlot (b : SwTxBd) :
    Holds (· % s.q.numTxBuffers) (update s.q.skbs s.q.swTxProd b) s.released.length
      (jobs.map Job.slot ++ b :: replicate (s.q.numTxBuffers - (jobs.length + 1)) .empty) := by
  have hset := (h.slots_split hfree).set (b := b) (apart_mod _) (by
    rw [length_map, length_replicate]
    omega)
  rwa [length_map, ← h.length_sent, ← h.swTxProd] at hset

theorem TxInv.slot_empty : s.q.skbs s.q.swTxProd = .empty := by
  have hslot := (holds_append.1 (h.slots_split hfree)).2.1
  rw [length_map, ← h.length_sent] at hslot
  rw [h.swTxProd]
  exact hslot

/-! ## Steps -/

end

end

variable {Q : TxQueue}

theorem TxInv.takenBack (h : TxInv M base s jobs K) (hfree : jobs.length < s.q.numTxBuffers)
    (hstop : s.stopped = false) {img : List TxBd} {ops : List DmaOp}
    (hQ : TakenBack s.q Q base (K + (bdsOf jobs).length) img ops) (himg : img.length ≤ M + 1) :
    TxInv M base { s with q := Q } jobs K := by
  have hroom := h.room hstop
  have hslots := h.setSlot hfree .empty
  rw [← replicate_succ, show s.q.numTxBuffers - (jobs.length + 1) + 1 =
    s.q.numTxBuffers - jobs.length by omega] at hslots
  rw [hQ.eq]
  exact { h with
    prod := h.prod.withElem
    bds := h.bds.write h.ring.apart le_rfl (by omega)
    slots := hslots }

structure HandedOver (q Q : TxQueue) (base : ℕ → ℕ) (P : ℕ) (j : Job) : Prop where
  chain : Q.txPbl = produceN j.image.length q.txPbl
  bds : Q.bds = write (q.txPbl.elemAddr base) q.bds P j.image
  skbs : Q.skbs = update q.skbs q.swTxProd j.slot
  swTxCons : Q.swTxCons = q.swTxCons
  swTxProd : Q.swTxProd = (q.swTxProd + 1) % q.numTxBuffers
  numTxBuffers : Q.numTxBuffers = q.numTxBuffers
  bdProd : Q.bdProd = Q.txPbl.prod.idx
  dma : Q.dma = q.dma ++ (j.skb.mappings j.addr).map .map

variable {q : TxQueue} {skb : Skb}

theorem HandedOver.eq {P : ℕ} {j : Job} (h : HandedOver q Q base P j) :
    Q = { q with
      txPbl := produceN j.image.length q.txPbl
      bds := write (q.txPbl.elemAddr base) q.bds P j.image
      skbs := update q.skbs q.swTxProd j.slot
      swTxProd := (q.swTxProd + 1) % q.numTxBuffers
      bdProd := (produceN j.image.length q.txPbl).prod.idx
      dma := q.dma ++ (j.skb.mappings j.addr).map .map } :=
  TxQueue.ext h.chain h.bds h.skbs h.swTxCons h.swTxProd h.numTxBuffers (h.chain ▸ h.bdProd) h.dma

theorem handedOver_of_sent {P : ℕ} (T : TxRing q.txPbl base)
    (h : PblAt q.txPbl base q.txPbl.prod P) {map : ℕ → Option DmaAddr} {t : XmitType}
    (hslot : q.skbs q.swTxProd = .empty) (hnr : skb.nrFrags < 2 ^ 7)
    (hfate : skb.fate t map = .sent) :
    (xmitSkb map skb t q).1 = true ∧
      HandedOver q (xmitSkb map skb t q).2 base P ⟨skb, t, addrOf map⟩ := by
  have hspec := fate_spec skb t map
  rw [hfate] at hspec
  obtain ⟨hmap₀, hlong, hmap⟩ := hspec
  rw [xmitSkb_sent T h hmap₀ hmap hlong hnr]
  refine ⟨rfl, ⟨rfl, rfl, ?_, rfl, rfl, rfl, rfl, ?_⟩⟩
  · change update q.skbs q.swTxProd _ = _
    rw [hslot]
    rfl
  · change q.dma ++ [_] ++ _ = q.dma ++ _
    rw [append_assoc]
    rfl

variable {j : Job}

theorem TxInv.handedOver (h : TxInv M base s jobs K) (hfree : jobs.length < s.q.numTxBuffers)
    (hstop : s.stopped = false) (hQ : HandedOver s.q Q base (K + (bdsOf jobs).length) j)
    (himg : j.image.length ≤ M + 1) :
    TxInv M base
      { s with
        q := Q
        stopped := decide (qedChainGetElemLeft Q.txPbl < M + 1)
        sent := s.sent ++ [j.sent] } (jobs ++ [j]) K := by
  have hroom := h.room hstop
  have hlen : (bdsOf (jobs ++ [j])).length = (bdsOf jobs).length + j.image.length := by
    rw [bdsOf_append, length_append]
  have hprod := h.prod.iterate h.ring.ring h.ring.mode j.image.length
  rw [add_assoc, ← hlen] at hprod
  rw [hQ.eq, produceN_eq]
  have hleft : _ = s.q.txPbl.capacity - _ := elemLeft_eq_sub (c := { s.q.txPbl with
    prod := (nextSide s.q.txPbl)^[j.image.length] s.q.txPbl.prod }) h.ring hprod h.cons
    (by change _ ≤ s.q.txPbl.capacity; omega)
  refine { h with
    prod := hprod
    bds := ?_
    le_capacity := ?_
    room := fun hopen => ?_
    bdProd := rfl
    few := ?_
    slots := ?_
    swTxProd := ?_
    le_sent := ?_
    sent := ?_ }
  · rw [bdsOf_append]
    exact holds_append.2 ⟨h.bds.write h.ring.apart le_rfl (by omega),
      holds_write h.ring.apart (by omega)⟩
  · change _ ≤ s.q.txPbl.capacity
    omega
  · have hge := (not_lt.1 (of_decide_eq_false hopen)).trans hleft.le
    change _ ≤ s.q.txPbl.capacity
    omega
  · rw [length_append]
    exact hfree
  · rw [map_append, length_append, append_assoc]
    exact h.setSlot hfree j.slot
  · rw [length_append]
    rw [h.swTxProd, mod_add_mod]
    rfl
  · rw [length_append]
    exact h.le_sent.trans (Nat.le_add_right ..)
  · rw [drop_append_of_le_length h.le_sent, h.sent, map_append]
    rfl

/-! ## Records -/

theorem filterMap_mapped (l : List DmaMapping) : (l.map .map).filterMap mapped? = l := by
  rw [filterMap_map]
  exact filterMap_some

theorem filterMap_unmapped (l : List DmaMapping) :
    (l.map .unmap).filterMap unmapped? = l := by
  rw [filterMap_map]
  exact filterMap_some

/-- The distance of two indices. -/
theorem sub_wrap {i : ChainShape} {k n : ℕ} (hc : i.cntType = .u16) (hn : n < 2 ^ 16) :
    Word.sub 16 (i.wrap (k + n)) (i.wrap k) = n := by
  simp only [wrap, hc, ChainCntType.bits]
  rw [sub_mod_left, sub_mod_right, sub_of_le (le_add_right k n),
    Nat.add_sub_cancel_left, mod_eq_of_lt hn]

theorem Job.exists_image (j : Job) : ∃ b l, j.image = b :: l ∧ b.nbds = j.image.length := by
  obtain ⟨b, l, hbl, -, -⟩ := exists_linearBds j.skb j.t (j.addr 0)
  refine ⟨_, _, show j.image = _ by
    rw [Job.image, Skb.image, hbl, append_assoc, cons_append, numbered], ?_⟩
  rw [Job.image, Skb.image, length_numbered, hbl, append_assoc, cons_append, length_cons]

theorem sentPkt_eq {q Q : TxQueue} {P : ℕ} (T : TxRing q.txPbl base)
    (h : PblAt q.txPbl base q.txPbl.prod P) (hQ : HandedOver q Q base P j)
    (himg : j.image.length ≤ q.txPbl.capacity) : q.sentPkt Q = j.sent := by
  have hlt := T.capacity_lt
  have haddr : (qedChainProduce q.txPbl).1 = q.txPbl.elemAddr base P := (h.next T.ring T.mode).1
  have hidx : Q.txPbl.prod.idx = q.txPbl.wrap (P + j.image.length) := by
    rw [hQ.chain, produceN_eq]
    exact (h.iterate T.ring T.mode _).idx
  have hnbds : (Q.bds (q.txPbl.elemAddr base P)).nbds = j.image.length := by
    obtain ⟨b, l, hbl, hb⟩ := j.exists_image
    have hholds := holds_write (m := q.bds) (k := P) T.apart himg
    rw [← hQ.bds, hbl] at hholds
    rw [hholds.1, hb]
  have hops : q.opsSince Q = (j.skb.mappings j.addr).map .map := by
    rw [opsSince, hQ.dma, drop_left]
  simp only [sentPkt, Job.sent, hops, filterMap_mapped, haddr, hnbds, hidx, h.idx,
    sub_wrap T.cnt (show j.image.length < 2 ^ 16 by omega), hQ.skbs, update_self, Job.slot]

def Job.unmaps (j : Job) : List DmaOp :=
  .unmap ⟨.single, j.addr 0, j.skb.linearLen j.t⟩ ::
    (fragBds j.addr 0 j.skb.frags).map TxBd.unmapPage

/-- The queue after the release of its oldest packet. -/
theorem txIntPkt_eq (T : TxRing q.txPbl base)
    (h : PblAt q.txPbl base q.txPbl.cons K) (hslot : q.skbs q.swTxCons = j.slot)
    (hbds : Holds (q.txPbl.elemAddr base) q.bds K j.image) :
    qedeTxIntPkt q =
      { q with
        txPbl := consumeN j.image.length q.txPbl
        skbs := update q.skbs q.swTxCons .empty
        swTxCons := (q.swTxCons + 1) % q.numTxBuffers
        dma := q.dma ++ j.unmaps } := by
  rw [qedeTxIntPkt, freeTxPkt_eq T h hslot hbds]
  rfl

theorem releasedPkt_eq (T : TxRing q.txPbl base)
    (h : PblAt q.txPbl base q.txPbl.cons K) (hslot : q.skbs q.swTxCons = j.slot)
    (hbds : Holds (q.txPbl.elemAddr base) q.bds K j.image)
    (himg : j.image.length ≤ q.txPbl.capacity) :
    q.releasedPkt (qedeTxIntPkt q) =
      ⟨some j.skb, j.image.length, j.unmaps.filterMap unmapped?⟩ := by
  have hlt := T.capacity_lt
  have hQ := txIntPkt_eq T h hslot hbds
  have hidx : (qedeTxIntPkt q).txPbl.cons.idx = q.txPbl.wrap (K + j.image.length) := by
    rw [hQ, consumeN_eq]
    exact (h.iterate T.ring T.mode _).idx
  have hops : q.opsSince (qedeTxIntPkt q) = j.unmaps := by
    rw [hQ]
    exact drop_left
  simp only [releasedPkt, hslot, Job.slot, hops, hidx, h.idx,
    sub_wrap T.cnt (show j.image.length < 2 ^ 16 by omega)]

/-- The consumer's slot becomes the last free one. -/
theorem TxInv.freeSlot (h : TxInv M base s (j :: jobs) K) :
    Holds (· % s.q.numTxBuffers) (update s.q.skbs s.q.swTxCons .empty)
      (s.released.length + 1)
      (jobs.map Job.slot ++ replicate (s.q.numTxBuffers - jobs.length) .empty) := by
  have hfew := h.few
  have hslots := h.slots
  rw [length_cons] at hfew hslots
  have hlen : (jobs.map Job.slot ++
      replicate (s.q.numTxBuffers - (jobs.length + 1)) SwTxBd.empty).length + 1 =
        s.q.numTxBuffers := by
    rw [length_append, length_map, length_replicate]
    omega
  rw [map_cons, cons_append] at hslots
  have hround := hslots.rotate (b := .empty) (apart_mod _) (by omega) (by
    rw [add_right_comm, add_assoc, hlen, add_mod_right])
  rwa [append_assoc, ← replicate_succ', show s.q.numTxBuffers - (jobs.length + 1) + 1 =
    s.q.numTxBuffers - jobs.length by omega, ← h.swTxCons] at hround

theorem TxInv.complete (h : TxInv M base s (j :: jobs) K) (up : Bool) :
    TxInv M base (s.step M (.complete up)) jobs (K + j.image.length) ∧
      (s.step M (.complete up)).q.bds = s.q.bds ∧
      (s.step M (.complete up)).released = s.released ++
        [⟨some j.skb, j.image.length, j.unmaps.filterMap unmapped?⟩] := by
  have hflat : bdsOf (j :: jobs) = j.image ++ bdsOf jobs := flatMap_cons
  have hlenBds : (bdsOf (j :: jobs)).length = j.image.length + (bdsOf jobs).length := by
    rw [hflat, length_append]
  have hcap := h.le_capacity
  rw [hlenBds] at hcap
  obtain ⟨hhead, hrest⟩ := holds_append.1 (hflat ▸ h.bds)
  have hslot : s.q.skbs s.q.swTxCons = j.slot := by
    rw [h.swTxCons]
    exact h.slots.1
  have hQ := txIntPkt_eq h.ring h.cons hslot hhead
  have hpkt := releasedPkt_eq h.ring h.cons hslot hhead (by omega)
  rw [hQ, consumeN_eq] at hpkt
  have hstep : s.step M (.complete up) =
      { s with
        q := qedeTxIntPkt s.q
        stopped :=
          s.stopped && !(up && decide (M + 1 ≤ qedChainGetElemLeft (qedeTxIntPkt s.q).txPbl))
        released := s.released ++ [s.q.releasedPkt (qedeTxIntPkt s.q)] } := rfl
  rw [hQ, consumeN_eq, hpkt] at hstep
  have hcons := h.cons.iterate h.ring.ring h.ring.mode j.image.length
  have hprod := h.prod
  rw [hlenBds, ← add_assoc] at hprod
  have hleft : _ = s.q.txPbl.capacity - _ := elemLeft_eq_sub (c := { s.q.txPbl with
    cons := (nextSide s.q.txPbl)^[j.image.length] s.q.txPbl.cons }) h.ring hprod hcons
    (by change _ ≤ s.q.txPbl.capacity; omega)
  have hsent := h.length_sent
  rw [length_cons] at hsent
  refine ⟨?_, by rw [hstep], by rw [hstep]⟩
  rw [hstep]
  refine { h with
    prod := hprod
    cons := hcons
    bds := hrest
    le_capacity := ?_
    room := fun hopen => ?_
    few := (le_succ _).trans h.few
    slots := ?_
    swTxCons := ?_
    le_sent := ?_
    sent := ?_ }
  · change _ ≤ s.q.txPbl.capacity
    omega
  · change _ ≤ s.q.txPbl.capacity
    rcases and_eq_false_iff.1 hopen with hopen | hopen
    · have hroom := h.room hopen
      omega
    · rw [not_eq_false', and_eq_true, decide_eq_true_eq] at hopen
      have hge := hopen.2.trans hleft.le
      omega
  · rw [length_append]
    exact h.freeSlot
  · rw [length_append]
    dsimp only
    rw [h.swTxCons, mod_add_mod]
    rfl
  · rw [length_append]
    change s.released.length + 1 ≤ s.sent.length
    omega
  · rw [length_append, ← drop_drop, h.sent]
    rfl

variable {env : XmitEnv}

theorem length_image_le {skb skb' : Skb} (hprep : skb.prepared env = some skb') (a : ℕ → DmaAddr) :
    (skb'.image (qedeXmitType skb) a).length ≤ 18 := by
  have hnr := prepared_nrFrags hprep
  have hroom := length_linearBds_add_room skb' (qedeXmitType skb) (a 0)
  rw [← length_linearBds skb' (qedeXmitType skb) (a 0)] at hnr
  rw [length_image]
  split at hroom <;> omega

theorem rewalked_le {skb skb' : Skb} (hprep : skb.prepared env = some skb') {j : ℕ}
    (hj : j < skb'.nrFrags) : skb'.rewalked (qedeXmitType skb) j ≤ 18 := by
  have hnr := prepared_nrFrags hprep
  have hroom :
      (if skb'.split (qedeXmitType skb) then 2 else 1) + skb'.room (qedeXmitType skb) ≤ 3 := by
    rw [← length_linearBds skb' _ 0, length_linearBds_add_room]
    split <;> omega
  rw [Skb.rewalked]
  omega

/-- A refused packet is taken back. -/
theorem exists_takenBack {P : ℕ} (T : TxRing q.txPbl base)
    (h : PblAt q.txPbl base q.txPbl.prod P) (hbd : q.bdProd = q.txPbl.prod.idx)
    {skb skb' : Skb} (hprep : skb.prepared env = some skb')
    (hfate : skb'.fate (qedeXmitType skb) env.map ≠ .sent)
    (hcan : q.txPbl.CanRollBack q.txPbl.prod.idx
      (skb'.takenBack (qedeXmitType skb) (skb'.fate (qedeXmitType skb) env.map))) :
    ∃ img ops, img.length ≤ 18 ∧ (xmitSkb env.map skb' (qedeXmitType skb) q).1 = false ∧
      TakenBack q (xmitSkb env.map skb' (qedeXmitType skb) q).2 base P img ops := by
  have hspec := fate_spec skb' (qedeXmitType skb) env.map
  cases hf : skb'.fate (qedeXmitType skb) env.map with
  | sent => exact absurd hf hfate
  | tooLong =>
    rw [hf] at hspec hcan
    obtain ⟨img, ops, hlen, hfst, hback⟩ := xmitSkb_tooLong T h hbd skb' _ hspec.1 hspec.2 hcan
    exact ⟨img, ops, by omega, hfst, hback⟩
  | failedLinear =>
    rw [hf] at hspec hcan
    exact ⟨_, _, by decide, xmitSkb_failed_linear T h hbd skb' _ hspec hcan⟩
  | failedFrag j =>
    rw [hf] at hspec hcan
    obtain ⟨hmap₀, hlong, l, size, rest, hfrags, rfl, hmap, hfail⟩ := hspec
    have hj : l.length < skb'.nrFrags := by
      rw [Skb.nrFrags, hfrags, length_append, length_cons]
      omega
    have hnr := prepared_nrFrags hprep
    obtain ⟨img, hlen, hfst, hback⟩ := xmitSkb_failed_frag T h hbd
      ⟨hlong, hmap₀, ⟨_, _, hfrags⟩, hmap, hfail, by omega⟩ hcan
    exact ⟨img, _, hlen.trans (rewalked_le hprep hj), hfst, hback⟩

theorem step_xmit_of_refused (h : qedeStartXmit s.q skb env = (false, Q)) :
    s.step M (.xmit skb env) = { s with q := Q } := by
  simp only [step, h, false_eq_true, if_false]

theorem TxInv.xmit (h : TxInv M base s jobs K) (hM : 17 ≤ M) (hstop : s.stopped = false)
    (hkept : (xmit skb env).Kept s) :
    (s.step M (.xmit skb env)).released = s.released ∧
    ((∀ x, (s.q.bds x).Bounded) → ∀ x, ((s.step M (.xmit skb env)).q.bds x).Bounded) ∧
    ((xmit skb env).packet = none ∧
        TxInv M base (s.step M (.xmit skb env)) jobs K ∧ (s.step M (.xmit skb env)).sent = s.sent ∨
      ∃ j : Job, (xmit skb env).packet = some (some j.skb, j.skb.mappings j.addr) ∧
        skb.prepared env = some j.skb ∧ j.t = qedeXmitType skb ∧
        j.skb.fate j.t env.map = .sent ∧ j.image.length ≤ M + 1 ∧
        TxInv M base (s.step M (.xmit skb env)) (jobs ++ [j]) K ∧
        (s.step M (.xmit skb env)).sent = s.sent ++ [j.sent]) := by
  cases hprep : skb.prepared env with
  | none =>
    rw [step_xmit_of_refused (Q := s.q) (by rw [qedeStartXmit, hprep])]
    exact ⟨rfl, id, .inl ⟨by simp only [packet, hprep], h, rfl⟩⟩
  | some skb' =>
    simp only [Kept, hprep] at hkept
    obtain ⟨hslots, hcan⟩ := hkept
    have hlen := h.length_sent
    have hfree : jobs.length < s.q.numTxBuffers := by omega
    have hroom := h.room hstop
    have hcall : qedeStartXmit s.q skb env = xmitSkb env.map skb' (qedeXmitType skb) s.q := by
      rw [qedeStartXmit, hprep]
    by_cases hfate : skb'.fate (qedeXmitType skb) env.map = .sent
    · have hnr := prepared_nrFrags hprep
      have himg : (Job.mk skb' (qedeXmitType skb) (addrOf env.map)).image.length ≤ M + 1 :=
        (length_image_le hprep _).trans (by omega)
      obtain ⟨hfst, hover⟩ := handedOver_of_sent h.ring h.prod (h.slot_empty hfree) (by omega) hfate
      have hcall : _ = (true, _) := hcall.trans (Prod.ext hfst rfl)
      simp only [step, hcall, if_true]
      rw [sentPkt_eq h.ring h.prod hover (by omega)]
      refine ⟨trivial, fun hm => ?_, .inr ⟨_, by simp only [packet, hprep, if_pos hfate], rfl, rfl,
        hfate, himg, h.handedOver hfree hstop hover himg, rfl⟩⟩
      rw [hover.bds]
      exact forall_write hm (bounded_image skb' _ _)
    · obtain ⟨img, ops, hlen, hfst, hback⟩ :=
        exists_takenBack h.ring h.prod h.bdProd hprep hfate hcan
      rw [step_xmit_of_refused (hcall.trans (Prod.ext hfst rfl))]
      refine ⟨rfl, fun hm => ?_, .inl ⟨by simp only [packet, hprep, if_neg hfate],
        h.takenBack hfree hstop hback (by omega), rfl⟩⟩
      rw [hback.bds]
      exact forall_write hm hback.bounded

end Inv

/-! ## The start -/

theorem usable_txChain : usableElemsPerPage 16 QED_CHAIN_PAGE_SIZE .pbl = 256 := by decide +kernel

variable {num : ℕ}

theorem txChainParams_pageCnt (hnum : num ≤ NUM_TX_BDS_MAX) :
    (txChainParams num).pageCnt = (num + 255) / 256 := by
  have hmax : NUM_TX_BDS_MAX = 8191 := rfl
  change qedChainPageCnt num 16 QED_CHAIN_PAGE_SIZE .pbl = _
  rw [qedChainPageCnt, usable_txChain, sub_of_le (by omega), mod_eq_of_lt (by omega)]
  rfl

variable {env : DmaEnv}

theorem txRing_of_alloc {c : Chain} (h : qedChainAlloc env (txChainParams num) = .ok c)
    (hd : env.Disjoint QED_CHAIN_PAGE_SIZE (txChainParams num).pageCnt)
    (hnum : num ≤ NUM_TX_BDS_MAX) :
    TxRing c env.addr := by
  have hpos : 0 < QED_CHAIN_PAGE_SIZE := by decide
  have hper : elemsPerPage QED_CHAIN_PAGE_SIZE 16 = 2 ^ 8 := by decide
  have hsmall : 16 < 2 ^ 8 := by decide
  obtain ⟨hs, -, -⟩ := linked_of_alloc hpos hd h
  obtain ⟨R, hmode, -⟩ := pbl_of_alloc (e := 8) h hd rfl hsmall (by decide) hper
  have hpage : c.pageCnt = (txChainParams num).pageCnt := by rw [hs]; rfl
  have husable : c.usablePerPage = 256 := by
    rw [hs]
    change usableElemsPerPage 16 QED_CHAIN_PAGE_SIZE .pbl % 2 ^ 16 = 256
    rw [usable_txChain]
    rfl
  have hsize : c.elemSize = 16 := by rw [hs]; rfl
  have hunusable : c.elemUnusable = 0 := by rw [hs]; rfl
  have hle : c.pageCnt ≤ 32 := by
    have hmax : NUM_TX_BDS_MAX = 8191 := rfl
    rw [hpage, txChainParams_pageCnt hnum]
    omega
  have hcap : c.capacity = 256 * c.pageCnt := by
    have heq : c.capacity = c.usablePerPage * c.pageCnt % 2 ^ 32 := by rw [hs]; rfl
    rw [heq, husable, mod_eq_of_lt (by omega)]
  refine ⟨R, hmode, by rw [hs]; rfl, hcap, by omega, fun j k hjk hk => ?_⟩
  rw [hcap] at hk
  exact elemAddr_ne (hpage ▸ hd) R.pageCnt_pos (by omega)
    (by rw [husable, hunusable, hsize]; decide) (by omega) hjk (by rw [husable]; exact hk)

theorem allocMemTxq_ok {mem : ℕ → TxBd} {q : TxQueue} (h : qedeAllocMemTxq env mem num = .ok q) :
    ∃ c, qedChainAlloc env (txChainParams num) = .ok c ∧ q = .fresh mem num c :=
  exists_of_map_ok h

theorem txInv_start {mem : ℕ → TxBd} {num M : ℕ} {q : TxQueue}
    (h : qedeAllocMemTxq env mem num = .ok q)
    (hd : env.Disjoint QED_CHAIN_PAGE_SIZE (txChainParams num).pageCnt) (hpos : 0 < num)
    (hnum : num ≤ NUM_TX_BDS_MAX) (hM : M < 256) : TxInv M env.addr (.start q) [] 0 := by
  obtain ⟨c, hc, rfl⟩ := allocMemTxq_ok h
  have T := txRing_of_alloc hc hd hnum
  have hcap := T.le_capacity
  have hpage : 0 < QED_CHAIN_PAGE_SIZE := by decide
  obtain ⟨hs, -, -⟩ := linked_of_alloc hpage hd hc
  obtain ⟨hprod, hcons⟩ := pblAt_of_alloc hc T.ring rfl hs nofun
  have hidx : c.prod.idx = 0 := by
    rw [hprod.idx, wrap, zero_mod]
  refine
    { ring := T
      prod := hprod
      cons := hcons
      bds := trivial
      le_capacity := zero_le _
      room := fun _ => ?_
      bdProd := hidx.symm
      num_pos := hpos
      few := zero_le _
      slots := holds_replicate (fun _ => rfl) _
      swTxCons := (zero_mod num).symm
      swTxProd := (zero_mod num).symm
      le_sent := le_rfl
      sent := rfl }
  change 0 + (M + 1) ≤ c.capacity
  omega

/-! ## Runs -/

/-- After the calls `l`: what was sent are the packets of `l`, with all their mappings, and what was
released are the oldest of them, as they were sent. -/
structure Accounted (M : ℕ) (l : List TxStep) (s : TxSys) : Prop where
  packets : s.sent.map (fun p => (p.skb, p.mapped)) = l.filterMap packet
  count : ∀ p ∈ s.sent, p.produced = p.nbds ∧ p.nbds ≤ M + 1
  released : s.released = (s.sent.take s.released.length).map Sent.release

section Accounted

variable {M K : ℕ} {base : ℕ → ℕ} {s : TxSys} {jobs : List Job} {l : List TxStep}

/-- The oldest packet is released as it was sent. -/
theorem Accounted.complete {j : Job} (hs : Accounted M l s) (h : TxInv M base s (j :: jobs) K)
    (hfit : j.skb.Fits j.t) (hlong : ¬ j.skb.TooLong j.t) (up : Bool) :
    Accounted M (l ++ [.complete up]) (s.step M (.complete up)) := by
  obtain ⟨-, -, hrel⟩ := h.complete up
  have hsent : (s.step M (.complete up)).sent = s.sent := rfl
  have hunmaps : j.unmaps = (j.skb.mappings j.addr).map .unmap := by
    rw [Job.unmaps, (linearLen_eq_iff hlong).2 hfit.1, unmapPage_fragBds hfit.2]
    rfl
  refine ⟨?_, hs.count, ?_⟩
  · rw [hsent, hs.packets, filterMap_append]
    exact (append_nil _).symm
  · rw [hrel, hsent, hunmaps, filterMap_unmapped, length_append, take_add, h.sent, map_append,
      ← hs.released]
    rfl

/-- The calls that the accounting needs: the network stack and the device keep to the rules, the
packet finds a slot and its lengths fit. -/
def TxStep.Regular (s : TxSys) (a : TxStep) : Prop := a.Enabled s ∧ a.Kept s ∧ a.Fits
  deriving Decidable

def TxRun (M : ℕ) (base : ℕ → ℕ) (l : List TxStep) (s : TxSys) : Prop :=
  Accounted M l s ∧ ∃ jobs K, TxInv M base s jobs K ∧
    ∀ j ∈ jobs, j.skb.Fits j.t ∧ ¬ j.skb.TooLong j.t

theorem TxRun.xmit (hM : 17 ≤ M) (h : TxRun M base l s) {skb : Skb} {env : XmitEnv}
    (hok : (xmit skb env).Regular s) :
    TxRun M base (l ++ [.xmit skb env]) (s.step M (.xmit skb env)) := by
  obtain ⟨hacc, jobs, K, inv, hjobs⟩ := h
  obtain ⟨hstop, hkept, hfits⟩ := hok
  obtain ⟨hrel, -, ⟨hpkt, inv', hsent⟩ | ⟨j, hpkt, hprep, ht, hfate, himg, inv', hsent⟩⟩ :=
    inv.xmit hM hstop hkept
  · refine ⟨⟨?_, ?_, ?_⟩, jobs, K, inv', hjobs⟩
    · rw [hsent, hacc.packets, filterMap_append]
      simp only [filterMap_cons, hpkt, filterMap_nil, append_nil]
    · rw [hsent]
      exact hacc.count
    · rw [hsent, hrel]
      exact hacc.released
  · have hspec := fate_spec j.skb j.t env.map
    rw [hfate] at hspec
    have hfit : j.skb.Fits j.t := by
      simp only [Fits, hprep] at hfits
      rw [ht] at hfate ⊢
      exact hfits hfate
    refine ⟨⟨?_, ?_, ?_⟩, jobs ++ [j], K, inv', ?_⟩
    · rw [hsent, map_append, hacc.packets, filterMap_append]
      simp only [filterMap_cons, hpkt, filterMap_nil]
      rfl
    · rw [hsent]
      exact forall_mem_append.2 ⟨hacc.count, forall_mem_singleton.2 ⟨rfl, himg⟩⟩
    · rw [hsent, hrel, take_append_of_le_length inv.le_sent]
      exact hacc.released
    · exact forall_mem_append.2 ⟨hjobs, forall_mem_singleton.2 ⟨hfit, hspec.2.1⟩⟩

theorem TxRun.complete (h : TxRun M base l s) {up : Bool}
    (hok : (complete up).Regular s) :
    TxRun M base (l ++ [.complete up]) (s.step M (.complete up)) := by
  obtain ⟨hacc, jobs, K, inv, hjobs⟩ := h
  have hlt : s.released.length < s.sent.length := hok.1
  cases jobs with
  | nil =>
    have hlen := inv.length_sent
    rw [length_nil] at hlen
    omega
  | cons j jobs =>
    obtain ⟨hfit, hlong⟩ := hjobs j mem_cons_self
    exact ⟨hacc.complete inv hfit hlong up, jobs, _, (inv.complete up).1,
      fun i hi => hjobs i (mem_cons_of_mem j hi)⟩

/-- **Descriptor accounting.** In a run of regular calls, the packets that `qede_start_xmit` accepts
are those that every mapping succeeds for. Each produces as many BDs as its first one says, at most
`MAX_SKB_FRAGS + 1`; and they are released in order, each by consuming as many BDs and removing the
mappings that were made for it. -/
theorem accounted_run {env : DmaEnv} {mem : ℕ → TxBd} {num : ℕ} {q : TxQueue}
    (h : qedeAllocMemTxq env mem num = .ok q)
    (hd : env.Disjoint QED_CHAIN_PAGE_SIZE (txChainParams num).pageCnt) (hpos : 0 < num)
    (hnum : num ≤ NUM_TX_BDS_MAX) (hM : 17 ≤ M) (hM' : M < 256)
    (hrun : Meets Regular (step M) (.start q) l) :
    Accounted M l (l.foldl (step M) (.start q)) := by
  have hstart : TxRun M env.addr [] (.start q) :=
    ⟨⟨rfl, nofun, rfl⟩, [], 0, txInv_start h hd hpos hnum hM', nofun⟩
  have hall := hrun.history (P := TxRun M env.addr) (fun l s a hs hok => ?_) [] hstart
  · exact hall.1
  · cases a with
    | xmit skb env => exact hs.xmit hM hok
    | complete up => exact hs.complete hok

end Accounted

/-- A linear packet of 60 bytes with these fragments. -/
def plainSkb (frags : List ℕ) : Skb := ⟨60, frags, false, false, false, false, 54, 54⟩

/-- A segmented packet whose header is split off. -/
def lsoSkb : Skb := ⟨200, [1000, 3000], true, false, false, true, 54, 54⟩

/-- An IOMMU that finds an address for everything. -/
def mapAll : XmitEnv := ⟨true, fun i => some (0x100000 + 0x1000 * i)⟩

/-- A queue of 32 buffers, as in a kdump kernel. -/
def kdumpTxq : Except AllocErr TxQueue :=
  qedeAllocMemTxq (.backToBack 0x10000 QED_CHAIN_PAGE_SIZE) (fun _ => .zero) 32

/-- A segmented packet is sent and released. -/
theorem accounted_lso :
    ∃ q, kdumpTxq = .ok q ∧ Accounted 17 [.xmit lsoSkb mapAll, .complete true]
        ([.xmit lsoSkb mapAll, .complete true].foldl (step 17) (.start q)) := by
  have hrun : kdumpTxq.map (fun q => decide (Meets Regular (step 17) (.start q)
      [.xmit lsoSkb mapAll, .complete true])) = .ok true := by decide +kernel
  obtain ⟨q, hq, hmeets⟩ := exists_of_map_ok hrun
  exact ⟨q, hq, accounted_run hq (DmaEnv.backToBack_disjoint _ _ _) (by decide) (by decide)
    (by decide) (by decide) (of_decide_eq_true hmeets.symm)⟩

/-- The chain of a kdump kernel has 256 BDs but its software ring 32 slots: packet 33 takes the slot
of packet 1, which is then released with the fragments of packet 33. -/
theorem not_accounted_kdump :
    ¬ ∀ (env : DmaEnv) (mem : ℕ → TxBd) (num M : ℕ) (q : TxQueue) (l : List TxStep),
      qedeAllocMemTxq env mem num = .ok q →
      env.Disjoint QED_CHAIN_PAGE_SIZE (txChainParams num).pageCnt → 0 < num →
      num ≤ NUM_TX_BDS_MAX → 17 ≤ M → M < 256 → (∀ a ∈ l, a.Maps) →
      Meets (fun s a => a.Enabled s) (step M) (.start q) l →
      Accounted M l (l.foldl (step M) (.start q)) := by
  intro hall
  let l : List TxStep := replicate 32 (.xmit (plainSkb []) mapAll) ++
    [.xmit (plainSkb [100]) mapAll, .complete true]
  have hmaps : ∀ a ∈ l, a.Maps := by
    intro a ha
    simp only [l, mem_append, mem_replicate, mem_cons, not_mem_nil] at ha
    rcases ha with ⟨-, rfl⟩ | rfl | rfl | ha
    · exact fun _ => rfl
    · exact fun _ => rfl
    · trivial
    · cases ha
  -- the release of the first packet consumes two BDs where one was produced
  have hrun : kdumpTxq.map (fun q =>
      let s := l.foldl (step 17) (.start q)
      (decide (Meets (fun s a => Enabled s a) (step 17) (.start q) l), s.released.map (·.consumed),
        ((s.sent.take s.released.length).map Sent.release).map (·.consumed))) =
      .ok (true, [2], [1]) := by decide +kernel
  obtain ⟨q, hq, heq⟩ := exists_of_map_ok hrun
  simp only [Prod.mk.injEq] at heq
  obtain ⟨hmeets, hcons, hnbds⟩ := heq
  have hacc := hall _ _ 32 17 q l hq (DmaEnv.backToBack_disjoint _ _ _) (by decide) (by decide)
    (by decide) (by decide) hmaps (of_decide_eq_true hmeets.symm)
  rw [← hacc.released, ← hcons] at hnbds
  cases hnbds

end FastLinQ.Qede
