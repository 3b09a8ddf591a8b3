import FastLinQ.Qede.Tx.Release

/-!
# Taking a packet back

`qede_free_failed_tx_pkt` puts the producer back to where the packet began and walks over its BDs
a second time, unmapping what they say, before it puts the producer back again. `freeFailed_eq` is
the whole function on a half-written packet whose walk finds the BDs `b :: l ++ w`: the first
one, the split one if there is one, and as many others as the caller's count asks for. What the
walk finds is what was written only as far as the packet goes; behind it are the BDs of an earlier
turn of the ring.
-/

namespace FastLinQ.Qede

open FastLinQ.Qed Cells Function List TxQueue Nat Skb

def unmapBds (w : List TxBd) : List DmaOp := (w.filter (·.nbytes ≠ 0)).map TxBd.unmapPage

theorem unmapBds_cons (b : TxBd) (w : List TxBd) :
    unmapBds (b :: w) = if b.nbytes ≠ 0 then b.unmapPage :: unmapBds w else unmapBds w := by
  unfold unmapBds
  by_cases hz : b.nbytes = 0 <;> simp [hz]

theorem unmapBds_append (w w' : List TxBd) : unmapBds (w ++ w') = unmapBds w ++ unmapBds w' := by
  simp only [unmapBds, filter_append, map_append]

theorem unmapBds_zero (n : ℕ) : unmapBds (replicate n .zero) = [] := by
  induction n with
  | zero => rfl
  | succ n ih => rw [replicate_succ, unmapBds_cons, ih]; rfl

/-- The producer at the element it handed out last. -/
def TxQueue.atFirst (q : TxQueue) (base : ℕ → ℕ) (P : ℕ) : TxQueue :=
  q.setChain { q.txPbl with prod := { q.txPbl.prod with elem := q.txPbl.elemAddr base P } }

/-- What the walk does besides the calls that it makes. -/
theorem unmapProduced_same (n : ℕ) (q : TxQueue) :
    (unmapProduced n q).txPbl = produceN n q.txPbl ∧ (unmapProduced n q).bdProd = q.bdProd ∧
      (unmapProduced n q).swTxProd = q.swTxProd := by
  induction n generalizing q with
  | zero => exact ⟨rfl, rfl, rfl⟩
  | succ n ih =>
    rw [unmapProduced, (ih _).1, (ih _).2.1, (ih _).2.2]
    split <;> exact ⟨rfl, rfl, rfl⟩

section Walk

variable {q : TxQueue} {base : ℕ → ℕ} {P : ℕ} (T : TxRing q.txPbl base)
  (h : PblAt q.txPbl base q.txPbl.prod P)

include T h

theorem unmapProduced_eq {w : List TxBd} (hw : Holds (q.txPbl.elemAddr base) q.bds P w) :
    unmapProduced w.length q = (q.setChain (produceN w.length q.txPbl)).logs (unmapBds w) := by
  induction w generalizing q P with
  | nil => exact (logs_nil _).symm
  | cons b w ih =>
    obtain ⟨haddr, hat⟩ := h.next T.ring T.mode
    have hb : q.bds (qedChainProduce q.txPbl).1 = b := (congrArg q.bds haddr).trans hw.1
    rw [length_cons, unmapProduced, unmapBds_cons]
    simp only [hb]
    split
    · rw [ih (q := (q.setChain (qedChainProduce q.txPbl).2).log b.unmapPage) T hat hw.2,
        log_eq, logs_setChain, logs_logs]
      rfl
    · exact ih T hat hw.2

/-- The producer goes back to the first BD. -/
theorem setProd_back {n : ℕ} (hn : n < q.txPbl.capacity)
    (hcan : q.txPbl.CanRollBack q.txPbl.prod.idx n) (x : ℕ) :
    qedChainSetProd (produceN n q.txPbl) q.txPbl.prod.idx x =
      { q.txPbl with prod := { q.txPbl.prod with elem := x } } := by
  have hback := (setSide_iff T.pblRing (h.sideOk T.ring) hn x).2 hcan
  rw [produceN_eq]
  simp only [qedChainSetProd]
  rw [hback]

/-- The second half of the function: the walk, from `n` BDs behind the first one, and the way
back. -/
theorem unmapProduced_back {Q : TxQueue} {n x : ℕ} {w : List TxBd}
    (hQ : Q.txPbl = produceN n q.txPbl) (hbd : Q.bdProd = q.txPbl.prod.idx)
    (hw : Holds (q.txPbl.elemAddr base) Q.bds (P + n) w) (hlen : n + w.length < q.txPbl.capacity)
    (hcan : q.txPbl.CanRollBack q.txPbl.prod.idx (n + w.length)) :
    (unmapProduced w.length Q).setChain (qedChainSetProd (unmapProduced w.length Q).txPbl
        (unmapProduced w.length Q).bdProd x) =
      (Q.setChain { q.txPbl with prod := { q.txPbl.prod with elem := x } }).logs
        (unmapBds w) := by
  have hinfo : Q.txPbl.toChainInfo = q.txPbl.toChainInfo := by rw [hQ, produceN_eq]
  have hat : PblAt q.txPbl base Q.txPbl.prod (P + n) := by
    rw [hQ, produceN_eq]
    exact h.iterate T.ring T.mode n
  have hadd : produceN w.length Q.txPbl = produceN (n + w.length) q.txPbl := by
    rw [hQ, add_comm]
    exact (iterate_add_apply ..).symm
  rw [← hinfo] at T hat hw
  rw [unmapProduced_eq T hat hw]
  change ((Q.setChain _).logs _).setChain
    (qedChainSetProd (produceN w.length Q.txPbl) Q.bdProd x) = _
  rw [hadd, hbd, setProd_back (by rwa [← hinfo]) h hlen hcan]
  rfl

/-- **A half-written packet is taken back**: `n` BDs were produced, and the walk finds
`b :: l ++ w`. -/
theorem freeFailed_eq {Q : TxQueue} {n nbd : ℕ} {b : TxBd} {l w : List TxBd} {split : Bool}
    (hQ : Q.txPbl = produceN n q.txPbl) (hbd : Q.bdProd = q.txPbl.prod.idx)
    (hl : l.length = if split then 1 else 0) (hnbd : nbd = l.length + w.length)
    (hw : Holds (q.txPbl.elemAddr base) Q.bds P (b :: l ++ w)) (hn : n < q.txPbl.capacity)
    (hcan : q.txPbl.CanRollBack q.txPbl.prod.idx n) (hn' : nbd + 1 < q.txPbl.capacity)
    (hcan' : q.txPbl.CanRollBack q.txPbl.prod.idx (nbd + 1)) :
    qedeFreeFailedTxPkt Q (q.txPbl.elemAddr base P) nbd split =
      ((Q.setChain (q.atFirst base P).txPbl).setSlot Q.swTxProd .empty).logs
        (unmapLinear b l :: unmapBds w) := by
  have hat := h.withElem
  have hback : qedChainSetProd Q.txPbl Q.bdProd (q.txPbl.elemAddr base P) =
      (q.atFirst base P).txPbl := by
    rw [hQ, hbd]
    exact setProd_back T h hn hcan _
  have hfirst : qedChainProduce (q.atFirst base P).txPbl =
      (q.txPbl.elemAddr base P, produceN 1 (q.atFirst base P).txPbl) :=
    produce_produceN (q := q.atFirst base P) T hat 0
  have hsecond : qedChainProduce (produceN 1 (q.atFirst base P).txPbl) =
      (q.txPbl.elemAddr base (P + 1), produceN 2 (q.atFirst base P).txPbl) :=
    produce_produceN (q := q.atFirst base P) T hat 1
  obtain ⟨hb, hw⟩ := hw
  obtain ⟨hl', hw⟩ := holds_append.1 hw
  have hops : ∀ (c c' : Chain), (((Q.setChain c).log (unmapLinear b l)).setChain c').logs
      (unmapBds w) = (Q.setChain c').logs (unmapLinear b l :: unmapBds w) := fun c c' => by
    rw [log_eq, logs_setChain, logs_logs]
    rfl
  have hrest := unmapProduced_back (q := q.atFirst base P) (x := q.txPbl.elemAddr base P)
    (Q := (Q.setChain (produceN (1 + l.length) (q.atFirst base P).txPbl)).log (unmapLinear b l)) T
    hat rfl hbd (by rw [← add_assoc]; exact hw)
    (by rw [add_assoc, add_comm 1, ← hnbd]; exact hn')
    (by rw [add_assoc, add_comm 1, ← hnbd]; exact hcan')
  rw [hops] at hrest
  unfold qedeFreeFailedTxPkt
  simp only [hback, hfirst, hsecond, hb]
  cases split with
  | false =>
    obtain rfl : l = [] := length_eq_zero_iff.1 hl
    obtain rfl : nbd = w.length := by rw [hnbd, length_nil, zero_add]
    rw [(unmapProduced_same _ _).2.2]
    exact congrArg (·.setSlot Q.swTxProd .empty) hrest
  | true =>
    obtain ⟨s, rfl⟩ : ∃ s, l = [s] := length_eq_one_iff.1 hl
    obtain rfl : nbd = 1 + w.length := hnbd
    rw [(unmapProduced_same _ _).2.2, Nat.add_sub_cancel_left, hl'.1]
    exact congrArg (·.setSlot Q.swTxProd .empty) hrest

end Walk

/-! ## Packets that are not sent -/

/-- What a call leaves that took its packet back: the BDs `img` behind the producer, and an empty
slot. -/
structure TakenBack (q Q : TxQueue) (base : ℕ → ℕ) (P : ℕ) (img : List TxBd) (ops : List DmaOp) :
    Prop where
  chain : Q.txPbl = (q.atFirst base P).txPbl
  bds : Q.bds = write (q.txPbl.elemAddr base) q.bds P img
  bounded : ∀ b ∈ img, b.Bounded
  skbs : Q.skbs = update q.skbs q.swTxProd .empty
  swTxCons : Q.swTxCons = q.swTxCons
  swTxProd : Q.swTxProd = q.swTxProd
  numTxBuffers : Q.numTxBuffers = q.numTxBuffers
  bdProd : Q.bdProd = q.bdProd
  dma : Q.dma = q.dma ++ ops

theorem TakenBack.eq {q Q : TxQueue} {base : ℕ → ℕ} {P : ℕ} {img : List TxBd} {ops : List DmaOp}
    (h : TakenBack q Q base P img ops) :
    Q = { q with
      txPbl := (q.atFirst base P).txPbl
      bds := write (q.txPbl.elemAddr base) q.bds P img
      skbs := update q.skbs q.swTxProd .empty
      dma := q.dma ++ ops } :=
  TxQueue.ext h.chain h.bds h.skbs h.swTxCons h.swTxProd h.numTxBuffers h.bdProd h.dma

section Refused

variable {q : TxQueue} {base : ℕ → ℕ} {P : ℕ} (T : TxRing q.txPbl base)
  (h : PblAt q.txPbl base q.txPbl.prod P) (hbd : q.bdProd = q.txPbl.prod.idx)

include T h hbd

/-- `qede_free_failed_tx_pkt` in `qede_start_xmit`: the slot holds any packet, the calls `ops` were
made, and the BDs `img` were written. -/
theorem takenBack_of_freeFailed (s : SwTxBd) (ops : List DmaOp) (img : List TxBd) {nbd : ℕ}
    (split : Bool) (b : TxBd) (l w : List TxBd) (hl : l.length = if split then 1 else 0)
    (hnbd : nbd = l.length + w.length) (hbounded : ∀ b ∈ img, b.Bounded)
    (hw : Holds (q.txPbl.elemAddr base) (write (q.txPbl.elemAddr base) q.bds P img) P (b :: l ++ w))
    (hn : img.length < 256) (hn' : nbd + 1 < 256)
    (hcan : q.txPbl.CanRollBack q.txPbl.prod.idx img.length)
    (hcan' : q.txPbl.CanRollBack q.txPbl.prod.idx (nbd + 1)) :
    TakenBack q (qedeFreeFailedTxPkt (((q.setSlot q.swTxProd s).logs ops).put base P img)
      (q.txPbl.elemAddr base P) nbd split) base P img (ops ++ unmapLinear b l :: unmapBds w) := by
  have hcap := T.le_capacity
  have heq := freeFailed_eq (Q := ((q.setSlot q.swTxProd s).logs ops).put base P img) T h rfl hbd hl
    hnbd hw (by omega) hcan (by omega) hcan'
  rw [heq]
  refine ⟨rfl, rfl, hbounded, ?_, rfl, rfl, rfl, rfl, append_assoc ..⟩
  exact update_idem ..

variable {map : ℕ → Option DmaAddr}

/-- **The linear part cannot be mapped.** -/
theorem xmitSkb_failed_linear (skb : Skb) (t : XmitType) (hmap : map 0 = none)
    (hcan : q.txPbl.CanRollBack q.txPbl.prod.idx 1) :
    (xmitSkb map skb t q).1 = false ∧
      TakenBack q (xmitSkb map skb t q).2 base P [.zero] [.unmap ⟨.single, 0, 0⟩] := by
  have hcap := T.le_capacity
  let s : SwTxBd := { q.skbs q.swTxProd with skb := some skb }
  have heq : xmitSkb map skb t q = (false, qedeFreeFailedTxPkt
      (((q.setSlot q.swTxProd s).logs []).put base P [.zero]) (q.txPbl.elemAddr base P)
        0 false) := by
    have hfirst : (q.setSlot q.swTxProd s).produceBd = (q.txPbl.elemAddr base P,
      (q.setSlot q.swTxProd s).put base P [.zero]) :=
        put_produceBd (q := q.setSlot q.swTxProd s) T h []
    rw [logs_nil, xmitSkb, xmitLinear, hmap, hfirst]
  rw [heq]
  refine ⟨rfl, takenBack_of_freeFailed T h hbd s [] [.zero] false .zero [] [] rfl rfl
    (bounded_zeros 1) ?_ (by decide) (by decide) hcan hcan⟩
  exact holds_write T.apart (by simp only [length_singleton]; omega)

/-- **A packet without segmentation is too long.** -/
theorem xmitSkb_tooLong {a₀ : DmaAddr} (skb : Skb) (t : XmitType) (hmap : map 0 = some a₀)
    (hlong : skb.TooLong t) (hcan : q.txPbl.CanRollBack q.txPbl.prod.idx (if t.ext then 3 else 1)) :
    ∃ img ops, img.length ≤ 3 ∧ (xmitSkb map skb t q).1 = false ∧
      TakenBack q (xmitSkb map skb t q).2 base P img ops := by
  have hcap := T.le_capacity
  let s : SwTxBd := { q.skbs q.swTxProd with skb := some skb }
  let first : TxBd := ⟨a₀, skb.headlen % 2 ^ 16, 0⟩
  have hfirst : first.Bounded := mod_lt _ (by decide)
  have hback := fun (n : ℕ) (hpost : n ≤ 2)
      (hcan : q.txPbl.CanRollBack q.txPbl.prod.idx (n + 1)) =>
    have hlen : (first :: replicate n TxBd.zero).length = n + 1 := by
      rw [length_cons, length_replicate]
    takenBack_of_freeFailed T h hbd s [.map ⟨.single, a₀, skb.headlen⟩]
      (first :: replicate n .zero) false first [] [] rfl rfl
      (forall_mem_cons.2 ⟨hfirst, bounded_zeros n⟩)
      ⟨(holds_write (l := first :: replicate n .zero) T.apart (by omega)).1, trivial⟩
      (by omega) (by decide) (by rw [hlen]; exact hcan) (hcan.mono (le_add_left 1 _))
  have hlin := xmitLinear_eq (q := q.setSlot q.swTxProd s) T h skb t hmap
  rw [xmitHeader_of_tooLong hlong, xmitHeader_of_tooLong hlong] at hlin
  rw [xmitSkb, hlin]
  by_cases hext : t.ext
  · rw [if_pos hext] at hcan ⊢
    exact ⟨_, _, le_rfl, rfl, hback 2 le_rfl hcan⟩
  · rw [if_neg hext] at hcan ⊢
    exact ⟨_, _, by simp, rfl, hback 0 (by decide) hcan⟩

/-- The BDs that `qede_free_failed_tx_pkt` walks over if fragment `j` cannot be mapped. -/
def Skb.rewalked (skb : Skb) (t : XmitType) (j : ℕ) : ℕ :=
  (if skb.split t then 2 else 1) + max (skb.room t) j + 1

/-- The BDs of an earlier turn among them: if the second or third BD is not filled, the walk goes
one too far. -/
def TxQueue.staleBds (q : TxQueue) (base : ℕ → ℕ) (P : ℕ) (skb : Skb) (t : XmitType) (j : ℕ) :
    List TxBd :=
  if j < skb.room t then [q.bds (q.txPbl.elemAddr base (P + 3))] else []

/-- The BDs of a packet with the fragments `l`, and cleared ones behind them. -/
def Skb.failedImage (skb : Skb) (t : XmitType) (a : ℕ → DmaAddr) (l : List ℕ) : List TxBd :=
  skb.linearBds t (a 0) ++ fragBds a 0 l ++ replicate (max 1 (skb.room t - l.length)) .zero

omit T h hbd in
theorem length_failedImage (skb : Skb) (t : XmitType) (a : ℕ → DmaAddr) (l : List ℕ) :
    (skb.failedImage t a l).length =
      (skb.linearBds t (a 0)).length + l.length + max 1 (skb.room t - l.length) := by
  simp only [failedImage, length_append, length_fragBds, length_replicate]

omit T h hbd in
theorem bounded_failedImage (skb : Skb) (t : XmitType) (a : ℕ → DmaAddr) (l : List ℕ) :
    ∀ b ∈ skb.failedImage t a l, b.Bounded :=
  forall_mem_append.2 ⟨forall_mem_append.2 ⟨bounded_linearBds skb t (a 0), bounded_fragBds a 0 l⟩,
    bounded_zeros _⟩

omit T h hbd in
theorem rewalked_eq (skb : Skb) (t : XmitType) (a₀ : DmaAddr) (j : ℕ) :
    skb.rewalked t j = (skb.linearBds t a₀).length + max (skb.room t) j + 1 := by
  rw [rewalked, length_linearBds]

/-- The fragments `l` can be mapped, and the next one cannot. -/
structure Skb.FailsAfter (skb : Skb) (t : XmitType) (map : ℕ → Option DmaAddr) (a : ℕ → DmaAddr)
    (l : List ℕ) : Prop where
  short : ¬ skb.TooLong t
  linear : map 0 = some (a 0)
  frags : ∃ size rest, skb.frags = l ++ size :: rest
  mapped : Mapped map a 0 l
  failed : map (l.length + 1) = none
  few : l.length < 2 ^ 7

variable {a : ℕ → DmaAddr} {skb : Skb} {t : XmitType} {l : List ℕ} (hf : skb.FailsAfter t map a l)

include hf

omit hbd in
/-- A fragment cannot be mapped: what `qede_free_failed_tx_pkt` is called for. -/
theorem xmitSkb_failed_frag_eq :
    xmitSkb map skb t q = (false, qedeFreeFailedTxPkt
      (((q.setSlot q.swTxProd ⟨some skb, (q.skbs q.swTxProd).tsoSplitBd || skb.split t⟩).logs
        ([.map ⟨.single, a 0, skb.headlen⟩] ++ (fragMaps a 0 l).map .map)).put base P
          (skb.failedImage t a l))
      (q.txPbl.elemAddr base P) ((skb.linearBds t (a 0)).length + max (skb.room t) l.length)
      (skb.split t)) := by
  have hroom := length_linearBds_add_room_le skb t (a 0)
  obtain ⟨size, rest, hfrags⟩ := hf.frags
  have hfew := hf.few
  have hsend := xmitFrags_failed (q := q.started skb t (a 0)) T h (skb.split t)
    (skb.linearBds t (a 0)) (skb.room t) hfrags hf.mapped hf.failed (by omega)
  rw [← logs_logs]
  exact (xmitSkb_eq T h hf.linear hf.short).trans hsend

/-- **A fragment cannot be mapped.** -/
theorem xmitSkb_failed_frag
    (hcan : q.txPbl.CanRollBack q.txPbl.prod.idx (skb.rewalked t l.length)) :
    ∃ img, img.length ≤ skb.rewalked t l.length ∧ (xmitSkb map skb t q).1 = false ∧
      TakenBack q (xmitSkb map skb t q).2 base P img
        (.map ⟨.single, a 0, skb.headlen⟩ :: (fragMaps a 0 l).map .map ++
          .unmap ⟨.single, a 0, skb.linearLen t⟩ ::
            unmapBds (fragBds a 0 l ++ q.staleBds base P skb t l.length)) := by
  have hcap := T.le_capacity
  have hroom := length_linearBds_add_room_le skb t (a 0)
  have hfew := hf.few
  obtain ⟨b, tail, hbt, htail, hlen⟩ := exists_linearBds skb t (a 0)
  let zeros : List TxBd := replicate (max 1 (skb.room t - l.length)) .zero
  let stale := q.staleBds base P skb t l.length
  have hzeros : zeros.length = max 1 (skb.room t - l.length) := length_replicate
  have himg := length_failedImage skb t a l
  have hwalk := rewalked_eq skb t (a 0) l.length
  have hthree : l.length < skb.room t → (skb.linearBds t (a 0)).length + skb.room t = 3 := by
    intro hlt
    rw [length_linearBds_add_room, if_pos]
    by_contra hext
    rw [room, if_neg hext] at hlt
    omega
  have hstale : Holds (q.txPbl.elemAddr base) (write (q.txPbl.elemAddr base) q.bds P
      (skb.failedImage t a l)) (P + (skb.failedImage t a l).length) stale ∧
        stale.length = if l.length < skb.room t then 1 else 0 := by
    by_cases hlt : l.length < skb.room t
    · have himg₃ : (skb.failedImage t a l).length = 3 := by
        have := hthree hlt
        omega
      have hs : stale = [q.bds (q.txPbl.elemAddr base (P + 3))] := if_pos hlt
      rw [hs, himg₃, if_pos hlt]
      refine ⟨⟨write_of_ne fun n h₁ h₂ => (T.apart n _ ?_ ?_).symm, trivial⟩, rfl⟩ <;> omega
    · have hs : stale = [] := if_neg hlt
      rw [hs, if_neg hlt]
      exact ⟨trivial, rfl⟩
  have hlin' : (skb.linearBds t (a 0)).length = tail.length + 1 := by rw [hbt, length_cons]
  have hw : b :: tail ++ (fragBds a 0 l ++ zeros ++ stale) = skb.failedImage t a l ++ stale := by
    simp only [failedImage, zeros, hbt, append_assoc, cons_append]
  have hbds : unmapBds (fragBds a 0 l ++ zeros ++ stale) = unmapBds (fragBds a 0 l ++ stale) := by
    simp only [unmapBds_append, zeros, unmapBds_zero, append_nil]
  refine ⟨skb.failedImage t a l, by omega, ?_⟩
  have hback := takenBack_of_freeFailed T h hbd
    ⟨some skb, (q.skbs q.swTxProd).tsoSplitBd || skb.split t⟩
    ([.map ⟨.single, a 0, skb.headlen⟩] ++ (fragMaps a 0 l).map .map) (skb.failedImage t a l)
    (skb.split t) b tail (fragBds a 0 l ++ zeros ++ stale) htail
    (show (skb.linearBds t (a 0)).length + max (skb.room t) l.length = _ by
      have := hstale.2
      simp only [length_append, length_fragBds]
      split at this <;> omega)
    (bounded_failedImage skb t a l)
    (by
      rw [hw]
      exact holds_append.2 ⟨holds_write T.apart (by omega), hstale.1⟩)
    (by omega) (by omega) (hcan.mono (by omega)) (by rw [← hwalk]; exact hcan)
  rw [hlen, hbds] at hback
  rw [xmitSkb_failed_frag_eq T h hf]
  exact ⟨rfl, hback⟩

end Refused

end FastLinQ.Qede
