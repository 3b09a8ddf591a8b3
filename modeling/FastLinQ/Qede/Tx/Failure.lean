import FastLinQ.Qede.Tx.Accounting

/-!
# A packet that cannot be mapped

What `qede_free_failed_tx_pkt` should leave behind: each mapping that was made for the packet is
removed once and no other, the producer is where it was, and the BDs of the packets in flight are
as they were (`Undone`). `undone_iff` says when it does.

It never does if the linear part cannot be mapped, since the first BD is unmapped without a look at
it. If a fragment cannot be mapped it depends on the state before the call: on the pointer of the
producer, which is not put back at the end of a page, on the wrap of its index, and, if the second
or third BD is not filled, on what an earlier turn of the ring left in the fourth.
-/

namespace FastLinQ.Qede

open FastLinQ.Qed Cells Run List DmaOp TxSys Nat TxQueue ChainSide DmaMapping TxStep

/-! ## The producer after two turns back -/

/-- The chain goes back, over the BDs of the walk, and back again. -/
theorem freeFailed_txPbl {Q : TxQueue} {c : Chain} {n k : ℕ} (hQ : Q.txPbl = produceN n c)
    (hbd : Q.bdProd = k) (x nbd : ℕ) (split : Bool) (hnbd : 0 < nbd) :
    ∃ y, (qedeFreeFailedTxPkt Q x nbd split).txPbl =
      qedChainSetProd (produceN (nbd + 1) (qedChainSetProd (produceN n c) k x)) k y := by
  have hsucc : ∀ n d, produceN n (qedChainProduce d).2 = produceN (n + 1) d :=
    fun n d => (Function.iterate_succ_apply ..).symm
  cases split with
  | false =>
    simp only [qedeFreeFailedTxPkt, setSlot, setChain, unmapProduced_same,
      TxQueue.log, Bool.false_eq_true, if_false, hsucc, hQ, hbd]
    exact ⟨_, rfl⟩
  | true =>
    simp only [qedeFreeFailedTxPkt, setSlot, setChain, unmapProduced_same,
      TxQueue.log, if_true, hsucc, Nat.sub_add_cancel hnbd, hQ, hbd]
    exact ⟨_, rfl⟩

/-- What a wrapped index moves the page by, twice as much of it and the number of pages: there are
less than 256 pages, and the power of two in the offset is larger. -/
theorem dvd_offset {N : ℕ} (hN : N < 256) (h : N ∣ 2 * (2 ^ 32 - (2 ^ 32 - 2 ^ 16) / 256)) :
    N ∣ 2 ^ 32 - (2 ^ 32 - 2 ^ 16) / 256 := by
  revert N
  decide +kernel

/-- **Two turns back.** The page index is right in the end only if the longer one can be made. -/
theorem canRollBack_of_twice {c : Chain} {base : ℕ → ℕ} (T : TxRing c base)
    (h : SideOk c c.prod) {n m x y : ℕ} (hn : n < c.capacity) (hm : m < c.capacity)
    (hback : (qedChainSetProd (produceN m (qedChainSetProd (produceN n c) c.prod.idx x))
      c.prod.idx y).prod.pageIdx = c.prod.pageIdx) : c.CanRollBack c.prod.idx m := by
  have hN : c.pageCnt < 256 := by
    have hcap := T.capacity_lt
    have := T.capacity_eq
    omega
  by_contra hcan
  simp only [ChainShape.CanRollBack, T.cnt, T.ring.perPage, not_or] at hcan
  obtain ⟨-, hwrap, hdvd⟩ := hcan
  rw [not_lt] at hwrap
  -- the side in the middle
  have hmid : ∃ p < c.pageCnt, qedChainSetSide c ((nextSide c)^[n] c.prod)
      c.prod.idx x = ⟨x, c.prod.idx, p⟩ ∧ (p = c.prod.pageIdx ∨
        p = (c.prod.pageIdx + (2 ^ 32 - (2 ^ 32 - 2 ^ 16) / 256)) % c.pageCnt) := by
    rcases lt_or_ge (c.prod.idx + n) (2 ^ 16) with hlt | hge
    · refine ⟨c.prod.pageIdx, h.page, ?_, .inl rfl⟩
      exact (setSide_iff T.pblRing h hn x).2 (.inr (.inl hlt))
    · refine ⟨_, mod_lt _ T.ring.pageCnt_pos, ?_, .inr rfl⟩
      rw [setSide_wrapped T.pblRing h hn x T.cnt hge, T.ring.perPage]
      rfl
  obtain ⟨p, hp, hside, hcase⟩ := hmid
  have hok : SideOk c ⟨x, c.prod.idx, p⟩ := ⟨h.idx, hp⟩
  have hlast := setSide_wrapped T.pblRing hok hm y T.cnt hwrap
  rw [T.ring.perPage] at hlast
  have hend : (p + (2 ^ 32 - (2 ^ 32 - 2 ^ 16) / 256)) % c.pageCnt = c.prod.pageIdx := by
    rw [← hback, produceN_eq, produceN_eq]
    simp only [qedChainSetProd, hside]
    exact (congrArg pageIdx hlast).symm
  rcases hcase with rfl | rfl
  · exact hdvd ((add_mod_eq_iff h.page).1 hend)
  · rw [mod_add_mod, add_assoc] at hend
    exact hdvd (dvd_offset hN ((add_mod_eq_iff h.page).1 hend))

/-! ## The mappings that are removed -/

theorem mem_unmapBds {w : List TxBd} {m : DmaMapping}
    (h : m ∈ (unmapBds w).filterMap unmapped?) :
    ∃ b ∈ w, b.nbytes ≠ 0 ∧ m = ⟨.page, b.addr, b.nbytes⟩ := by
  obtain ⟨op, hop, hm⟩ := mem_filterMap.1 h
  obtain ⟨b, hb, rfl⟩ := mem_map.1 hop
  obtain ⟨hb, hne⟩ := mem_filter.1 hb
  exact ⟨b, hb, of_decide_eq_true hne, (Option.some.inj hm).symm⟩

variable {a : ℕ → DmaAddr} {l : List ℕ}

theorem unmapBds_fragBds {i : ℕ} (h : ∀ size ∈ l, 0 < size ∧ size < 2 ^ 16) :
    unmapBds (fragBds a i l) = (fragMaps a i l).map .unmap := by
  induction l generalizing i with
  | nil => rfl
  | cons size l ih =>
    obtain ⟨⟨hpos, hlt⟩, hl⟩ := forall_mem_cons.1 h
    rw [fragBds, unmapBds_cons, ih hl, mod_eq_of_lt hlt, if_pos hpos.ne']
    rfl

theorem exists_mem_fragMaps {i : ℕ} {size : ℕ} (h : size ∈ l) :
    ∃ x, ⟨.page, x, size⟩ ∈ fragMaps a i l := by
  induction l generalizing i with
  | nil => cases h
  | cons s l ih =>
    rcases mem_cons.1 h with rfl | h
    · exact ⟨_, mem_cons_self⟩
    · obtain ⟨x, hx⟩ := ih h
      exact ⟨x, mem_cons_of_mem _ hx⟩

/-- **What is removed is what was made**, if the byte counts say what the lengths were and there is
no data behind the packet. -/
theorem unmaps_perm_iff {stale : List TxBd} (hstale : ∀ b ∈ stale, b.Bounded) {x : DmaAddr}
    {n m : ℕ} :
    ((mk .single x n) :: (unmapBds (fragBds a 0 l ++ stale)).filterMap unmapped?).Perm
      (⟨.single, x, m⟩ :: fragMaps a 0 l) ↔
    n = m ∧ (∀ size ∈ l, 0 < size ∧ size < 2 ^ 16) ∧ ∀ b ∈ stale, b.nbytes = 0 := by
  constructor
  · intro hperm
    have hlen : n = m := by
      rcases mem_cons.1 (hperm.mem_iff.2 mem_cons_self) with heq | hmem
      · exact (congrArg len heq).symm
      · obtain ⟨b, -, -, hb⟩ := mem_unmapBds hmem
        cases hb
    have hsizes : ∀ size ∈ l, 0 < size ∧ size < 2 ^ 16 := by
      intro size hsize
      obtain ⟨y, hy⟩ := exists_mem_fragMaps hsize
      rcases mem_cons.1 (hperm.mem_iff.2 (mem_cons_of_mem _ hy)) with heq | hmem
      · cases heq
      · obtain ⟨b, hb, hne, heq⟩ := mem_unmapBds hmem
        have hbound : b.Bounded := forall_mem_append.2 ⟨bounded_fragBds a 0 l, hstale⟩ b hb
        obtain rfl : size = b.nbytes := congrArg len heq
        exact ⟨pos_of_ne_zero hne, hbound⟩
    refine ⟨hlen, hsizes, fun b hb => ?_⟩
    -- the fragments alone make up the number
    have hcount := hperm.length_eq
    rw [unmapBds_append, unmapBds_fragBds hsizes, filterMap_append, filterMap_unmapped,
      length_cons, length_cons, length_append] at hcount
    by_contra hne
    have hmem : (⟨.page, b.addr, b.nbytes⟩ : DmaMapping) ∈
        (unmapBds stale).filterMap unmapped? := by
      refine mem_filterMap.2 ⟨b.unmapPage, mem_map.2 ⟨b, ?_, rfl⟩, rfl⟩
      exact mem_filter.2 ⟨hb, decide_eq_true hne⟩
    have hpos := length_pos_of_mem hmem
    omega
  · rintro ⟨rfl, hsizes, hzero⟩
    have hnone : unmapBds stale = [] := by
      rw [unmapBds, filter_eq_nil_iff.2 fun b hb => by simp [hzero b hb], map_nil]
    rw [unmapBds_append, unmapBds_fragBds hsizes, hnone, append_nil, filterMap_unmapped]

/-- The mappings that a call made which then took its packet back. -/
theorem mapped_failed (m n : DmaMapping) (l : List DmaMapping) (w : List TxBd) :
    (map m :: l.map .map ++ .unmap n :: unmapBds w).filterMap mapped? = m :: l := by
  have hnone : (unmapBds w).filterMap mapped? = [] := by
    refine filterMap_eq_nil_iff.2 fun op hop => ?_
    obtain ⟨b, -, rfl⟩ := mem_map.1 hop
    rfl
  rw [filterMap_append, ← map_cons, filterMap_mapped, filterMap_cons_none rfl, hnone, append_nil]

/-- The mappings that it removed. -/
theorem unmapped_failed (m n : DmaMapping) (l : List DmaMapping) (w : List TxBd) :
    (map m :: l.map .map ++ .unmap n :: unmapBds w).filterMap unmapped? =
      n :: (unmapBds w).filterMap unmapped? := by
  have hnone : ((m :: l).map DmaOp.map).filterMap DmaOp.unmapped? = [] := by
    refine filterMap_eq_nil_iff.2 fun op hop => ?_
    obtain ⟨b, -, rfl⟩ := mem_map.1 hop
    rfl
  rw [filterMap_append, ← map_cons, hnone]
  rfl

/-! ## Undoing a packet -/

/-- **The call left nothing behind**: the mappings it made are removed, each once and no other; the
producer is as before; and so are the BDs from the consumer to the producer. -/
structure Undone (q Q : TxQueue) : Prop where
  unmapped : ((q.opsSince Q).filterMap unmapped?).Perm
    ((q.opsSince Q).filterMap mapped?)
  prod : Q.txPbl.prod = q.txPbl.prod
  owned : ∀ n < Word.sub 16 q.txPbl.prod.idx q.txPbl.cons.idx,
    Q.bds (qedChainConsume (consumeN n q.txPbl)).1 = q.bds (qedChainConsume (consumeN n q.txPbl)).1

/-- A packet that can be undone: a fragment cannot be mapped, the producer can be put back and is
not at the end of a page, the lengths so far fit and none is zero, and if the second or third BD is
not filled, the fourth is empty. -/
def Skb.Undoable (q : TxQueue) (skb : Skb) (t : XmitType) : XmitFate → Prop
  | .failedFrag j =>
    q.txPbl.CanRollBack q.txPbl.prod.idx (skb.rewalked t j) ∧
      (qedChainProduce q.txPbl).1 = q.txPbl.prod.elem ∧
      (skb.split t → skb.headlen < 2 ^ 16 + qedeGetSkbHlen skb t.enc) ∧
      (∀ size ∈ skb.frags.take j, 0 < size ∧ size < 2 ^ 16) ∧
      (j < skb.room t → (q.bds (qedChainProduce (produceN 3 q.txPbl)).1).nbytes = 0)
  | _ => False

instance (q : TxQueue) (skb : Skb) (t : XmitType) (f : XmitFate) :
    Decidable (skb.Undoable q t f) := by
  unfold Skb.Undoable
  cases f <;> infer_instance

/-- The first BD is unmapped although nothing was mapped. -/
theorem not_undone_failedLinear {q : TxQueue} {map : ℕ → Option DmaAddr} (skb : Skb) (t : XmitType)
    (hmap : map 0 = none) : ¬ Undone q (xmitSkb map skb t q).2 := by
  intro h
  have hops : ∃ m, q.opsSince (xmitSkb map skb t q).2 = [.unmap m] := by
    simp only [xmitSkb, xmitLinear, hmap]
    exact ⟨_, drop_left⟩
  obtain ⟨m, hm⟩ := hops
  have hperm := h.unmapped
  rw [hm] at hperm
  have hlen : 1 = 0 := hperm.length_eq
  cases hlen

section Inv

variable {M K : ℕ} {base : ℕ → ℕ} {s : TxSys} {jobs : List Job}

section

variable (h : TxInv M base s jobs K)

include h

/-- The BDs in flight are not written. -/
theorem TxInv.owned (hstop : s.stopped = false) {Q : TxQueue} {img : List TxBd} {ops : List DmaOp}
    (hQ : TakenBack s.q Q base (K + (bdsOf jobs).length) img ops) (himg : img.length ≤ M + 1)
    {n : ℕ} (hn : n < Word.sub 16 s.q.txPbl.prod.idx s.q.txPbl.cons.idx) :
    Q.bds (qedChainConsume (consumeN n s.q.txPbl)).1 =
      s.q.bds (qedChainConsume (consumeN n s.q.txPbl)).1 := by
  have hcap := h.ring.capacity_lt
  have hroom := h.room hstop
  rw [h.prod.idx, h.cons.idx, sub_wrap h.ring.cnt (by omega)] at hn
  rw [consume_consumeN h.ring h.cons, hQ.bds]
  exact write_of_ne fun i h₁ h₂ => h.ring.apart _ _ (by omega) (by omega)

/-- The producer is back in the end only if the index does not get in the way. -/
theorem TxInv.canRollBack {map : ℕ → Option DmaAddr} {a : ℕ → DmaAddr} {skb : Skb} {t : XmitType}
    {l : List ℕ} (hf : skb.FailsAfter t map a l)
    (hprod : (xmitSkb map skb t s.q).2.txPbl.prod = s.q.txPbl.prod) :
    s.q.txPbl.CanRollBack s.q.txPbl.prod.idx (skb.rewalked t l.length) := by
  have hcap := h.ring.le_capacity
  have himg := length_failedImage skb t a l
  have hfew := hf.few
  have hroom := length_linearBds_add_room_le skb t (a 0)
  have hpos : 0 < (skb.linearBds t (a 0)).length := by
    rw [length_linearBds]
    split <;> decide
  have hwalk := rewalked_eq skb t (a 0) l.length
  rw [xmitSkb_failed_frag_eq h.ring h.prod hf] at hprod
  obtain ⟨y, hy⟩ := freeFailed_txPbl (Q := ((s.q.setSlot s.q.swTxProd
    ⟨some skb, (s.q.skbs s.q.swTxProd).tsoSplitBd || skb.split t⟩).logs
      ([.map ⟨.single, a 0, skb.headlen⟩] ++ (fragMaps a 0 l).map .map)).put base
        (K + (bdsOf jobs).length) (skb.failedImage t a l))
    rfl h.bdProd
    (s.q.txPbl.elemAddr base (K + (bdsOf jobs).length))
    ((skb.linearBds t (a 0)).length + max (skb.room t) l.length) (skb.split t) (by omega)
  simp only [hy, ← hwalk] at hprod
  exact canRollBack_of_twice h.ring (h.prod.sideOk h.ring.ring) (by omega) (by omega)
    (congrArg pageIdx hprod)

/-- A fragment cannot be mapped. -/
theorem TxInv.undone_iff_failedFrag (hM : 17 ≤ M) (hbounded : ∀ x, (s.q.bds x).Bounded)
    (hstop : s.stopped = false) {skb skb' : Skb} {env : XmitEnv}
    (hprep : skb.prepared env = some skb') {j : ℕ}
    (hfate : skb'.fate (qedeXmitType skb) env.map = .failedFrag j) :
    Undone s.q (xmitSkb env.map skb' (qedeXmitType skb) s.q).2 ↔
      skb'.Undoable s.q (qedeXmitType skb) (.failedFrag j) := by
  generalize ht : qedeXmitType skb = t at hfate ⊢
  have hspec := fate_spec skb' t env.map
  rw [hfate] at hspec
  obtain ⟨hmap₀, hlong, l, size, rest, hfrags, rfl, hmap, hfail⟩ := hspec
  have hnr := prepared_nrFrags hprep
  have hj : l.length < skb'.nrFrags := by
    rw [Skb.nrFrags, hfrags, length_append, length_cons]
    omega
  have hf : skb'.FailsAfter t env.map (addrOf env.map) l :=
    ⟨hlong, hmap₀, ⟨_, _, hfrags⟩, hmap, hfail, by omega⟩
  have htake : skb'.frags.take l.length = l := by rw [hfrags, take_left]
  have hfirst : (qedChainProduce s.q.txPbl).1 = s.q.txPbl.elemAddr base (K + (bdsOf jobs).length) :=
    (h.prod.next h.ring.ring h.ring.mode).1
  have hfourth := congrArg Prod.fst (produce_produceN h.ring h.prod 3)
  have hstale : ∀ b ∈ s.q.staleBds base (K + (bdsOf jobs).length) skb' t l.length, b.Bounded := by
    intro b hb
    rw [staleBds] at hb
    split at hb
    · obtain rfl := mem_singleton.1 hb
      exact hbounded _
    · cases hb
  have hzero : (∀ b ∈ s.q.staleBds base (K + (bdsOf jobs).length) skb' t l.length,
      b.nbytes = 0) ↔ (l.length < skb'.room t →
        (s.q.bds (qedChainProduce (produceN 3 s.q.txPbl)).1).nbytes = 0) := by
    rw [hfourth, staleBds]
    split
    · rename_i hlt
      simp [hlt]
    · rename_i hlt
      exact iff_of_true (forall_mem_nil _) fun hlt' => absurd hlt' hlt
  simp only [Skb.Undoable, htake, ← hzero, ← linearLen_eq_iff hlong]
  -- once the index does not get in the way, the call is known
  have key : s.q.txPbl.CanRollBack s.q.txPbl.prod.idx
      (skb'.rewalked t l.length) →
      (Undone s.q (xmitSkb env.map skb' t s.q).2 ↔
        (qedChainProduce s.q.txPbl).1 = s.q.txPbl.prod.elem ∧
        skb'.linearLen t = skb'.headlen ∧
        (∀ size ∈ l, 0 < size ∧ size < 2 ^ 16) ∧
        ∀ b ∈ s.q.staleBds base (K + (bdsOf jobs).length) skb' t l.length, b.nbytes = 0) := by
    intro hcan
    obtain ⟨img, himg, -, hback⟩ := xmitSkb_failed_frag h.ring h.prod h.bdProd hf hcan
    have hle := rewalked_le hprep hj
    rw [ht] at hle
    have hperm := unmaps_perm_iff (a := addrOf env.map) (l := l) hstale (x := addrOf env.map 0)
      (n := skb'.linearLen t) (m := skb'.headlen)
    rw [← unmapped_failed ⟨.single, addrOf env.map 0, skb'.headlen⟩ _
      (fragMaps (addrOf env.map) 0 l),
      ← mapped_failed _ ⟨.single, addrOf env.map 0, skb'.linearLen t⟩ _
        (fragBds (addrOf env.map) 0 l ++
          s.q.staleBds base (K + (bdsOf jobs).length) skb' t l.length)] at hperm
    have hprod : (xmitSkb env.map skb' t s.q).2.txPbl.prod = s.q.txPbl.prod ↔
        (qedChainProduce s.q.txPbl).1 = s.q.txPbl.prod.elem := by
      rw [hback.chain, hfirst]
      refine ⟨congrArg elem, fun he => ?_⟩
      rw [atFirst, he]
      rfl
    rw [← hperm, ← hprod]
    have hdma := (congrArg (List.drop s.q.dma.length) hback.dma).trans drop_left
    rw [← hdma]
    exact ⟨fun hu => ⟨hu.prod, hu.unmapped⟩,
      fun hu => ⟨hu.2, hu.1, fun n hn => h.owned hstop hback (by omega) hn⟩⟩
  exact ⟨fun hu => by
    have hcan := h.canRollBack hf hu.prod
    exact ⟨hcan, (key hcan).1 hu⟩, fun hu => (key hu.1).2 hu.2⟩

end

end Inv

def TxStep.Orderly (s : TxSys) (a : TxStep) : Prop := a.Enabled s ∧ a.Kept s

theorem orderly_run {env : DmaEnv} {mem : ℕ → TxBd} {num M : ℕ} {q : TxQueue} {l : List TxStep}
    (h : qedeAllocMemTxq env mem num = .ok q) (hmem : ∀ x, (mem x).Bounded)
    (hd : env.Disjoint QED_CHAIN_PAGE_SIZE (txChainParams num).pageCnt) (hpos : 0 < num)
    (hnum : num ≤ NUM_TX_BDS_MAX) (hM : 17 ≤ M) (hM' : M < 256)
    (hrun : Meets Orderly (step M) (.start q) l) :
    (∃ jobs K, TxInv M env.addr (l.foldl (step M) (.start q)) jobs K) ∧
      ∀ x, ((l.foldl (step M) (.start q)).q.bds x).Bounded := by
  have hstart : (∃ jobs K, TxInv M env.addr (.start q) jobs K) ∧
      ∀ x, ((start q).q.bds x).Bounded := by
    refine ⟨⟨[], 0, txInv_start h hd hpos hnum hM'⟩, ?_⟩
    obtain ⟨c, -, rfl⟩ := allocMemTxq_ok h
    exact hmem
  refine hrun.invariant (P := fun s => (∃ jobs K, TxInv M env.addr s jobs K) ∧
    ∀ x, (s.q.bds x).Bounded) (fun s a hs hok => ?_) hstart
  obtain ⟨⟨jobs, K, inv⟩, hbounded⟩ := hs
  cases a with
  | xmit skb env =>
    obtain ⟨-, hb, ⟨-, inv', -⟩ | ⟨j, -, -, -, -, -, inv', -⟩⟩ := inv.xmit hM hok.1 hok.2
    · exact ⟨⟨_, _, inv'⟩, hb hbounded⟩
    · exact ⟨⟨_, _, inv'⟩, hb hbounded⟩
  | complete up =>
    have hlt : s.released.length < s.sent.length := hok.1
    cases jobs with
    | nil =>
      have hlen := inv.length_sent
      rw [length_nil] at hlen
      omega
    | cons j jobs =>
      obtain ⟨inv', hbds, -⟩ := inv.complete up
      exact ⟨⟨_, _, inv'⟩, by rw [hbds]; exact hbounded⟩

/-- **When a failed mapping is undone.** After any orderly calls, if a mapping of the next packet
fails, the call leaves nothing behind exactly if the packet is undoable. -/
theorem undone_iff {env : DmaEnv} {mem : ℕ → TxBd} {num M : ℕ} {q : TxQueue} {l : List TxStep}
    (h : qedeAllocMemTxq env mem num = .ok q) (hmem : ∀ x, (mem x).Bounded)
    (hd : env.Disjoint QED_CHAIN_PAGE_SIZE (txChainParams num).pageCnt) (hpos : 0 < num)
    (hnum : num ≤ NUM_TX_BDS_MAX) (hM : 17 ≤ M) (hM' : M < 256)
    (hrun : Meets Orderly (step M) (.start q) l) {skb skb' : Skb} {xenv : XmitEnv}
    (hprep : skb.prepared xenv = some skb')
    (hfail : skb'.fate (qedeXmitType skb) xenv.map ≠ .sent ∧
      skb'.fate (qedeXmitType skb) xenv.map ≠ .tooLong)
    (hopen : (l.foldl (step M) (.start q)).stopped = false) :
    let s := l.foldl (step M) (.start q)
    Undone s.q (qedeStartXmit s.q skb xenv).2 ↔
      skb'.Undoable s.q (qedeXmitType skb) (skb'.fate (qedeXmitType skb) xenv.map) := by
  intro s
  obtain ⟨⟨jobs, K, inv⟩, hbounded⟩ := orderly_run h hmem hd hpos hnum hM hM' hrun
  rw [qedeStartXmit, hprep]
  cases hfate : skb'.fate (qedeXmitType skb) xenv.map with
  | sent => exact absurd hfate hfail.1
  | tooLong => exact absurd hfate hfail.2
  | failedLinear =>
    have hspec := fate_spec skb' (qedeXmitType skb) xenv.map
    rw [hfate] at hspec
    exact iff_of_false (not_undone_failedLinear skb' _ hspec) id
  | failedFrag j => exact inv.undone_iff_failedFrag hM hbounded hopen hprep hfate

/-- An IOMMU that has no address for mapping `i`. -/
def mapAllBut (i : ℕ) : XmitEnv := ⟨true, fun k => if k = i then none else mapAll.map k⟩

/-- On a fresh queue a segmented packet is undone when its second fragment cannot be mapped. -/
theorem undone_second_fragment :
    ∃ q, kdumpTxq = .ok q ∧ Undone q (qedeStartXmit q lsoSkb (mapAllBut 2)).2 := by
  have hrun : kdumpTxq.map (fun q => decide (lsoSkb.Undoable q (qedeXmitType lsoSkb)
      (lsoSkb.fate (qedeXmitType lsoSkb) (mapAllBut 2).map))) = .ok true := by decide +kernel
  obtain ⟨q, hq, hcan⟩ := exists_of_map_ok hrun
  exact ⟨q, hq, (undone_iff (l := []) hq (fun _ => Nat.two_pow_pos 16)
    (DmaEnv.backToBack_disjoint _ _ _) (by decide) (by decide) (le_refl 17) (by decide) trivial
    (by decide) (by decide) rfl).2 (of_decide_eq_true hcan.symm)⟩

/-- If the linear part cannot be mapped, address 0 is unmapped. -/
theorem not_undone_linear :
    ¬ ∀ (env : DmaEnv) (mem : ℕ → TxBd) (num M : ℕ) (q : TxQueue) (l : List TxStep)
      (skb skb' : Skb) (xenv : XmitEnv), qedeAllocMemTxq env mem num = .ok q →
      (∀ x, (mem x).Bounded) → env.Disjoint QED_CHAIN_PAGE_SIZE (txChainParams num).pageCnt →
      0 < num → num ≤ NUM_TX_BDS_MAX → 17 ≤ M → M < 256 →
      Meets Orderly (step M) (.start q) l → skb.prepared xenv = some skb' →
      skb'.fate (qedeXmitType skb) xenv.map ≠ .sent ∧
        skb'.fate (qedeXmitType skb) xenv.map ≠ .tooLong →
      (l.foldl (step M) (.start q)).stopped = false →
      Undone (l.foldl (step M) (.start q)).q
        (qedeStartXmit (l.foldl (step M) (.start q)).q skb xenv).2 := by
  intro hall
  have hrun : kdumpTxq.map (fun _ => true) = .ok true := by decide +kernel
  obtain ⟨q, hq, -⟩ := exists_of_map_ok hrun
  have hundone := hall _ _ 32 17 q [] (plainSkb []) (plainSkb []) (mapAllBut 0) hq
    (fun _ => Nat.two_pow_pos 16) (DmaEnv.backToBack_disjoint _ _ _) (by decide) (by decide)
    le_rfl (by decide) trivial (by decide) (by decide) rfl
  exact not_undone_failedLinear (plainSkb []) (qedeXmitType (plainSkb [])) rfl hundone

end FastLinQ.Qede
