import FastLinQ.Qede.Rx.Ring

/-!
# Receive buffers are not shared

Every completion leaves the pages owned (`RxInv.cqe`), as long as a page that an XDP program sends
back finds a free slot in the software ring. Nothing ensures that: the software ring has as many
slots as were asked for, and `qede_xdp_xmit` looks at the chain, which has the elements of whole
pages.
-/

namespace FastLinQ.Qede

open FastLinQ.Qed List Nat Option RxQueue AggInfo

namespace RxInv

variable {q q' : RxQueue} {b : Seg} {posted : List Seg} {pool : List ℕ} {hand : List PagePart}
  {a : ℕ}

/-! ## Socket buffers -/

/-- What the functions that build a socket buffer leave: a socket buffer that has the BD, or the
queue as it was. -/
def Built (q' : RxQueue) (b : Seg) (posted : List Seg) (pool : List ℕ) (hand : List PagePart) :
    Option RxSkb → Prop
  | none => RxInv q' (b :: posted) pool hand
  | some skb => ∃ posted' pool', RxInv q' posted' pool' (skb.parts ++ hand) ∧
      posted.length ≤ posted'.length

/-- The reference that was taken for a socket buffer goes with it. -/
theorem kfree_inc (q : RxQueue) (part : PagePart) (len : ℕ) :
    (q.pageRefInc part.page).kfreeSkb ⟨[part], len⟩ = q := by
  unfold kfreeSkb pageRefInc
  rw [RxSkb.pages, map_singleton, Shares.put_get]

/-- How a socket buffer is built: it is refused, the packet is copied and the BD is posted again, or
the slot is renewed as `qede_realloc_rx_buffer` does. -/
inductive Builds (q : RxQueue) : Option RxSkb → RxQueue → Prop
  | refused : Builds q none q
  | copied (len : ℕ) : Builds q (some ⟨[], len⟩) q.qedeReusePage.qedeRxBdRingConsume
  | failed {q₁ : RxQueue} (h : q.qedeReallocRxBuffer = (false, q₁)) : Builds q none q₁
  | renewed {q₁ : RxQueue} (h : q.qedeReallocRxBuffer = (true, q₁)) (len : ℕ) :
    Builds q (some ⟨[q.currPart], len⟩) q₁.qedeRxBdRingConsume
  | cleared {q₁ : RxQueue} (h : q.qedeReallocRxBuffer = (true, q₁)) (len : ℕ) (d : SwRxData) :
    Builds q (some ⟨[q.currPart], len⟩) (q₁.setCurrCons d).qedeRxBdRingConsume

theorem builds_skb {len pad : ℕ} {skbOk : Bool} {r : Option RxSkb}
    (hbuild : q.qedeRxBuildSkb len pad skbOk = (r, q')) : Builds q r q' := by
  unfold qedeRxBuildSkb at hbuild
  split at hbuild
  · cases hbuild
    exact .refused
  split at hbuild
  · cases hbuild
    exact .copied len
  cases hrealloc : q.qedeReallocRxBuffer with
  | mk ok q₁ =>
    rw [hrealloc] at hbuild
    cases ok with
    | false =>
      cases hbuild
      rw [kfree_inc]
      exact .failed hrealloc
    | true =>
      cases hbuild
      exact .renewed hrealloc len

theorem builds_tpaSkb {len : ℕ} {skbOk : Bool} {r : Option RxSkb}
    (hbuild : q.qedeTpaRxBuildSkb len skbOk = (r, q')) : Builds q r q' := by
  cases skbOk with
  | false =>
    cases hbuild
    exact .refused
  | true =>
    obtain ⟨ok, q₀, hres⟩ : ∃ ok q₀, q.qedeReallocRxBuffer = (ok, q₀) := ⟨_, _, rfl⟩
    have hrealloc := hres
    unfold qedeTpaRxBuildSkb at hbuild
    unfold qedeReallocRxBuffer at hrealloc
    dsimp only at hbuild hrealloc
    generalize q.setCurrCons
      { q.currCons with pageOffset := q.currCons.pageOffset + q.cfg.rxBufSegSize } = q₁
      at hbuild hrealloc
    by_cases hend : q.currCons.pageOffset + q₁.cfg.rxBufSegSize = q₁.cfg.pageSize
    · rw [if_pos hend] at hbuild hrealloc
      cases halloc : q₁.qedeAllocRxBuffer true with
      | mk ok q₂ =>
        rw [halloc] at hbuild hrealloc
        cases ok with
        | false =>
          cases hbuild
          cases hrealloc
          change Builds q none (kfreeSkb (pageRefInc _ q.currPart.page) _)
          rw [kfree_inc]
          exact .failed hres
        | true =>
          cases hbuild
          cases hrealloc
          split
          · exact .cleared hres len _
          · exact .renewed hres len
    · rw [if_neg hend] at hbuild hrealloc
      cases hbuild
      cases hrealloc
      exact .renewed hres len

/-- The slot that was consumed last may be written to. -/
theorem stale (h : RxInv q.qedeRxBdRingConsume posted pool hand) (d : SwRxData) :
    RxInv (q.setCurrCons d).qedeRxBdRingConsume posted pool hand := by
  have hring := h.mid.ring.stale (by decide) (by rw [length_map]; exact h.length_lt) d
  rw [← slot_eq] at hring
  exact ⟨⟨hring, { h.owns with }⟩, h.le_filled, h.filled_le⟩

/-- **A socket buffer is built.** -/
theorem builds (h : RxInv q (b :: posted) pool hand) {r : Option RxSkb} (hbuild : Builds q r q') :
    RxKept q q' ∧ Built q' b posted pool hand r := by
  cases hbuild with
  | refused => exact ⟨.refl q, h⟩
  | copied =>
    refine ⟨⟨rfl, rfl, rfl, rfl⟩, _, pool, h.reuse, ?_⟩
    rw [length_append]
    exact le_add_right _ _
  | failed hrealloc => exact h.realloc hrealloc
  | renewed hrealloc =>
    obtain ⟨hkept, posted', pool', hinv, hmore⟩ := h.realloc hrealloc
    refine ⟨hkept.trans ⟨rfl, rfl, rfl, rfl⟩, posted', pool', ?_, hmore⟩
    rw [h.currPart]
    exact hinv
  | cleared hrealloc len d =>
    obtain ⟨hkept, posted', pool', hinv, hmore⟩ := h.realloc hrealloc
    refine ⟨hkept.trans ⟨rfl, rfl, rfl, rfl⟩, posted', pool', ?_, hmore⟩
    rw [h.currPart]
    exact hinv.stale d

/-! ## Aggregations -/

theorem setAgg (h : RxInv q posted pool hand) {info : AggInfo} {hand' : List PagePart}
    (howns : Owns (q.setAgg a info) posted pool hand') :
    RxInv (q.setAgg a info) posted pool hand' :=
  { h with mid.owns := howns }

theorem fillFrag (h : RxInv q (b :: posted) pool []) (ha : a < ETH_TPA_MAX_AGGS_NUM) (len : ℕ) :
    ∃ posted' pool', RxInv (qedeFillFragSkb a q len) posted' pool' [] ∧
      posted.length ≤ posted'.length := by
  unfold qedeFillFragSkb
  dsimp only
  split
  · have hfail : RxInv (q.setAgg a { q.tpaInfo a with state := .error }) (b :: posted) pool [] :=
      h.setAgg (h.owns.failAgg ha rfl rfl)
    obtain ⟨posted', hinv, hlen, -⟩ := hfail.recycle (succ_pos _)
    exact ⟨posted', pool, hinv, by rw [hlen]; exact le_succ _⟩
  rename_i hstate
  obtain ⟨skb, hskb⟩ := ne_none_iff_exists'.1 ((h.owns.aggs a).started (not_not.1 hstate))
  cases hrealloc : q.qedeReallocRxBuffer with
  | mk ok q₁ =>
    obtain ⟨hkept, hres⟩ := h.realloc hrealloc
    have hskb₁ : (q₁.tpaInfo a).skb = some skb := by rw [hkept.tpaInfo, hskb]
    have hstate₁ : (q₁.tpaInfo a).state = .start := by
      rw [hkept.tpaInfo]
      exact not_not.1 hstate
    cases ok with
    | false =>
      rw [hskb]
      have hfail : RxInv ((q₁.pageRefInc q.currPart.page).setAgg a ⟨.error,
          some { skb with parts := skb.parts ++ [q.currPart] },
          ((q.tpaInfo a).fragId + 1) % 2 ^ 8⟩) (b :: posted) pool [] :=
        { hres with mid.owns := hres.owns.failFrag ha hskb₁ _ _ }
      obtain ⟨posted', hinv, hlen, -⟩ := hfail.recycle (succ_pos _)
      exact ⟨posted', pool, hinv, by rw [hlen]; exact le_succ _⟩
    | true =>
      dsimp only
      obtain ⟨posted', pool', hinv, hmore⟩ := hres
      rw [hskb, map_some]
      refine ⟨posted', pool', hinv.setAgg (hinv.owns.setAgg ha ?_ ?_ ⟨by simp, by simp⟩), hmore⟩
      · change _ = (q₁.tpaInfo a).pages + _
        rw [pages, pages, hskb₁, toList_some, toList_some, skbPages_singleton,
          skbPages_singleton, h.currPart, RxSkb.pages, RxSkb.addFrag, map_append, map_nil,
          Multiset.coe_nil, add_zero]
        rfl
      · rintro part (hmem | ⟨-, s, hs, hmem⟩)
        · cases hmem
        · cases hs
          rcases mem_append.1 hmem with hmem | hmem
          · exact .inr (.inr ⟨a, ha, skb, hstate₁, hskb₁, hmem⟩)
          · rw [h.currPart] at hmem
            exact .inl hmem

section

variable (h : RxInv q posted pool [])

include h

section

variable (ha : a < ETH_TPA_MAX_AGGS_NUM)

include ha

theorem fillFrags {lens : List ℕ} (hlen : lens.length ≤ posted.length) :
    ∃ posted' pool', RxInv (lens.foldl (qedeFillFragSkb a) q) posted' pool' [] := by
  induction lens generalizing q posted pool with
  | nil => exact ⟨posted, pool, h⟩
  | cons len lens ih =>
    cases posted with
    | nil => exact nomatch hlen
    | cons b posted =>
      obtain ⟨posted₁, pool₁, hinv, hmore⟩ := h.fillFrag ha len
      exact ih hinv ((le_of_succ_le_succ hlen).trans hmore)

theorem tpaStart {len ext₀ ext₁ : ℕ} (skbOk : Bool)
    (hlen : (if ext₀ = 0 then 1 else 2) ≤ posted.length) :
    ∃ posted' pool', RxInv (q.qedeTpaStart a len ext₀ ext₁ skbOk) posted' pool' [] := by
  unfold qedeTpaStart
  dsimp only
  cases posted with
  | nil =>
    split at hlen <;> cases hlen
  | cons b posted =>
    split
    · have hlose : RxInv (RxQueue.setAgg { q with lost := q.lost ++ (q.tpaInfo a).skb.toList } a
          { q.tpaInfo a with state := .error, skb := none }) (b :: posted) pool [] :=
        { h with mid.owns := h.owns.loseAgg ha }
      obtain ⟨posted', hinv, -⟩ := hlose.recycle (succ_pos _)
      exact ⟨posted', pool, hinv⟩
    rename_i hbad
    have hnone : (q.tpaInfo a).skb = none :=
      (h.owns.aggs a).ended (not_not.1 fun hne => hbad (.inl hne))
    cases hbuild : q.qedeTpaRxBuildSkb len skbOk with
    | mk r q₁ =>
      obtain ⟨hkept, hres⟩ := h.builds (builds_tpaSkb hbuild)
      have hnone₁ : (q₁.tpaInfo a).skb = none := by rw [hkept.tpaInfo, hnone]
      cases r with
      | none =>
        obtain ⟨posted', hinv, -, hkept'⟩ := hres.recycle (succ_pos _)
        refine ⟨posted', pool, hinv.setAgg (hinv.owns.failAgg ha ?_ rfl)⟩
        rw [hkept'.tpaInfo, hnone₁]
      | some skb =>
        obtain ⟨posted', pool', hinv, hmore⟩ := hres
        rw [append_nil] at hinv
        have hstart : RxInv (q₁.setAgg a ⟨.start, some skb, 0⟩) posted' pool' [] := by
          refine hinv.setAgg (hinv.owns.setAgg ha ?_ ?_ ⟨by simp, by simp⟩)
          · rw [pages, pages, hnone₁, toList_some, skbPages_singleton]
            exact add_comm _ _
          · rintro part (hmem | ⟨-, s, hs, hmem⟩)
            · cases hmem
            · cases hs
              exact .inl hmem
        dsimp only
        split
        · rename_i hext
          rw [if_neg hext] at hlen
          obtain ⟨c, posted'', rfl⟩ := exists_cons_of_length_pos
            (lt_of_lt_of_le (succ_lt_succ_iff.1 hlen) hmore)
          obtain ⟨posted₂, pool₂, hinv₂, -⟩ := hstart.fillFrag ha ext₀
          exact ⟨posted₂, pool₂, hinv₂⟩
        · exact ⟨posted', pool', hstart⟩

theorem tpaCont {lenList : List ℕ} (hlen : (lens lenList).length ≤ posted.length) :
    ∃ posted' pool', RxInv (q.qedeTpaCont a lenList) posted' pool' [] := by
  obtain ⟨posted', pool', hinv⟩ := h.fillFrags ha hlen
  unfold qedeTpaCont
  dsimp only
  split
  · exact ⟨posted', pool', hinv.setAgg (hinv.owns.failAgg ha rfl rfl)⟩
  · exact ⟨posted', pool', hinv⟩

theorem tpaEnd {lenList : List ℕ} (numOfBds totalPacketLen : ℕ)
    (hlen : (lens lenList).length ≤ posted.length) :
    ∃ posted' pool', RxInv (q.qedeTpaEnd a lenList numOfBds totalPacketLen) posted' pool' [] := by
  obtain ⟨posted', pool', hinv⟩ := h.fillFrags ha hlen
  unfold qedeTpaEnd
  dsimp only
  generalize foldl (qedeFillFragSkb a) q (lens lenList) = q₁ at hinv
  refine ⟨posted', pool', ?_⟩
  split
  · have howns := hinv.owns.endAgg ha
    revert howns
    cases (q₁.tpaInfo a).skb with
    | none => exact fun howns => { hinv with mid.owns := howns }
    | some skb => exact fun howns => { hinv with mid.owns := howns }
  · rename_i hgood
    have hstate := not_not.1 fun hne => hgood (.inr (.inl hne))
    exact { hinv with mid.owns := hinv.owns.passAgg ha hstate }

/-! ## Regular packets -/

end

end

theorem addPage_consume (q : RxQueue) (page : ℕ) :
    (q.qedeRxBdRingConsume.qedeAddPageToPool page true).2 =
      (q.qedeAddPageToPool page true).2.qedeRxBdRingConsume := by
  unfold qedeAddPageToPool qedeRxBdRingConsume
  dsimp only
  split
  · rfl
  · split <;> rfl

theorem handPerm {hand' : List PagePart} (h : RxInv q posted pool hand) (hperm : hand'.Perm hand) :
    RxInv q posted pool hand' :=
  { h with mid.owns := h.owns.handPerm hperm }

/-- **The further BDs of a packet.** -/
theorem buildJumbo {n pktLen left : ℕ} {skb skb' : RxSkb} (h : RxInv q posted pool skb.parts)
    (hn : n ≤ posted.length) (hjumbo : qedeRxBuildJumbo n pktLen skb q = (left, skb', q')) :
    ∃ posted' pool', RxInv q' posted' pool' skb'.parts ∧ left ≤ posted'.length := by
  induction n generalizing q posted pool pktLen skb with
  | zero =>
    cases hjumbo
    exact ⟨posted, pool, h, zero_le _⟩
  | succ n ih =>
    rw [qedeRxBuildJumbo] at hjumbo
    by_cases hzero : (if q.cfg.rxBufSize < pktLen then q.cfg.rxBufSize else pktLen) = 0
    · rw [if_pos hzero] at hjumbo
      cases hjumbo
      exact ⟨posted, pool, h, hn⟩
    rw [if_neg hzero] at hjumbo
    obtain ⟨b, posted, rfl⟩ := exists_cons_of_length_pos (lt_of_lt_of_le n.succ_pos hn)
    have hle : n ≤ posted.length := le_of_succ_le_succ hn
    cases halloc : q.qedeAllocRxBuffer true with
    | mk ok q₁ =>
      rw [halloc] at hjumbo
      cases ok with
      | false =>
        cases hjumbo
        exact ⟨b :: posted, pool, h.allocFails halloc, hn⟩
      | true =>
        obtain ⟨-, hfilled, posted', pool', hmid, hcount, hmore⟩ :=
          allocLazy h.mid h.le_filled h.filled_le halloc
        dsimp only at hjumbo
        rw [hmid.currCons, addPage_consume] at hjumbo
        obtain ⟨pool'', hinv⟩ := replace ⟨b.page, q₁.cfg.rxHeadroom, q₁.cfg.rxHeadroom +
          if q.cfg.rxBufSize < pktLen then q.cfg.rxBufSize else pktLen⟩ hmid hcount hfilled rfl
        refine ih (hinv.handPerm ?_) (hle.trans hmore) hjumbo
        exact perm_append_singleton _ _

theorem buildPacket (h : RxInv q posted pool []) {bdNum : ℕ} (hpos : 0 < bdNum)
    (hn : bdNum ≤ posted.length) (len pktLen pad : ℕ) (skbOk : Bool) :
    ∃ posted' pool', RxInv (q.buildPacket bdNum len pktLen pad skbOk) posted' pool' [] := by
  obtain ⟨b, posted, rfl⟩ := exists_cons_of_length_pos (hpos.trans_le hn)
  unfold buildPacket
  cases hbuild : q.qedeRxBuildSkb len pad skbOk with
  | mk r q₁ =>
    obtain ⟨-, hres⟩ := h.builds (builds_skb hbuild)
    cases r with
    | none =>
      obtain ⟨posted', hinv, -⟩ := RxInv.recycle hres hn
      exact ⟨posted', pool, hinv⟩
    | some skb =>
      obtain ⟨posted', pool', hinv, hmore⟩ := hres
      dsimp only
      split
      · rw [append_nil] at hinv
        cases hjumbo : qedeRxBuildJumbo (bdNum - 1) (Word.sub 16 pktLen len) skb q₁ with
        | mk left r =>
          obtain ⟨skb', q₂⟩ := r
          have hlen : bdNum ≤ posted.length + 1 := hn
          obtain ⟨posted₂, pool₂, hinv₂, hleft⟩ := hinv.buildJumbo (by omega) hjumbo
          rw [← append_nil skb'.parts] at hinv₂
          cases left with
          | zero =>
            exact ⟨posted₂, pool₂, { hinv₂ with mid.owns := hinv₂.owns.pass }⟩
          | succ left =>
            obtain ⟨posted₃, hinv₃, -⟩ := hinv₂.recycle hleft
            exact ⟨posted₃, pool₂, { hinv₃ with mid.owns := hinv₃.owns.kfreeSkb }⟩
      · exact ⟨posted', pool', { hinv with mid.owns := hinv.owns.pass }⟩

/-! ## XDP -/

theorem recyclePage_same (q : RxQueue) (page : ℕ) : RxSame q (q.recyclePage page) := by
  have hadd := addPage_same q page false
  unfold recyclePage
  generalize q.qedeAddPageToPool page false = r at hadd
  obtain ⟨ok, q₁⟩ := r
  cases ok with
  | false => exact hadd.trans ⟨⟨rfl, rfl, rfl, rfl⟩, rfl, rfl, rfl, rfl, rfl⟩
  | true => exact hadd

section

variable (h : RxInv q posted pool [])

include h

/-- **A packet that the XDP program does not pass on.** -/
theorem rxXdp {bdNum : ℕ} (hpos : 0 < bdNum) (hn : bdNum ≤ posted.length) {act : XdpAction}
    (hroom : act = .tx →
      q.pending.length < q.cfg.numTxBuffers ∨ qedChainGetElemLeft q.xdpTx.txPbl = 0) :
    ∃ posted' pool', RxInv (q.qedeRxXdp bdNum act) posted' pool' [] := by
  have hdrop : ∃ posted' pool', RxInv (q.qedeRecycleRxBdRing bdNum) posted' pool' [] := by
    obtain ⟨posted', hinv, -⟩ := h.recycle hn
    exact ⟨posted', pool, hinv⟩
  cases act with
  | pass => exact ⟨posted, pool, h⟩
  | aborted => exact hdrop
  | drop => exact hdrop
  | other => exact hdrop
  | tx =>
    obtain ⟨b, posted, rfl⟩ := exists_cons_of_length_pos (hpos.trans_le hn)
    unfold qedeRxXdp
    dsimp only
    cases halloc : q.qedeAllocRxBuffer true with
    | mk ok q₁ =>
      cases ok with
      | false =>
        obtain ⟨posted', hinv, -⟩ := (h.allocFails halloc).recycle (succ_pos _)
        exact ⟨posted', pool, hinv⟩
      | true =>
        obtain ⟨hkept, hfilled, posted', pool', hmid, hcount, -⟩ :=
          allocLazy h.mid h.le_filled h.filled_le halloc
        have hnew := hmid.owns.page_notMem
        have hgiven : Owns q₁ posted' pool' [⟨b.page, 0, 0⟩] := hmid.owns.handOver rfl
        dsimp only
        rw [hmid.currCons, show b.entry.page = b.page from rfl]
        by_cases hleft : qedChainGetElemLeft q₁.xdpTx.txPbl = 0
        · have hfail : q₁.qedeXdpXmit b.page = (false, q₁) := if_pos hleft
          have hsame := recyclePage_same q₁ b.page
          obtain ⟨pool'', howns⟩ := hgiven.recyclePage hnew
          rw [hfail]
          obtain ⟨hle, hle'⟩ := hsame.bounds ⟨hcount, hfilled⟩
          exact ⟨posted', pool'', (hmid.of_same hsame howns).consume, hle, hle'⟩
        · have hfree : q₁.pending.length < q₁.cfg.numTxBuffers := by
            have hroom := hroom rfl
            rw [← hkept.pending, ← hkept.cfg, ← hkept.xdpTx] at hroom
            exact hroom.resolve_right hleft
          have howns := hgiven.xdpXmit hnew hleft hfree
          unfold qedeXdpXmit at howns ⊢
          dsimp only at ⊢
          rw [if_neg hleft] at howns ⊢
          exact ⟨posted', pool', RxMid.consume ⟨hmid.ring, howns⟩, hcount, hfilled⟩

/-- **The oldest XDP packet was sent.** -/
theorem xdpSent (hne : q.pending ≠ []) : ∃ pool', RxInv q.qedeXdpTxInt posted pool' [] := by
  obtain ⟨hgiven, hnew⟩ := h.owns.xdpTake hne
  have hsame := recyclePage_same q.xdpTake (q.xdpTx.xdp q.xdpTx.swTxCons)
  obtain ⟨pool', howns⟩ := hgiven.recyclePage hnew
  have htake : RxInv q.xdpTake posted pool _ := { h with mid.owns := hgiven }
  exact ⟨pool', htake.of_same hsame howns⟩

/-! ## Runs -/

theorem refill {n : ℕ} (hn : q.filledBuffers + n ≤ q.cfg.numRxBuffers) :
    ∃ posted' pool', RxInv (refill n q).2 posted' pool' [] := by
  induction n generalizing q posted pool with
  | zero => exact ⟨posted, pool, h⟩
  | succ n ih =>
    have hnow := h.mid.allocNow (by rw [length_map]; exact h.length_lt)
    have hlazy : q.qedeAllocRxBuffer false = q.allocNow := if_neg nofun
    rw [refill, hlazy]
    generalize q.allocNow = r at hnow
    obtain ⟨ok, q₁⟩ := r
    rcases hnow with ⟨rfl, hmid, hsame⟩ | ⟨rfl, hkept, hcount, page, pool', hmid⟩
    · exact ⟨posted, pool, h.of_same hsame hmid.owns⟩
    · have hnum := q.cfg.num_le
      unfold NUM_RX_BDS_MAX at hnum
      dsimp only at hkept hcount hmid ⊢
      rw [mod_eq_of_lt (by omega)] at hcount
      have hinv : RxInv q₁ (posted ++ [⟨page, 0⟩]) pool' [] := by
        refine ⟨?_, ?_, ?_⟩
        · rw [map_append]
          exact hmid
        · rw [hcount, length_append]
          exact succ_le_succ h.le_filled
        · rw [hcount, hkept.cfg]
          omega
      refine ih hinv ?_
      rw [hcount, hkept.cfg]
      omega

end

theorem setAllocs (h : RxInv q posted pool hand) (allocs : List AllocEnv) :
    RxInv { q with allocs := allocs } posted pool hand :=
  { h with mid.owns := { h.owns with } }

theorem fill (h : RxInv q posted pool []) (allocs : List AllocEnv) :
    ∃ posted' pool', RxInv (q.fill allocs).2 posted' pool' [] := by
  have hle := h.filled_le
  have hnum := q.cfg.num_le
  unfold NUM_RX_BDS_MAX at hnum
  refine (h.setAllocs allocs).refill ?_
  rw [Word.sub_of_le_of_lt hle (by omega)]
  dsimp only
  omega

/-- The counters tell how many BDs are posted. -/
theorem sub_eq (h : RxInv q posted pool hand) :
    Word.sub 16 q.swRxProd q.swRxCons = posted.length := by
  have hlt := h.length_lt
  have hsub := h.mid.ring.sub_eq (by rw [length_map]; omega)
  rwa [length_map] at hsub

end RxInv

namespace RxQueue

/-- A packet that is to be sent finds a free slot in the software ring, or no room on the chain. -/
def XdpRoom (q : RxQueue) : Event → Prop
  | .cqe (.regular _ _ _ _) env => env.xdp.map XdpRun.act = some .tx →
    q.pending.length < q.cfg.numTxBuffers ∨ qedChainGetElemLeft q.xdpTx.txPbl = 0
  | _ => True

instance decidableXdpRoom (q : RxQueue) (e : Event) : Decidable (q.XdpRoom e) := by
  unfold XdpRoom
  split <;> infer_instance

def StepOk (q : RxQueue) (e : Event) : Prop := q.DeviceOk e ∧ q.XdpRoom e
  deriving Decidable

end RxQueue

namespace RxInv

variable {q : RxQueue} {posted : List Seg} {pool : List ℕ}

theorem cqe (h : RxInv q posted pool []) {c : RxCqe} {env : CqeEnv}
    (hok : q.StepOk (.cqe c env)) :
    ∃ posted' pool', RxInv (q.qedeRxProcessCqe c env) posted' pool' [] := by
  obtain ⟨⟨hvalid, hbds⟩, hroom⟩ := hok
  rw [h.sub_eq] at hbds
  have hq := h.setAllocs env.allocs
  unfold qedeRxProcessCqe
  cases c with
  | slowPath => exact ⟨posted, pool, hq⟩
  | regular bdNum len pktLen placementOffset =>
    dsimp only
    cases hxdp : env.xdp with
    | none => exact hq.buildPacket hvalid hbds _ _ _ _
    | some run =>
      dsimp only
      split
      · exact hq.buildPacket hvalid hbds _ _ _ _
      · refine hq.rxXdp hvalid hbds fun htx => hroom ?_
        rw [hxdp, map_some, htx]
  | tpaStart a len ext₀ ext₁ => exact hq.tpaStart hvalid _ hbds
  | tpaCont a lenList => exact hq.tpaCont hvalid hbds
  | tpaEnd a lenList numOfBds totalPacketLen => exact hq.tpaEnd hvalid _ _ hbds

theorem step (h : RxInv q posted pool []) {e : Event} (hok : q.StepOk e) :
    ∃ posted' pool', RxInv (q.step e) posted' pool' [] := by
  cases e with
  | cqe c env => exact h.cqe hok
  | fill allocs => exact h.fill allocs
  | xdpSent =>
    obtain ⟨pool', hinv⟩ := h.xdpSent hok.1
    exact ⟨posted, pool', hinv⟩
  | release i => exact ⟨posted, pool, h.of_same (release_same q i) (h.owns.release i)⟩

/-- Nobody has a page of queues that have no buffers. -/
theorem fresh_held (cfg : RxCfg) (c : Chain) : (fresh cfg c).held [] [] [] = 0 := by
  have haggs : aggPages (fresh cfg c).tpaInfo = 0 := by
    unfold aggPages
    exact Finset.sum_eq_zero fun _ _ => rfl
  unfold held
  rw [haggs]
  rfl

theorem fresh {cfg : RxCfg} {env : DmaEnv} {c : Chain}
    (halloc : qedChainAlloc env (txChainParams cfg.numTxBuffers) = .ok c)
    (henv : env.Disjoint QED_CHAIN_PAGE_SIZE (txChainParams cfg.numTxBuffers).pageCnt) :
    RxInv (fresh cfg c) [] [] [] := by
  have hpage : 0 < QED_CHAIN_PAGE_SIZE := by decide
  have T := txRing_of_alloc halloc henv cfg.numTx_le
  obtain ⟨hs, -, -⟩ := linked_of_alloc hpage henv halloc
  obtain ⟨hprod, hcons⟩ := pblAt_of_alloc halloc T.ring rfl hs nofun
  refine ⟨⟨.nil _ _ _, .start _ _, ⟨⟨_, 0, T, hprod, hcons⟩, zero_le _, .nil _ _ _⟩, nofun,
    nodup_nil, ?_, nofun, fun a => ⟨nofun, fun _ => rfl⟩, rfl⟩, le_rfl, zero_le _⟩
  rw [fresh_held]
  exact fun p => (Multiset.count_zero p).symm

theorem of_filled {r : Bool × RxQueue} (hr : filled r = some q)
    (h : ∃ posted pool, RxInv r.2 posted pool []) : ∃ posted pool, RxInv q posted pool [] := by
  obtain ⟨ok, q₁⟩ := r
  cases ok with
  | false => exact nomatch hr
  | true =>
    cases hr
    exact h

theorem create {cfg : RxCfg} {env : DmaEnv} {allocs : List AllocEnv}
    (hcreate : create cfg env allocs = some q)
    (henv : env.Disjoint QED_CHAIN_PAGE_SIZE (txChainParams cfg.numTxBuffers).pageCnt) :
    ∃ posted pool, RxInv q posted pool [] := by
  obtain ⟨c, hc, hfilled⟩ := bind_eq_some_iff.1 hcreate
  have halloc : qedChainAlloc env (txChainParams cfg.numTxBuffers) = .ok c := by
    generalize qedChainAlloc env (txChainParams cfg.numTxBuffers) = r at hc
    cases r with
    | error err => exact nomatch hc
    | ok c' =>
      cases hc
      rfl
  exact of_filled hfilled ((fresh halloc henv).fill allocs)

end RxInv

def RxQueue.postedSlot (q : RxQueue) (i : ℕ) : SwRxData :=
  q.swRxRing ((q.swRxCons + i) % 2 ^ 16 &&& NUM_RX_BDS_MAX)

theorem RxInv.postedSlot {q : RxQueue} {posted : List Seg} {pool : List ℕ}
    (h : RxInv q posted pool []) {i : ℕ} (hi : i < posted.length) :
    q.postedSlot i = posted[i].entry := by
  have hi' : i < (posted.map Seg.entry).length := by rwa [length_map]
  unfold RxQueue.postedSlot
  rw [slot_eq, mod_mod_of_dvd _ (by decide), h.mid.ring.getElem (by decide) hi', getElem_map]

/-- A posted BD has a segment of a page of which the stack has nothing of the segment, and the page
is not to be sent; no page that was taken from the pool was in use. -/
def RxQueue.Unshared (q : RxQueue) : Prop :=
  (∀ i < Word.sub 16 q.swRxProd q.swRxCons, ∃ page off, q.postedSlot i = ⟨some page, off⟩ ∧
    off + q.cfg.rxBufSegSize ≤ q.cfg.pageSize ∧
    (∀ skb ∈ q.stack, ∀ part ∈ skb.parts, part.page = page →
      part.hi ≤ off ∨ off + q.cfg.rxBufSegSize ≤ part.lo) ∧
    page ∉ q.pending) ∧
  q.takenClean = true

theorem RxInv.unshared {q : RxQueue} {posted : List Seg} {pool : List ℕ}
    (h : RxInv q posted pool []) : q.Unshared := by
  refine ⟨fun i hi => ?_, h.owns.clean⟩
  rw [h.sub_eq] at hi
  have hmem : posted[i] ∈ posted := getElem_mem hi
  refine ⟨posted[i].page, posted[i].off, h.postedSlot hi, h.owns.seg_le hmem,
    fun skb hskb part hpart heq => ?_, fun hpending => ?_⟩
  · exact .inl (h.owns.apart _ hmem part (.inr (.inl ⟨skb, hskb, hpart⟩)) heq)
  · have hdisjoint := (nodup_append.1 h.owns.nodup).2.2
    exact hdisjoint _ (mem_append_left _ (mem_map_of_mem hmem)) _ hpending rfl

/-- **Receive buffers are not shared**, in every run in which completions refer to posted BDs and a
packet that is to be sent finds a free slot in the software ring. -/
theorem rx_buffers_not_shared {cfg : RxCfg} {env : DmaEnv} {allocs : List AllocEnv} {q₀ : RxQueue}
    (hcreate : create cfg env allocs = some q₀)
    (henv : env.Disjoint QED_CHAIN_PAGE_SIZE (txChainParams cfg.numTxBuffers).pageCnt)
    {l : List Event} (hrun : Run.Meets StepOk step q₀ l) :
    (l.foldl step q₀).Unshared := by
  obtain ⟨posted, pool, hinv⟩ : ∃ posted pool, RxInv (l.foldl step q₀) posted pool [] := by
    refine hrun.invariant (P := fun q => ∃ posted pool, RxInv q posted pool []) ?_
      (RxInv.create hcreate henv)
    rintro q e ⟨posted, pool, hinv⟩ hok
    exact hinv.step hok
  exact hinv.unshared

/-- Queues with as many receive buffers as an ordinary kernel allows at least, and with the given
size of the XDP ring. -/
def smallRxCfg (numTxBuffers : ℕ) (hpos : 0 < numTxBuffers) (hle : numTxBuffers ≤ NUM_TX_BDS_MAX) :
    RxCfg where
  pageSize := 4096
  numRxBuffers := 128
  rxHeadroom := 256
  rxBufSize := 1536
  rxBufSegSize := 4096
  rxCopybreak := 256
  numTxBuffers := numTxBuffers
  page_pos := by decide
  seg_dvd := by decide
  num_ge := by decide
  num_le := by decide
  numTx_pos := hpos
  numTx_le := hle

def pagesFrom (p n : ℕ) : List AllocEnv := (range n).map fun i => ⟨[], .page (p + i) false⟩

/-- A packet that the XDP program sends back. -/
def xdpTxEvent : Event := .cqe (.regular 1 1000 1000 2) ⟨some ⟨.tx, 258, 1000⟩, true, []⟩

/-- Packets that are passed on, one of them over two BDs, and sent back. -/
theorem rx_buffers_not_shared_mixed :
    ∃ q₀ ∈ create (smallRxCfg 256 (by decide) (by decide)) (.backToBack 0x10000 4096)
        (pagesFrom 0 128),
      let q := foldl step q₀ [.cqe (.regular 2 1500 2500 2) ⟨none, true, []⟩, xdpTxEvent,
        .fill (pagesFrom 128 2), .xdpSent, .release 0, .fill []]
      Word.sub 16 q.swRxProd q.swRxCons = 128 ∧ q.Unshared := by
  have hrun : ∃ q₀ ∈ create (smallRxCfg 256 (by decide) (by decide))
      (.backToBack 0x10000 4096) (pagesFrom 0 128),
      let l := [.cqe (.regular 2 1500 2500 2) ⟨none, true, []⟩, xdpTxEvent, .fill (pagesFrom 128 2),
        .xdpSent, .release 0, .fill []]
      Run.Meets StepOk step q₀ l ∧ Word.sub 16 (l.foldl step q₀).swRxProd
        (l.foldl step q₀).swRxCons = 128 := by
    decide +kernel
  obtain ⟨q₀, hcreate, hmeets, hcount⟩ := hrun
  exact ⟨q₀, hcreate, hcount,
    rx_buffers_not_shared hcreate (DmaEnv.backToBack_disjoint _ _ _) hmeets⟩

/-- With 128 slots the chain has 256 elements. When 128 packets are to be sent, one more takes the
slot of the oldest one; when the oldest one has been sent, the page of the new one is put into the
pool and posted, while it is to be sent. -/
theorem not_rx_buffers_not_shared :
    ∃ q₀ ∈ create (smallRxCfg 128 (by decide) (by decide)) (.backToBack 0x10000 4096)
        (pagesFrom 0 128),
      let l := replicate 64 xdpTxEvent ++ .fill (pagesFrom 128 64) ::
        (replicate 64 xdpTxEvent ++ [.fill (pagesFrom 192 64), xdpTxEvent, .xdpSent, .fill []])
      let q := l.foldl step q₀
      Run.Meets DeviceOk step q₀ l ∧ Word.sub 16 q.swRxProd q.swRxCons = 128 ∧
        q.postedSlot 127 = ⟨some 128, 0⟩ ∧ 128 ∈ q.pending ∧ q.takenClean = false := by
  decide +kernel

end FastLinQ.Qede
