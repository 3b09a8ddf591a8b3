import FastLinQ.Qede.Rx.Ownership

/-!
# The receive ring is filled again

`filled_buffers` should be the number of posted BDs. A BD that is consumed is either posted again,
or its buffer is replaced; if the replacement is put off, `filled_buffers` is lowered, and the
consumption has been accounted for. But if the ring has come down to the threshold and the buffer is
replaced at once, `filled_buffers` is raised for the new BD, and nothing is taken off for the one
that is consumed. From then on it is too high by one, and the ring is not filled any more.

`Flat` says that it is too high by the number of these replacements, and by nothing else. The ring
is filled in all runs in which none is made.
-/

namespace FastLinQ.Qede

open FastLinQ.Qed Function Nat Word RxQueue List Shares

/-- **`filled_buffers` is the number of posted BDs** and of the replacements at the threshold, and
not more than there are buffers. -/
structure Flat (q : RxQueue) : Prop where
  balanced : (q.swRxProd + q.hurried) % 2 ^ 16 = (q.swRxCons + q.filledBuffers) % 2 ^ 16
  filled_le : q.filledBuffers ≤ q.cfg.numRxBuffers

namespace Flat

variable {q q' : RxQueue} {a : ℕ}

theorem of_same (h : Flat q) (hsame : RxSame q q') : Flat q' := by
  refine ⟨?_, ?_⟩
  · rw [hsame.prod, hsame.hurried, hsame.cons, hsame.filled]
    exact h.balanced
  · rw [hsame.filled, hsame.cfg]
    exact h.filled_le

theorem sub_eq (h : Flat q) (hnone : q.hurried = 0) :
    Word.sub 16 q.swRxProd q.swRxCons = q.filledBuffers := by
  have hle := h.filled_le.trans q.cfg.num_le
  have hbalanced := h.balanced
  unfold NUM_RX_BDS_MAX at hle
  rw [hnone, Nat.add_zero] at hbalanced
  rw [← sub_mod_left, hbalanced, sub_mod_left, sub_of_le (Nat.le_add_right _ _),
    Nat.add_sub_cancel_left, mod_eq_of_lt (by omega)]

/-! ## Buffers -/

theorem reuse (h : Flat q) : Flat q.qedeReusePage.qedeRxBdRingConsume := by
  refine ⟨?_, h.filled_le⟩
  have hbalanced := h.balanced
  change ((q.swRxProd + 1) % 2 ^ 16 + q.hurried) % 2 ^ 16 =
    ((q.swRxCons + 1) % 2 ^ 16 + q.filledBuffers) % 2 ^ 16
  omega

theorem recycle (h : Flat q) (n : ℕ) : Flat (q.qedeRecycleRxBdRing n) := by
  induction n generalizing q with
  | zero => exact h
  | succ n ih => exact ih h.reuse

/-- A page is posted. -/
theorem setPage (h : Flat q) (hlt : q.filledBuffers < q.cfg.numRxBuffers) (page : ℕ) :
    Flat (q.setPage page) ∧ (q.setPage page).filledBuffers = q.filledBuffers + 1 := by
  have hbalanced := h.balanced
  have hnum := q.cfg.num_le
  unfold NUM_RX_BDS_MAX at hnum
  have hcount : (q.filledBuffers + 1) % 2 ^ 16 = q.filledBuffers + 1 := mod_eq_of_lt (by omega)
  refine ⟨⟨?_, hcount.trans_le hlt⟩, hcount⟩
  change ((q.swRxProd + 1) % 2 ^ 16 + q.hurried) % 2 ^ 16 =
    (q.swRxCons + (q.filledBuffers + 1) % 2 ^ 16) % 2 ^ 16
  omega

theorem allocNow (h : Flat q) (hlt : q.filledBuffers < q.cfg.numRxBuffers) :
    Flat q.allocNow.2 ∧ q.allocNow.2.cfg = q.cfg ∧ q.allocNow.2.hurried = q.hurried ∧
      (q.allocNow.1 = true → q.allocNow.2.filledBuffers = q.filledBuffers + 1) := by
  have htail : RxSame q { q with allocs := q.allocs.tail } := { RxSame.refl q with }
  have hsame := htail.trans (released_same _ (q.allocs.headD ⟨[], .fails⟩).released)
  have hpost : ∀ q₂ page, RxSame q q₂ → Flat (q₂.setPage page) ∧ (q₂.setPage page).cfg = q.cfg ∧
      (q₂.setPage page).hurried = q.hurried ∧
      (true → (q₂.setPage page).filledBuffers = q.filledBuffers + 1) := by
    intro q₂ page hsame₂
    obtain ⟨hflat, hcount⟩ :=
      (h.of_same hsame₂).setPage (by rwa [hsame₂.filled, hsame₂.cfg]) page
    exact ⟨hflat, hsame₂.cfg, hsame₂.hurried, fun _ => by rw [hcount, hsame₂.filled]⟩
  unfold RxQueue.allocNow
  dsimp only
  generalize foldl release { q with allocs := q.allocs.tail }
    (q.allocs.headD ⟨[], .fails⟩).released = q₁ at hsame
  cases hget : q₁.qedeGetPageFromPool with
  | some r =>
    obtain ⟨page, q₂⟩ := r
    exact hpost q₂ page (hsame.trans (getPage_same hget))
  | none =>
    dsimp only
    cases halloc : q₁.allocPages (q.allocs.headD ⟨[], .fails⟩).answer with
    | some r =>
      obtain ⟨page, q₂⟩ := r
      exact hpost q₂ page (hsame.trans (allocPages_same halloc))
    | none => exact ⟨h.of_same hsame, hsame.cfg, hsame.hurried, nofun⟩

/-- **A buffer is replaced**, and the BD is consumed: later, or at once, which is counted. -/
theorem alloc (h : Flat q) {ok : Bool} (halloc : q.qedeAllocRxBuffer true = (ok, q')) :
    if ok then Flat q'.qedeRxBdRingConsume else Flat q' := by
  have hbalanced := h.balanced
  have hle := h.filled_le
  have hnum := q.cfg.num_ge
  unfold NUM_RX_BDS_KDUMP_MIN at hnum
  unfold qedeAllocRxBuffer at halloc
  split at halloc
  · rename_i hlazy
    have hpos : 16 < q.filledBuffers := hlazy.2
    cases halloc
    refine ⟨?_, ?_⟩
    · change (q.swRxProd + q.hurried) % 2 ^ 16 =
        ((q.swRxCons + 1) % 2 ^ 16 + (q.filledBuffers - 1)) % 2 ^ 16
      omega
    · change q.filledBuffers - 1 ≤ q.cfg.numRxBuffers
      omega
  · rename_i hlazy
    have hlow : q.filledBuffers ≤ 16 := not_lt.1 fun hlt => hlazy ⟨rfl, hlt⟩
    have hnow := (h.allocNow (by omega)).1
    generalize q.allocNow = r at halloc hnow
    obtain ⟨ok', q₁⟩ := r
    cases halloc
    cases ok' with
    | false => exact hnow
    | true =>
      refine ⟨?_, hnow.filled_le⟩
      have hbalanced := hnow.balanced
      change (q₁.swRxProd + (q₁.hurried + 1)) % 2 ^ 16 =
        ((q₁.swRxCons + 1) % 2 ^ 16 + q₁.filledBuffers) % 2 ^ 16
      dsimp only at hbalanced
      omega

/-- **A segment is handed over.** -/
theorem realloc (h : Flat q) {ok : Bool} (hrealloc : q.qedeReallocRxBuffer = (ok, q')) :
    if ok then Flat q'.qedeRxBdRingConsume else Flat q' := by
  unfold qedeReallocRxBuffer at hrealloc
  dsimp only at hrealloc
  have hset : ∀ d, Flat (q.setCurrCons d) := fun _ => { h with }
  have hset₁ := hset { q.currCons with pageOffset := q.currCons.pageOffset + q.cfg.rxBufSegSize }
  generalize q.setCurrCons
    { q.currCons with pageOffset := q.currCons.pageOffset + q.cfg.rxBufSegSize } = q₁
    at hrealloc hset₁
  split at hrealloc
  · cases halloc : q₁.qedeAllocRxBuffer true with
    | mk ok₂ q₂ =>
      have hres := hset₁.alloc halloc
      rw [halloc] at hrealloc
      cases ok₂ with
      | false =>
        cases hrealloc
        exact { hres with }
      | true =>
        cases hrealloc
        exact Flat.of_same hres (addPage_same _ _ true).consume
  · cases hrealloc
    have hinc : Flat (q₁.pageRefInc q.currCons.page) := { hset₁ with }
    exact hinc.reuse

/-! ## Completions -/

theorem setAgg (h : Flat q) (info : AggInfo) : Flat (q.setAgg a info) := { h with }

theorem fillFrag (h : Flat q) (len : ℕ) : Flat (qedeFillFragSkb a q len) := by
  unfold qedeFillFragSkb
  dsimp only
  split
  · exact (h.setAgg _).recycle 1
  cases hrealloc : q.qedeReallocRxBuffer with
  | mk ok q₁ =>
    have hres := h.realloc hrealloc
    cases ok with
    | false =>
      have hinc : Flat (q₁.pageRefInc q.currPart.page) := { hres with }
      exact (hinc.setAgg _).recycle 1
    | true => exact setAgg hres _

theorem fillFrags (h : Flat q) (lens : List ℕ) : Flat (lens.foldl (qedeFillFragSkb a) q) := by
  induction lens generalizing q with
  | nil => exact h
  | cons len lens ih => exact ih (h.fillFrag len)

theorem builds (h : Flat q) {r : Option RxSkb} (hbuild : RxInv.Builds q r q') : Flat q' := by
  cases hbuild with
  | refused => exact h
  | copied => exact h.reuse
  | failed hrealloc => exact h.realloc hrealloc
  | renewed hrealloc => exact h.realloc hrealloc
  | cleared hrealloc => exact { h.realloc hrealloc with }

theorem tpaStart (h : Flat q) (len ext₀ ext₁ : ℕ) (skbOk : Bool) :
    Flat (q.qedeTpaStart a len ext₀ ext₁ skbOk) := by
  unfold qedeTpaStart
  dsimp only
  split
  · have hlose : Flat (RxQueue.setAgg { q with lost := q.lost ++ (q.tpaInfo a).skb.toList } a
        { q.tpaInfo a with state := .error, skb := none }) := { h with }
    exact hlose.recycle 1
  cases hbuild : q.qedeTpaRxBuildSkb len skbOk with
  | mk r q₁ =>
    have hres := h.builds (RxInv.builds_tpaSkb hbuild)
    cases r with
    | none => exact (hres.recycle 1).setAgg _
    | some skb =>
      dsimp only
      split
      · exact (hres.setAgg _).fillFrag ext₀
      · exact hres.setAgg _

theorem tpaCont (h : Flat q) (lenList : List ℕ) : Flat (q.qedeTpaCont a lenList) := by
  have hfrags := h.fillFrags (a := a) (lens lenList)
  unfold qedeTpaCont
  split
  · exact hfrags.setAgg _
  · exact hfrags

theorem tpaEnd (h : Flat q) (lenList : List ℕ) (numOfBds totalPacketLen : ℕ) :
    Flat (q.qedeTpaEnd a lenList numOfBds totalPacketLen) := by
  have hfrags := h.fillFrags (a := a) (lens lenList)
  unfold qedeTpaEnd
  dsimp only
  split
  · cases (tpaInfo (foldl (qedeFillFragSkb a) q (lens lenList)) a).skb with
    | none => exact { hfrags with }
    | some skb => exact { hfrags with }
  · exact { hfrags with }

theorem buildJumbo (h : Flat q) (n pktLen : ℕ) (skb : RxSkb) :
    Flat (qedeRxBuildJumbo n pktLen skb q).2.2 := by
  induction n generalizing q pktLen skb with
  | zero => exact h
  | succ n ih =>
    rw [qedeRxBuildJumbo]
    generalize (if q.cfg.rxBufSize < pktLen then q.cfg.rxBufSize else pktLen) = currFragSize
    split
    · exact h
    · cases halloc : q.qedeAllocRxBuffer true with
      | mk ok q₁ =>
        have hres := h.alloc halloc
        cases ok with
        | false => exact hres
        | true => exact ih (Flat.of_same hres (addPage_same _ _ true)) _ _

theorem buildPacket (h : Flat q) (bdNum len pktLen pad : ℕ) (skbOk : Bool) :
    Flat (q.buildPacket bdNum len pktLen pad skbOk) := by
  unfold RxQueue.buildPacket
  cases hbuild : q.qedeRxBuildSkb len pad skbOk with
  | mk r q₁ =>
    have hres := h.builds (RxInv.builds_skb hbuild)
    cases r with
    | none => exact hres.recycle bdNum
    | some skb =>
      dsimp only
      split
      · have hflat := hres.buildJumbo (bdNum - 1) (Word.sub 16 pktLen len) skb
        generalize qedeRxBuildJumbo (bdNum - 1) (Word.sub 16 pktLen len) skb q₁ = r at hflat ⊢
        obtain ⟨left, skb', q₂⟩ := r
        cases left with
        | zero => exact { hflat with }
        | succ left => exact { hflat.recycle (left + 1) with }
      · exact { hres with }

theorem rxXdp (h : Flat q) (bdNum : ℕ) (act : XdpAction) : Flat (q.qedeRxXdp bdNum act) := by
  cases act with
  | pass => exact h
  | aborted | drop | other => exact h.recycle bdNum
  | tx =>
    unfold qedeRxXdp
    dsimp only
    cases halloc : q.qedeAllocRxBuffer true with
    | mk ok q₁ =>
      have hres := h.alloc halloc
      cases ok with
      | false => exact recycle hres 1
      | true =>
        have hres : Flat q₁.qedeRxBdRingConsume := hres
        dsimp only
        unfold qedeXdpXmit
        dsimp only
        by_cases hleft : qedChainGetElemLeft q₁.xdpTx.txPbl = 0
        · rw [if_pos hleft]
          exact hres.of_same (RxInv.recyclePage_same _ _).consume
        · rw [if_neg hleft]
          exact { hres with }

theorem cqe (h : Flat q) (c : RxCqe) (env : CqeEnv) : Flat (q.qedeRxProcessCqe c env) := by
  have hq : Flat { q with allocs := env.allocs } := { h with }
  unfold qedeRxProcessCqe
  cases c with
  | slowPath => exact hq
  | regular bdNum len pktLen placementOffset =>
    dsimp only
    cases hxdp : env.xdp with
    | none => exact hq.buildPacket _ _ _ _ _
    | some run =>
      dsimp only
      split
      · exact hq.buildPacket _ _ _ _ _
      · exact hq.rxXdp _ _
  | tpaStart a len ext₀ ext₁ => exact hq.tpaStart _ _ _ _
  | tpaCont a lenList => exact hq.tpaCont _
  | tpaEnd a lenList numOfBds totalPacketLen => exact hq.tpaEnd _ _ _

/-! ## Runs -/

theorem refill (h : Flat q) {n : ℕ} (hn : q.filledBuffers + n ≤ q.cfg.numRxBuffers) :
    Flat (refill n q).2 ∧ (refill n q).2.cfg = q.cfg ∧ (refill n q).2.hurried = q.hurried ∧
      ((refill n q).1 = true → (refill n q).2.filledBuffers = q.filledBuffers + n) := by
  induction n generalizing q with
  | zero => exact ⟨h, rfl, rfl, fun _ => rfl⟩
  | succ n ih =>
    have hnow := h.allocNow (by omega)
    have hlazy : q.qedeAllocRxBuffer false = q.allocNow := if_neg (by simp)
    rw [refill, hlazy]
    generalize q.allocNow = r at hnow
    obtain ⟨ok, q₁⟩ := r
    obtain ⟨hflat, hcfg, hhurried, hcount⟩ := hnow
    cases ok with
    | false => exact ⟨hflat, hcfg, hhurried, by simp⟩
    | true =>
      have hcount := hcount rfl
      dsimp only at hflat hcfg hhurried hcount ⊢
      obtain ⟨hflat', hcfg', hhurried', hcount'⟩ := ih hflat (by rw [hcount, hcfg]; omega)
      refine ⟨hflat', hcfg'.trans hcfg, hhurried'.trans hhurried, fun hok => (hcount' hok).trans ?_⟩
      rw [hcount]
      omega

theorem fill (h : Flat q) (allocs : List AllocEnv) :
    Flat (q.fill allocs).2 ∧ (q.fill allocs).2.hurried = q.hurried ∧
      ((q.fill allocs).1 = true → (q.fill allocs).2.filledBuffers = q.cfg.numRxBuffers) := by
  have hle := h.filled_le
  have hnum := q.cfg.num_le
  unfold NUM_RX_BDS_MAX at hnum
  have hsub :
      Word.sub 16 q.cfg.numRxBuffers q.filledBuffers = q.cfg.numRxBuffers - q.filledBuffers :=
    sub_of_le_of_lt hle (by omega)
  have hflat : Flat { q with allocs := allocs } := { h with }
  unfold RxQueue.fill
  rw [hsub]
  obtain ⟨hres, -, hhurried, hcount⟩ := hflat.refill (n := q.cfg.numRxBuffers - q.filledBuffers)
    (by dsimp only; omega)
  refine ⟨hres, hhurried, fun hok => (hcount hok).trans ?_⟩
  dsimp only
  omega

theorem step (h : Flat q) (e : Event) : Flat (q.step e) := by
  cases e with
  | cqe c env => exact h.cqe c env
  | fill allocs => exact (h.fill allocs).1
  | xdpSent =>
    have htake : Flat q.xdpTake := { h with }
    exact htake.of_same (RxInv.recyclePage_same _ _)
  | release i => exact h.of_same (release_same q i)

theorem create {cfg : RxCfg} {env : DmaEnv} {allocs : List AllocEnv}
    (hcreate : create cfg env allocs = some q) : Flat q ∧ q.hurried = 0 := by
  obtain ⟨c, -, hfilled⟩ := Option.bind_eq_some_iff.1 hcreate
  have hfresh : Flat (fresh cfg c) := ⟨rfl, zero_le _⟩
  have hfill := hfresh.fill allocs
  generalize (fresh cfg c).fill allocs = r at hfilled hfill
  obtain ⟨ok, q₁⟩ := r
  cases ok with
  | false => exact nomatch hfilled
  | true =>
    cases hfilled
    exact ⟨hfill.1, hfill.2.1⟩

end Flat

end FastLinQ.Qede
