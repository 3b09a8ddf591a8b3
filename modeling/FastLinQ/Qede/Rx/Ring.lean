import FastLinQ.Qede.Rx.Own

/-!
# The receive ring

`RxMid q es posted pool hand` adds to the ownership of the pages that the slots of the ring between
the counters are `es`. While a completion is processed, the first slot may have been changed or not
be consumed yet; between completions the slots are those of the posted segments, and there are no
more of them than `filled_buffers` says (`RxInv`).
-/

namespace FastLinQ.Qede

open FastLinQ.Qed List RxQueue Seg Nat

/-- What is left alone when a buffer is allocated. -/
structure RxKept (q q' : RxQueue) : Prop where
  cfg : q'.cfg = q.cfg
  tpaInfo : q'.tpaInfo = q.tpaInfo
  pending : q'.pending = q.pending
  xdpTx : q'.xdpTx = q.xdpTx

theorem RxKept.refl (q : RxQueue) : RxKept q q := ⟨rfl, rfl, rfl, rfl⟩

theorem RxKept.trans {q₁ q₂ q₃ : RxQueue} (h : RxKept q₁ q₂) (h' : RxKept q₂ q₃) : RxKept q₁ q₃ :=
  ⟨h'.cfg.trans h.cfg, h'.tpaInfo.trans h.tpaInfo, h'.pending.trans h.pending,
    h'.xdpTx.trans h.xdpTx⟩

/-- The ring and its counters are left alone, too. -/
structure RxSame (q q' : RxQueue) : Prop extends RxKept q q' where
  ring : q'.swRxRing = q.swRxRing
  prod : q'.swRxProd = q.swRxProd
  cons : q'.swRxCons = q.swRxCons
  filled : q'.filledBuffers = q.filledBuffers
  hurried : q'.hurried = q.hurried

theorem RxSame.refl (q : RxQueue) : RxSame q q := ⟨.refl q, rfl, rfl, rfl, rfl, rfl⟩

theorem RxSame.trans {q₁ q₂ q₃ : RxQueue} (h : RxSame q₁ q₂) (h' : RxSame q₂ q₃) : RxSame q₁ q₃ :=
  ⟨h.toRxKept.trans h'.toRxKept, h'.ring.trans h.ring, h'.prod.trans h.prod, h'.cons.trans h.cons,
    h'.filled.trans h.filled, h'.hurried.trans h.hurried⟩

section Same

variable {q q' : RxQueue} {page : ℕ}

theorem RxSame.consume (h : RxSame q q') :
    RxSame q.qedeRxBdRingConsume q'.qedeRxBdRingConsume :=
  { h with cons := congrArg (fun x => (x + 1) % 2 ^ 16) h.cons }

theorem RxSame.bounds (h : RxSame q q') {n : ℕ}
    (hb : n ≤ q.filledBuffers ∧ q.filledBuffers ≤ q.cfg.numRxBuffers) :
    n ≤ q'.filledBuffers ∧ q'.filledBuffers ≤ q'.cfg.numRxBuffers := by
  rwa [h.filled, h.cfg]

theorem release_same (q : RxQueue) (i : ℕ) : RxSame q (q.release i) := by
  unfold release
  cases q.stack[i]? with
  | none => exact .refl q
  | some skb => exact { RxSame.refl q with }

theorem getPage_same (h : q.qedeGetPageFromPool = some (page, q')) : RxSame q q' := by
  unfold qedeGetPageFromPool at h
  dsimp only at h
  split at h
  · exact nomatch h
  · split at h
    · exact nomatch h
    · cases h
      exact { RxSame.refl q with }

theorem allocPages_same {answer : PageAnswer} (h : q.allocPages answer = some (page, q')) :
    RxSame q q' := by
  unfold allocPages at h
  split at h
  · exact nomatch h
  · split at h
    · cases h
      exact { RxSame.refl q with }
    · exact nomatch h

theorem addPage_same (q : RxQueue) (page : ℕ) (inc : Bool) :
    RxSame q (q.qedeAddPageToPool page inc).2 := by
  unfold qedeAddPageToPool
  dsimp only
  split
  · exact .refl q
  · split
    · exact .refl q
    · exact { RxSame.refl q with }

end Same

/-- The buffers that the stack gives back. -/
theorem released_same (q : RxQueue) (l : List ℕ) : RxSame q (l.foldl release q) := by
  induction l generalizing q with
  | nil => exact .refl q
  | cons i l ih => exact (release_same q i).trans (ih _)

theorem Owns.released {q : RxQueue} {posted : List Seg} {pool : List ℕ} {hand : List PagePart}
    (h : Owns q posted pool hand) (l : List ℕ) :
    Owns (l.foldl RxQueue.release q) posted pool hand := by
  induction l generalizing q with
  | nil => exact h
  | cons i l ih => exact ih (h.release i)

/-! ## Slots -/

/-- **The queue while a completion is processed.** -/
structure RxMid (q : RxQueue) (es : List SwRxData) (posted : List Seg) (pool : List ℕ)
    (hand : List PagePart) : Prop where
  ring : Cyclic (2 ^ 16) (2 ^ 13) q.swRxRing q.swRxProd q.swRxCons es
  owns : Owns q posted pool hand

theorem slot_eq (i : ℕ) : i &&& NUM_RX_BDS_MAX = i % 2 ^ 13 := and_two_pow_sub_one_eq_mod i 13

namespace RxMid

variable {q q' : RxQueue} {e d : SwRxData} {es : List SwRxData} {posted : List Seg} {pool : List ℕ}
  {hand : List PagePart}

theorem of_same (h : RxMid q es posted pool hand) (hsame : RxSame q q')
    {posted' : List Seg} {pool' : List ℕ} {hand' : List PagePart}
    (howns : Owns q' posted' pool' hand') :
    RxMid q' es posted' pool' hand' := by
  refine ⟨?_, howns⟩
  rw [hsame.ring, hsame.prod, hsame.cons]
  exact h.ring

section

variable (h : RxMid q (e :: es) posted pool hand)

include h

theorem currCons : q.currCons = e := by
  unfold RxQueue.currCons
  rw [slot_eq]
  exact (h.ring.pop (by decide)).1

theorem setCurrCons (hlen : es.length < 2 ^ 13) (d : SwRxData) :
    RxMid (q.setCurrCons d) (d :: es) posted pool hand := by
  refine ⟨?_, { h.owns with }⟩
  unfold RxQueue.setCurrCons
  rw [slot_eq]
  exact h.ring.setHead (by decide) hlen d

theorem consume : RxMid q.qedeRxBdRingConsume es posted pool hand :=
  ⟨(h.ring.pop (by decide)).2, { h.owns with }⟩

end

theorem post (h : RxMid q es posted pool hand) (hlen : es.length < 2 ^ 13) (d : SwRxData) :
    RxMid (q.post d) (es ++ [d]) posted pool hand := by
  refine ⟨?_, { h.owns with }⟩
  unfold RxQueue.post
  rw [slot_eq]
  exact h.ring.push (by decide) hlen d

theorem setPage {page : ℕ} (h : RxMid q es posted pool hand) (hlen : es.length < 2 ^ 13) :
    RxMid (q.setPage page) (es ++ [⟨some page, 0⟩]) posted pool hand :=
  ⟨(h.post hlen ⟨some page, 0⟩).ring, { h.owns with }⟩

theorem reuse (h : RxMid q (e :: es) posted pool hand) (hlen : es.length + 1 < 2 ^ 13) :
    RxMid q.qedeReusePage.qedeRxBdRingConsume (es ++ [e]) posted pool hand := by
  have hpost := h.post (d := e) hlen
  unfold qedeReusePage
  rw [h.currCons]
  refine RxMid.consume (hpost.setCurrCons ?_ _)
  change (es ++ [e]).length < 2 ^ 13
  rw [length_append]
  exact hlen

/-! ## Allocation -/

theorem allocNow (h : RxMid q es posted pool hand) (hlen : es.length < 2 ^ 13) :
    (q.allocNow.1 = false ∧ RxMid q.allocNow.2 es posted pool hand ∧ RxSame q q.allocNow.2) ∨
      (q.allocNow.1 = true ∧ RxKept q q.allocNow.2 ∧
        q.allocNow.2.filledBuffers = (q.filledBuffers + 1) % 2 ^ 16 ∧
        ∃ page pool', RxMid q.allocNow.2 (es ++ [⟨some page, 0⟩]) (posted ++ [⟨page, 0⟩]) pool'
          hand) := by
  have howns : Owns { q with allocs := q.allocs.tail } posted pool hand := { h.owns with }
  have htail : RxSame q { q with allocs := q.allocs.tail } := { RxSame.refl q with }
  unfold RxQueue.allocNow
  dsimp only
  have howns' := howns.released (q.allocs.headD ⟨[], .fails⟩).released
  have hsame := htail.trans (released_same _ (q.allocs.headD ⟨[], .fails⟩).released)
  generalize List.foldl release { q with allocs := q.allocs.tail }
    (q.allocs.headD ⟨[], .fails⟩).released = q₁ at howns' hsame
  cases hget : q₁.qedeGetPageFromPool with
  | some r =>
    obtain ⟨page, q₂⟩ := r
    have hsame₂ := hsame.trans (getPage_same hget)
    obtain ⟨pool', howns₂⟩ := howns'.take hget
    refine .inr ⟨rfl, hsame₂.toRxKept.trans ⟨rfl, rfl, rfl, rfl⟩, ?_, page, pool',
      (h.of_same hsame₂ howns₂).setPage hlen⟩
    change (q₂.filledBuffers + 1) % 2 ^ 16 = _
    rw [hsame₂.filled]
  | none =>
    dsimp only
    cases halloc : q₁.allocPages (q.allocs.headD ⟨[], .fails⟩).answer with
    | some r =>
      obtain ⟨page, q₂⟩ := r
      have hsame₂ := hsame.trans (allocPages_same halloc)
      refine .inr ⟨rfl, hsame₂.toRxKept.trans ⟨rfl, rfl, rfl, rfl⟩, ?_, page, pool,
        (h.of_same hsame₂ (howns'.allocPages halloc)).setPage hlen⟩
      change (q₂.filledBuffers + 1) % 2 ^ 16 = _
      rw [hsame₂.filled]
    | none => exact .inl ⟨rfl, h.of_same hsame howns', hsame⟩

/-- **A buffer is replaced** while a completion is processed: at once, or later. -/
theorem allocLazy (h : RxMid q es posted pool hand) (hlen : es.length ≤ q.filledBuffers)
    (hfilled : q.filledBuffers ≤ q.cfg.numRxBuffers) {ok : Bool}
    (halloc : q.qedeAllocRxBuffer true = (ok, q')) :
    RxKept q q' ∧ q'.filledBuffers ≤ q.cfg.numRxBuffers ∧
      if ok then
        ∃ new pool', RxMid q' (es ++ new.map entry) (posted ++ new) pool' hand ∧
          es.length + new.length ≤ q'.filledBuffers + 1
      else RxMid q' es posted pool hand ∧ RxSame q q' := by
  have hnum := q.cfg.num_le
  have hnum' := q.cfg.num_ge
  unfold NUM_RX_BDS_MAX at hnum
  unfold NUM_RX_BDS_KDUMP_MIN at hnum'
  unfold qedeAllocRxBuffer at halloc
  split at halloc
  · rename_i hlazy
    cases halloc
    have hpos : 16 < q.filledBuffers := hlazy.2
    refine ⟨⟨rfl, rfl, rfl, rfl⟩, ?_, [], pool, ⟨?_, ?_⟩, ?_⟩
    · dsimp only
      omega
    · rw [map_nil, append_nil]
      exact h.ring
    · rw [append_nil]
      exact { h.owns with }
    · rw [length_nil]
      dsimp only
      omega
  · rename_i hlazy
    have hle : q.filledBuffers ≤ 16 := not_lt.1 fun hlt => hlazy ⟨rfl, hlt⟩
    have hnow := h.allocNow (by omega)
    generalize q.allocNow = r at halloc hnow
    obtain ⟨ok', q₁⟩ := r
    cases halloc
    rcases hnow with ⟨rfl, hmid, hsame⟩ | ⟨rfl, hkept, hcount, page, pool', hmid⟩
    · exact ⟨hsame.toRxKept, hsame.filled.trans_le hfilled, hmid, hsame⟩
    · dsimp only at hcount
      rw [mod_eq_of_lt (by omega)] at hcount
      refine ⟨{ hkept with }, ?_, [⟨page, 0⟩], pool', ⟨hmid.ring, { hmid.owns with }⟩, ?_⟩
      · change q₁.filledBuffers ≤ _
        omega
      · change es.length + 1 ≤ q₁.filledBuffers + 1
        omega

end RxMid

/-! ## Between completions -/

/-- **The queue between two BDs**: the slots are those of the posted segments, and there are no more
of them than `filled_buffers` says. -/
structure RxInv (q : RxQueue) (posted : List Seg) (pool : List ℕ)
    (hand : List PagePart) : Prop where
  mid : RxMid q (posted.map entry) posted pool hand
  le_filled : posted.length ≤ q.filledBuffers
  filled_le : q.filledBuffers ≤ q.cfg.numRxBuffers

namespace RxInv

variable {q q' : RxQueue} {b : Seg} {posted : List Seg} {pool : List ℕ} {hand : List PagePart}

section

variable (h : RxInv q posted pool hand)

include h

theorem owns : Owns q posted pool hand := h.mid.owns

theorem length_lt : posted.length < 2 ^ 13 := by
  have hle := h.le_filled.trans (h.filled_le.trans q.cfg.num_le)
  unfold NUM_RX_BDS_MAX at hle
  omega

theorem of_same (hsame : RxSame q q') {pool' : List ℕ} {hand' : List PagePart}
    (howns : Owns q' posted pool' hand') : RxInv q' posted pool' hand' := by
  obtain ⟨hle, hle'⟩ := hsame.bounds ⟨h.le_filled, h.filled_le⟩
  exact ⟨h.mid.of_same hsame howns, hle, hle'⟩

end

section

variable (h : RxInv q (b :: posted) pool hand)

include h

theorem currCons : q.currCons = b.entry := h.mid.currCons

theorem currPart : q.currPart = ⟨b.page, b.off, b.off + q.cfg.rxBufSegSize⟩ := by
  unfold RxQueue.currPart
  rw [h.currCons]
  rfl

theorem reuse : RxInv q.qedeReusePage.qedeRxBdRingConsume (posted ++ [b]) pool hand := by
  have hlen := h.length_lt
  have hmid := h.mid.reuse (by rwa [length_map])
  refine ⟨⟨?_, hmid.owns.perm (perm_append_singleton b posted)⟩, ?_, h.filled_le⟩
  · rw [map_append]
    exact hmid.ring
  · rw [length_append]
    exact h.le_filled

end

/-- **BDs are posted again.** -/
theorem recycle (h : RxInv q posted pool hand) {n : ℕ} (hn : n ≤ posted.length) :
    ∃ posted', RxInv (q.qedeRecycleRxBdRing n) posted' pool hand ∧
      posted'.length = posted.length ∧ RxKept q (q.qedeRecycleRxBdRing n) := by
  unfold qedeRecycleRxBdRing
  induction n generalizing q posted with
  | zero => exact ⟨posted, h, rfl, .refl q⟩
  | succ n ih =>
    cases posted with
    | nil => exact nomatch hn
    | cons b posted =>
      have hlen : (posted ++ [b]).length = (b :: posted).length := length_append
      obtain ⟨posted', hinv, hlen', hkept⟩ := ih h.reuse (by omega)
      rw [Function.iterate_succ_apply]
      have hreuse : RxKept q q.qedeReusePage.qedeRxBdRingConsume := ⟨rfl, rfl, rfl, rfl⟩
      exact ⟨posted', hinv, hlen'.trans hlen, hreuse.trans hkept⟩

/-- A page is replaced, and the pool gets it, or not. -/
theorem replace {e : SwRxData} (part : PagePart)
    (h : RxMid q (e :: posted.map entry) (b :: posted) pool hand)
    (hlen : posted.length ≤ q.filledBuffers) (hfilled : q.filledBuffers ≤ q.cfg.numRxBuffers)
    (hpage : part.page = b.page) :
    ∃ pool', RxInv (q.qedeAddPageToPool b.page true).2.qedeRxBdRingConsume posted pool'
      (part :: hand) := by
  have hnew := h.owns.page_notMem
  have hsame := addPage_same q b.page true
  obtain ⟨pool', howns⟩ := (h.owns.handOver hpage).addPageToPool hnew
  obtain ⟨hle, hle'⟩ := hsame.bounds ⟨hlen, hfilled⟩
  exact ⟨pool', (h.of_same hsame howns).consume, hle, hle'⟩

/-- A buffer was replaced, and the BD is about to be consumed. -/
theorem allocLazy {e : SwRxData} (h : RxMid q (e :: posted.map entry) (b :: posted) pool hand)
    (hlen : posted.length + 1 ≤ q.filledBuffers) (hfilled : q.filledBuffers ≤ q.cfg.numRxBuffers)
    (halloc : q.qedeAllocRxBuffer true = (true, q')) :
    RxKept q q' ∧ q'.filledBuffers ≤ q'.cfg.numRxBuffers ∧
      ∃ posted' pool', RxMid q' (e :: posted'.map entry) (b :: posted') pool' hand ∧
        posted'.length ≤ q'.filledBuffers ∧ posted.length ≤ posted'.length := by
  obtain ⟨hkept, hle, new, pool', hmid, hcount⟩ := h.allocLazy
    (by rwa [length_cons, length_map]) hfilled halloc
  rw [length_cons, length_map] at hcount
  refine ⟨hkept, by rwa [hkept.cfg], posted ++ new, pool', ?_, ?_, ?_⟩
  · rw [map_append]
    exact hmid
  · rw [length_append]
    omega
  · rw [length_append]
    exact le_add_right _ _

theorem allocFails (h : RxInv q posted pool hand)
    (halloc : q.qedeAllocRxBuffer true = (false, q')) : RxInv q' posted pool hand := by
  obtain ⟨-, -, hmid, hsame⟩ := h.mid.allocLazy (by rw [length_map]; exact h.le_filled)
    h.filled_le halloc
  exact h.of_same hsame hmid.owns

/-- **A segment is handed over**: the BD is renewed with the next segment of the page or with
another page, or nothing happens. -/
theorem realloc (h : RxInv q (b :: posted) pool hand) {ok : Bool}
    (hrealloc : q.qedeReallocRxBuffer = (ok, q')) :
    RxKept q q' ∧
      if ok then
        ∃ posted' pool', RxInv q'.qedeRxBdRingConsume posted' pool'
          (⟨b.page, b.off, b.off + q.cfg.rxBufSegSize⟩ :: hand) ∧ posted.length ≤ posted'.length
      else RxInv q' (b :: posted) pool hand := by
  have hlt : posted.length + 1 < 2 ^ 13 := h.length_lt
  have hlen : (posted.map entry).length < 2 ^ 13 := by
    rw [length_map]
    omega
  unfold qedeReallocRxBuffer at hrealloc
  rw [h.currCons] at hrealloc
  dsimp only at hrealloc
  have hset := RxMid.setCurrCons h.mid hlen
    { b.entry with pageOffset := b.entry.pageOffset + q.cfg.rxBufSegSize }
  generalize hq₁ : q.setCurrCons
    { b.entry with pageOffset := b.entry.pageOffset + q.cfg.rxBufSegSize } = q₁ at hrealloc hset
  have hkept₁ : RxKept q q₁ := by
    rw [← hq₁]
    exact ⟨rfl, rfl, rfl, rfl⟩
  have hb₁ : posted.length + 1 ≤ q₁.filledBuffers ∧ q₁.filledBuffers ≤ q₁.cfg.numRxBuffers := by
    rw [← hq₁]
    exact ⟨h.le_filled, h.filled_le⟩
  split at hrealloc
  · cases halloc : q₁.qedeAllocRxBuffer true with
    | mk ok₂ q₂ =>
      rw [halloc] at hrealloc
      cases ok₂ with
      | false =>
        cases hrealloc
        obtain ⟨hkept, -, hmid, hsame⟩ := hset.allocLazy
          (by rw [length_cons, length_map]; exact hb₁.1) hb₁.2 halloc
        obtain ⟨hle, hle'⟩ := hsame.bounds hb₁
        exact ⟨hkept₁.trans (hkept.trans ⟨rfl, rfl, rfl, rfl⟩), hmid.setCurrCons hlen b.entry, hle,
          hle'⟩
      | true =>
        cases hrealloc
        obtain ⟨hkept, hle, posted', pool', hmid, hcount, hmore⟩ :=
          allocLazy hset hb₁.1 hb₁.2 halloc
        obtain ⟨pool'', hinv⟩ := replace ⟨b.page, b.off, b.off + q.cfg.rxBufSegSize⟩ hmid hcount hle
          rfl
        exact ⟨hkept₁.trans (hkept.trans (addPage_same q₂ b.page true).toRxKept), posted', pool'',
          hinv, hmore⟩
  · rename_i hend
    cases hrealloc
    have hinc : RxSame q₁ (q₁.pageRefInc b.page) := { RxSame.refl q₁ with }
    have howns := hset.owns.nextSeg hend
    have hmid := (hset.of_same hinc howns).reuse (by rwa [length_map])
    rw [hkept₁.cfg] at hmid
    refine ⟨hkept₁.trans ⟨rfl, rfl, rfl, rfl⟩, _, pool, ⟨⟨?_, hmid.owns⟩, ?_, hb₁.2⟩, ?_⟩
    · rw [map_append]
      exact hmid.ring
    · rw [length_append]
      exact hb₁.1
    · rw [length_append]
      exact le_add_right _ _

end RxInv

end FastLinQ.Qede
